import Mathlib
import Zzdwm.Agent.Messages

/-!
# What the stored messages say

The routines that add a message are chains of writers.  What a chain writes is one
text, and each of these texts is read back as one JSON value.  A command is the
exception: it stands in a JSON text that itself stands in a JSON string, and it is
escaped only once.

* `Writes` — a chain that appends one text, if there is room for it;
* `escape`, `readsString_escape` — the escaper, undone by the decoder;
* `addTextMessage_spec`, `appendToolResult_spec`, `appendToolOutput_spec`,
  `addAssistantResponse_spec` — one description of each routine;
* `assistant_message_decodes_iff` — **the stored commands**.
-/

namespace Agent

open Ascii Json

variable {n : Nat}

/-! ## Writers -/

/-- The writer appends the text, if it finds the room for it. -/
def Writes (f : Buffer n → Option (Buffer n)) (text : List Byte) : Prop := ∀ buffer, f buffer = bufferAppend text buffer

theorem bufferAppend_some {data : List Byte} {buffer buffer' : Buffer n}
    (h : bufferAppend data buffer = some buffer') : buffer'.data = buffer.data ++ data := by
  unfold bufferAppend at h
  split at h
  · rw [← Option.some.inj h]
  · cases h

/-- Two texts behind each other find room if their sum does. -/
theorem bufferAppend_append (s t : List Byte) (buffer : Buffer n) :
    (bufferAppend s >=> bufferAppend t) buffer = bufferAppend (s ++ t) buffer := by
  have hfits := buffer.fits
  by_cases hs : s.length ≤ n - buffer.data.length
  · have hfirst : bufferAppend s buffer = some ⟨buffer.data ++ s, _⟩ := dif_pos hs
    change (bufferAppend s buffer).bind (bufferAppend t) = _
    rw [hfirst, Option.bind_some]
    by_cases ht : t.length ≤ n - (buffer.data ++ s).length
    · have hboth : (s ++ t).length ≤ n - buffer.data.length := by
        rw [List.length_append] at ht ⊢
        omega
      rw [bufferAppend, bufferAppend, dif_pos ht, dif_pos hboth]
      simp only [List.append_assoc]
    · have hboth : ¬ (s ++ t).length ≤ n - buffer.data.length := by
        rw [List.length_append] at ht ⊢
        omega
      rw [bufferAppend, bufferAppend, dif_neg ht, dif_neg hboth]
  · have hboth : ¬ (s ++ t).length ≤ n - buffer.data.length := by
      rw [List.length_append]
      omega
    change (bufferAppend s buffer).bind (bufferAppend t) = _
    rw [bufferAppend, bufferAppend, dif_neg hs, dif_neg hboth]
    rfl

theorem writes_append (data : List Byte) : Writes (bufferAppend data : Buffer n → _) data := fun _ => rfl

theorem writes_some : Writes (some : Buffer n → Option (Buffer n)) [] := by
  intro buffer
  rw [bufferAppend, dif_pos (show ([] : List Byte).length ≤ _ from Nat.zero_le _)]
  simp only [List.append_nil]

theorem Writes.seq {f g : Buffer n → Option (Buffer n)} {s t : List Byte} (hf : Writes f s)
    (hg : Writes g t) : Writes (f >=> g) (s ++ t) := by
  intro buffer
  have hchain : (f >=> g) buffer = (bufferAppend s >=> bufferAppend t) buffer := by
    change (f buffer).bind g = (bufferAppend s buffer).bind (bufferAppend t)
    rw [hf buffer, funext hg]
  rw [hchain, bufferAppend_append]

theorem Writes.data {f : Buffer n → Option (Buffer n)} {text : List Byte} (hf : Writes f text)
    {buffer buffer' : Buffer n} (h : f buffer = some buffer') : buffer'.data = buffer.data ++ text :=
  bufferAppend_some ((hf buffer).symm.trans h)

theorem Writes.congr {f : Buffer n → Option (Buffer n)} {s t : List Byte} (hf : Writes f s)
    (h : s = t) : Writes f t := h ▸ hf

/-- What the escaper makes of a string. -/
def escape (s : List Byte) : List Byte := s.flatMap escaped

theorem writes_body (data : List Byte) : Writes (appendJsonStringBody data : Buffer n → _) (escape data) := by
  induction data with
  | nil => exact writes_some
  | cons byte data ih => exact (writes_append (escaped byte)).seq ih

theorem writes_string (data : List Byte) :
    Writes (appendJsonString data : Buffer n → _) (quoted (escape data)) :=
  (writes_append _).seq ((writes_body data).seq (writes_append _))

theorem writes_text (data : List Byte) :
    Writes (appendJsonText data : Buffer n → _) (quoted (escape (cString data))) := writes_string _

theorem Text.cString (t : Text n) : cString t.bytes = t.bytes := cString_self.mpr t.noNul

theorem writes_field (t : Text n) {k : Nat} :
    Writes (appendJsonText t.bytes : Buffer k → _) (quoted (escape t.bytes)) := by
  have h := writes_text (n := k) t.bytes
  rwa [t.cString] at h

/-! ## The escaper and the decoder -/

theorem hex4_control : ∀ b : Fin 32,
    hex4 0x30 0x30 (hexDigit (UInt8.ofNat b / 16)) (hexDigit (UInt8.ofNat b % 16)) = some b.1 := by
  decide

theorem readsByte_escaped (b : Byte) : ReadsByte (escaped b) b := by
  unfold escaped
  split
  next h => rcases h with rfl | rfl <;> exact readsByte_unescape (by decide) rfl
  next hplain =>
    obtain ⟨hq, hb⟩ := not_or.mp hplain
    iterate 5
      split
      · next h => exact h ▸ readsByte_unescape (by decide) rfl
    split
    next hlt =>
      have hfin := hex4_control ⟨b.toNat, hlt⟩
      simp only [UInt8.ofNat_toNat] at hfin
      exact readsByte_hex4 hfin (Nat.lt_trans hlt (by decide))
    next hlt => exact readsByte_plain ⟨hq, hb, hlt⟩

/-- **The decoder undoes the escaper.** -/
theorem readsString_escape (s : List Byte) : ReadsString (escape s) s := by
  induction s with
  | nil => exact readsString_nil
  | cons b s ih => exact (readsByte_escaped b).cons ih

/-- A string, escaped, between quotes. -/
theorem reads_escape (s : List Byte) : Reads (quoted (escape s)) (.str s) :=
  Reads.str (readsString_escape s)

/-- A member whose text is a string that is escaped. -/
def strField (name : List Byte) (s : List Byte) (plain : ∀ b ∈ name, Plain b := by exact forall_bytes rfl) : Field where
  name := name
  text := quoted (escape s)
  val := .str s
  plain := plain
  reads := reads_escape s

/-! ## The texts of the messages -/

def roleKey : List Byte := bytes "role"
def contentKey : List Byte := bytes "content"
def callsKey : List Byte := bytes "tool_calls"
def callIdKey : List Byte := bytes "tool_call_id"
def idKey : List Byte := bytes "id"
def nameKey : List Byte := bytes "name"
def typeKey : List Byte := bytes "type"
def functionKey : List Byte := bytes "function"
def argumentsKey : List Byte := bytes "arguments"
def commandKey : List Byte := bytes "command"

/-- The text that stands as the arguments of a call: the command is put into it as it
is. -/
def argumentsText (call : ToolCall) : List Byte := objText [(commandKey, quoted call.command.bytes)]

def textFields (role content : List Byte) : List Field :=
  [strField roleKey role, strField contentKey content]

def toolFields (call : ToolCall) (content : List Byte) : List Field :=
  [strField roleKey (bytes "tool"), strField callIdKey call.id.bytes,
    strField nameKey call.name.bytes, strField contentKey content]

/-- An object as the text of a member. -/
def objField (name : List Byte) (fields : List Field) (plain : ∀ b ∈ name, Plain b := by exact forall_bytes rfl) : Field :=
  ⟨name, _, _, plain, Reads.obj fields⟩

def functionFields (call : ToolCall) : List Field :=
  [strField nameKey call.name.bytes,
    strField argumentsKey (argumentsText call)]

def callFields (call : ToolCall) : List Field :=
  [strField typeKey (bytes "function"), strField idKey call.id.bytes,
    objField functionKey (functionFields call)]

def callItem (call : ToolCall) : Item := ⟨_, _, Reads.obj (callFields call)⟩

/-- The content of an assistant message. -/
def contentField (content : Text maxLine) : Field :=
  if content.bytes = [] then ⟨contentKey, bytes "null", .null, forall_bytes rfl, Reads.null⟩
  else strField contentKey content.bytes

/-- An assistant message says what it calls only if it calls something. -/
def callsFields (calls : List ToolCall) : List Field :=
  if calls = [] then [] else [⟨callsKey, _, _, forall_bytes rfl, Reads.arr (calls.map callItem)⟩]

def assistantFields (content : Text maxLine) (calls : List ToolCall) : List Field :=
  strField roleKey (bytes "assistant") :: contentField content :: callsFields calls

/-- The text of an object that has these fields. -/
def textOf (fields : List Field) : List Byte := objText (fields.map fun f => (f.name, f.text))

/-- The object that has these fields. -/
def valueOf (fields : List Field) : Value := .obj (fields.map fun f => (f.name, f.val))

theorem decode_textOf (fields : List Field) : decode (textOf fields) = some (valueOf fields) :=
  (Reads.obj fields).decode

theorem writes_toolMessage (call : ToolCall) {content : List Byte}
    {f : Buffer messageSize → Option (Buffer messageSize)} (hf : Writes f (quoted (escape content))) :
    Writes (toolMessage call f) (textOf (toolFields call content)) := by
  refine ((writes_append _).seq ((writes_field call.id).seq ((writes_append _).seq
    ((writes_field call.name).seq ((writes_append _).seq (hf.seq (writes_append _))))))).congr ?_
  simp [textOf, toolFields, strField, objText, joined, memberText, quoted, bytes_eq, String.utf8EncodeChar, roleKey, callIdKey,
    nameKey, contentKey, escape, escaped, quote, backslash, colon, comma, lbrace, rbrace]

theorem writes_callText (call : ToolCall) : Writes (callText call) (callItem call).text := by
  refine ((writes_append _).seq ((writes_field call.id).seq ((writes_append _).seq
    ((writes_field call.name).seq ((writes_append _).seq ((writes_append _).seq ((writes_append _).seq
    ((writes_append _).seq ((writes_body call.command.bytes).seq ((writes_append _).seq
    ((writes_append _).seq (writes_append _)))))))))))).congr ?_
  simp [callItem, callFields, functionFields, objField, argumentsText, strField, objText, joined,
    memberText, quoted, bytes_eq, String.utf8EncodeChar, typeKey, idKey, functionKey, argumentsKey, commandKey,
    nameKey, escape, escaped, quote, backslash, colon, comma, lbrace, rbrace]

theorem writes_laterCalls (calls : List ToolCall) (first : List Byte) :
    ∃ later, Writes (laterCalls calls) later ∧
      first ++ later = joined (first :: (calls.map callItem).map Item.text) := by
  induction calls generalizing first with
  | nil => exact ⟨[], writes_some, by simp [joined]⟩
  | cons call calls ih =>
      obtain ⟨later, hw, heq⟩ := ih (callItem call).text
      refine ⟨_, (writes_append _).seq ((writes_callText call).seq hw), ?_⟩
      rw [heq]
      rfl

theorem writes_callsText (calls : List ToolCall) :
    Writes (callsText calls)
      ((callsFields calls).flatMap fun f => comma :: memberText f.name f.text) := by
  cases calls with
  | nil => exact writes_some
  | cons call calls =>
      obtain ⟨later, hw, heq⟩ := writes_laterCalls calls (callItem call).text
      refine ((writes_append _).seq ((writes_callText call).seq (hw.seq (writes_append _)))).congr ?_
      rw [← List.append_assoc (callItem call).text, heq]
      simp [callsFields, arrText, memberText, quoted, bytes_eq, String.utf8EncodeChar, callsKey, quote, colon, comma, lbracket,
        rbracket]

theorem writes_content (content : Text maxLine) :
    Writes (if content.bytes = [] then bufferAppendString "null" else appendJsonText content.bytes :
      Buffer messageSize → _) (contentField content).text := by
  unfold contentField
  split
  · exact writes_append _
  · exact writes_field content

/-- The whole text of an assistant message. -/
theorem assistant_text (content : Text maxLine) (calls : List ToolCall) :
    bytes "\x7b\"role\":\"assistant\",\"content\":" ++ ((contentField content).text ++
      ((callsFields calls).flatMap (fun f => comma :: memberText f.name f.text) ++ bytes "\x7d")) =
      textOf (assistantFields content calls) := by
  have hname : (contentField content).name = contentKey := by
    unfold contentField
    split <;> rfl
  cases calls with
  | nil =>
      simp [textOf, assistantFields, callsFields, strField, objText, joined, memberText, quoted, bytes_eq, String.utf8EncodeChar,
        roleKey, hname, contentKey, escape, escaped, quote, backslash, colon, comma, lbrace, rbrace]
  | cons call calls =>
      simp [textOf, assistantFields, callsFields, strField, objText, joined, memberText, quoted, bytes_eq, String.utf8EncodeChar,
        roleKey, hname, contentKey, escape, escaped, quote, backslash, colon, comma, lbrace, rbrace]

/-! ## One description of each routine -/

/-- The messages that stay when one more is added. -/
def room (messages : List Message) : List Message :=
  if messages.length < maxMessages then messages else dropOldest messages

/-- A message with this text is added at the end. -/
def Adds (c c' : Conversation) (text : List Byte) (system : Bool) : Prop :=
  ∃ m : Message, c'.messages = room c.messages ++ [m] ∧ m.json = text ∧ m.system = system

theorem addMessage_spec {c c' : Conversation} {json : Buffer messageSize} {system : Bool}
    (h : addMessage c json system = some c') : Adds c c' json.data system := by
  unfold addMessage at h
  dsimp only at h
  split at h
  next hlt =>
    cases h
    exact ⟨_, by rw [room, if_pos hlt]; rfl, rfl, rfl⟩
  next hfull =>
    split at h
    · cases h
      exact ⟨_, by rw [room, if_neg hfull]; rfl, rfl, rfl⟩
    · cases h

/-- A routine that writes a message and adds it. -/
theorem Writes.adds {f : Buffer messageSize → Option (Buffer messageSize)} {text : List Byte}
    (hf : Writes f text) {c c' : Conversation} {system : Bool}
    (h : (f Buffer.empty >>= fun buffer => addMessage c buffer system) = some c') :
    Adds c c' text system := by
  obtain ⟨buffer, hb, hadd⟩ := Option.bind_eq_some_iff.mp h
  have hdata : buffer.data = text := hf.data hb
  exact hdata ▸ addMessage_spec hadd

theorem writes_textMessage (role content : List Byte) :
    Writes (bufferAppendString "\x7b\"role\":" >=> appendJsonText role >=>
      bufferAppendString ",\"content\":" >=> appendJsonText content >=>
      bufferAppendString "\x7d" : Buffer messageSize → _)
      (textOf (textFields (cString role) (cString content))) := by
  refine ((writes_append _).seq ((writes_text role).seq ((writes_append _).seq
    ((writes_text content).seq (writes_append _))))).congr ?_
  simp [textOf, textFields, strField, objText, joined, memberText, quoted, bytes_eq, String.utf8EncodeChar,
    roleKey, contentKey, quote, colon, comma, lbrace, rbrace]

theorem addTextMessage_spec {role content : List Byte} {system : Bool} {c c' : Conversation}
    (h : addTextMessage role content system c = some c') :
    Adds c c' (textOf (textFields (cString role) (cString content))) system :=
  (writes_textMessage role content).adds h

/-- A text that fits is added. -/
theorem addTextMessage_fits {role content : List Byte} {system : Bool} {c : Conversation}
    (hfits : (textOf (textFields (cString role) (cString content))).length ≤ messageSize)
    (hroom : c.messages.length < maxMessages) :
    addTextMessage role content system c = some (c.store ⟨_, system, hfits⟩ hroom) := by
  unfold addTextMessage
  have hempty : (Buffer.empty : Buffer messageSize).data.length = 0 := rfl
  rw [writes_textMessage, bufferAppend, dif_pos (by rw [hempty]; exact hfits)]
  exact dif_pos hroom

theorem appendToolResult_spec {call : ToolCall} {content : List Byte} {c c' : Conversation}
    (h : appendToolResult call content c = some c') :
    Adds c c' (textOf (toolFields call (cString content))) false :=
  (writes_toolMessage call (writes_text content)).adds h

theorem appendToolOutput_spec {call : ToolCall} {lead output : List Byte} {c c' : Conversation}
    (h : appendToolOutput call lead output c = some c') :
    Adds c c' (textOf (toolFields call (lead ++ output))) false := by
  unfold appendToolOutput at h
  dsimp only at h
  split at h
  · cases h
  · exact (writes_toolMessage call (writes_string (lead ++ output))).adds h

theorem addAssistantResponse_spec {content : Text maxLine} {calls : List ToolCall}
    {c c' : Conversation} (h : addAssistantResponse content calls c = some c') :
    Adds c c' (textOf (assistantFields content calls)) false :=
  Writes.adds (((writes_append _).seq ((writes_content content).seq
    ((writes_callsText calls).seq (writes_append _)))).congr (assistant_text content calls)) h

/-! ## The calls of a stored message -/

def toolCalls (message : Value) : List Value := ((message.get callsKey).map Value.items).getD []

def callId (item : Value) : Option Value := item.get idKey

def callName (item : Value) : Option Value := (item.get functionKey).bind (Value.get nameKey)

def callArguments (item : Value) : Option Value := (item.get functionKey).bind (Value.get argumentsKey)

/-- The arguments are a JSON text, and its command is the one of the call. -/
def ArgumentsHold (item : Value) (call : ToolCall) : Prop :=
  ∃ args, callArguments item = some (.str args) ∧
    ∃ v, decode args = some v ∧ v.get commandKey = some (.str call.command.bytes)

/-- The item says what the call says. -/
def CallHolds (item : Value) (call : ToolCall) : Prop :=
  callId item = some (.str call.id.bytes) ∧ callName item = some (.str call.name.bytes) ∧
    ArgumentsHold item call

/-- The message is a JSON text, and it says what the calls say, in their order. -/
def Message.Holds (m : Message) (calls : List ToolCall) : Prop :=
  ∃ v, decode m.json = some v ∧ List.Forall₂ CallHolds (toolCalls v) calls

theorem toolCalls_assistant (content : Text maxLine) (calls : List ToolCall) :
    toolCalls (valueOf (assistantFields content calls)) =
      calls.map fun call => valueOf (callFields call) := by
  have hname : (contentField content).name = contentKey := by
    unfold contentField
    split <;> rfl
  have hrole : (roleKey == callsKey) = false := by decide
  have hcontent : (contentKey == callsKey) = false := by decide
  cases calls with
  | nil => simp_all [toolCalls, valueOf, assistantFields, callsFields, strField, Value.get]
  | cons call calls =>
      simp_all [toolCalls, valueOf, assistantFields, callsFields, strField, Value.get, Value.items,
        callItem]

/-- Everything but the command is escaped as often as it is decoded. -/
theorem callHolds_iff (call : ToolCall) :
    CallHolds (valueOf (callFields call)) call ↔ ∀ b ∈ call.command.bytes, Plain b := by
  have hid : callId (valueOf (callFields call)) = some (.str call.id.bytes) := rfl
  have hname : callName (valueOf (callFields call)) = some (.str call.name.bytes) := rfl
  have hargs : callArguments (valueOf (callFields call)) = some (.str (argumentsText call)) := rfl
  rw [← member_self_iff (k := commandKey) (forall_bytes rfl) call.command.bytes]
  constructor
  · rintro ⟨-, -, args, ha, hv⟩
    rw [hargs] at ha
    cases ha
    exact hv
  · intro hv
    exact ⟨hid, hname, _, hargs, hv⟩

theorem stored_holds_iff {content : Text maxLine} {calls : List ToolCall} {m : Message}
    (h : m.json = textOf (assistantFields content calls)) :
    m.Holds calls ↔ ∀ call ∈ calls, ∀ b ∈ call.command.bytes, Plain b := by
  have hdec := decode_textOf (assistantFields content calls)
  have hmap : List.Forall₂ CallHolds (calls.map fun call => valueOf (callFields call)) calls ↔
      ∀ call ∈ calls, ∀ b ∈ call.command.bytes, Plain b := by
    rw [List.forall₂_map_left_iff, List.forall₂_same]
    exact forall₂_congr fun call _ => callHolds_iff call
  rw [Message.Holds, h, hdec, ← hmap, ← toolCalls_assistant content calls]
  simp

/-- **The stored commands.**  Whatever the assistant says and calls: the message that is
stored is valid JSON, with the same ids and names and with arguments that are valid
JSON for the same commands, if and only if no command holds a quote, a backslash or a
control character.  A command stands inside two levels of JSON text and is escaped
for one. -/
theorem assistant_message_decodes_iff (content : Text maxLine) (calls : List ToolCall)
    (c c' : Conversation) (h : addAssistantResponse content calls c = some c') :
    ∃ m, c'.messages.getLast? = some m ∧
      (m.Holds calls ↔ ∀ call ∈ calls, ∀ b ∈ call.command.bytes, Plain b) := by
  obtain ⟨m, hmessages, hjson, -⟩ := addAssistantResponse_spec h
  exact ⟨m, by simp [hmessages], stored_holds_iff hjson⟩

/-- Commands without and with something to escape. -/
def listCall : ToolCall := terminalCall "call-1" "ls -l" (by decide) (by decide) (by decide)
def echoCall : ToolCall := terminalCall "call-2" "echo \"hi\"" (by decide) (by decide) (by decide)

theorem assistant_message_decodes_ls :
    ∃ c' m, addAssistantResponse noContent [listCall] noMessages = some c' ∧
      c'.messages.getLast? = some m ∧ m.Holds [listCall] := by
  obtain ⟨c', hstore⟩ : ∃ c', addAssistantResponse noContent [listCall] noMessages = some c' :=
    Option.isSome_iff_exists.mp (by decide +kernel)
  obtain ⟨m, hlast, hiff⟩ := assistant_message_decodes_iff noContent [listCall] noMessages c' hstore
  exact ⟨c', m, hstore, hlast, hiff.mpr (by decide +kernel)⟩

/-- `echo "hi"` is stored with its quotes escaped once. -/
theorem assistant_message_echo :
    ∃ c' m, addAssistantResponse noContent [echoCall] noMessages = some c' ∧
      c'.messages.getLast? = some m ∧ ¬ m.Holds [echoCall] := by
  obtain ⟨c', hstore⟩ : ∃ c', addAssistantResponse noContent [echoCall] noMessages = some c' :=
    Option.isSome_iff_exists.mp (by decide +kernel)
  obtain ⟨m, hmessages, hjson, -⟩ := addAssistantResponse_spec hstore
  exact ⟨c', m, hstore, by simp [hmessages], fun hm => absurd ((stored_holds_iff hjson).mp hm) (by decide)⟩

end Agent
