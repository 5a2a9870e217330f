import Zzdwm.Ai.Chunked
import Zzdwm.Ai.Configure
import Zzdwm.Ai.JsonStrings

/-!
# Requests of the assistant (`ai.c`)

A request is a JSON object that is written into a buffer which grows, and a header that is put in
front of it.

* `aiAppend`, `aiAppendJsonString` — the buffer, and strings in it;
* `aiBuildRequest` — the body, and the header with its length;
* `Holds` — what the memory holds, whatever growth it went through;
* `request_round_trip` — **what is written is read back**.
-/

namespace Ai

open Ascii (Byte bytes decimal)
open Json (quote backslash lbrace rbrace)

def AI_DEFAULT_NUM_PREDICT : Nat := 128
def AI_MAX_REQUEST_SIZE : Nat := 1024 * 1024
def SIZE_MAX : Nat := 2 ^ 64 - 1

def AI_DEFAULT_MODEL : List Byte := bytes "qwen2.5-coder:1.5b"

def AI_SYSTEM_PROMPT : List Byte :=
  bytes ("You are a helpful assistant inside MicroEMACS. Write concise " ++
    "assistant commentary in Markdown: explain the answer, assumptions, " ++
    "and next steps. Include code when useful, but do not reply with code only.")

/-! ## The buffer -/

/-- The bytes that are allocated, and how many of them are used. -/
structure Buffer where
  cells : List Byte
  length : Nat

/-- Bytes are copied to an offset of the memory. -/
def memcpy (cells : List Byte) (offset : Nat) (data : List Byte) : List Byte :=
  cells.take offset ++ data ++ cells.drop (offset + data.length)

/-- The new size is doubled until it is more than what is needed.  There are no more rounds than
bits in a size. -/
def aiGrow (needed : Nat) : Nat → Nat → Option Nat
  | 0, _ => none
  | fuel + 1, newSize =>
      if newSize ≤ needed then
        if SIZE_MAX / 2 < newSize then none else aiGrow needed fuel (newSize * 2)
      else some newSize

section Memory

-- what `malloc` and `realloc` leave in new memory; both have enough of it
variable (junk : Nat → Byte)

def realloc (cells : List Byte) (size : Nat) : List Byte :=
  cells ++ (List.range' cells.length (size - cells.length)).map junk

/-- `ai_append`. -/
def aiAppend (data : List Byte) (buffer : Buffer) : Option Buffer :=
  if SIZE_MAX - buffer.length < data.length then none
  else if buffer.cells.length ≤ buffer.length + data.length then
    (aiGrow (buffer.length + data.length) 64 buffer.cells.length).map fun newSize =>
      ⟨memcpy (realloc junk buffer.cells newSize) buffer.length data, buffer.length + data.length⟩
  else some ⟨memcpy buffer.cells buffer.length data, buffer.length + data.length⟩

/-- A digit of `%04x`. -/
def hexDigit (n : Nat) : Byte := if n < 10 then 0x30 + n.toUInt8 else 0x57 + n.toUInt8

/-- How one character of a string is written. -/
def aiEscape (character : Byte) : List Byte :=
  if character = quote ∨ character = backslash then [backslash, character]
  else if character = 0x08 then [backslash, 0x62]
  else if character = 0x0C then [backslash, 0x66]
  else if character = 0x0A then [backslash, 0x6E]
  else if character = 0x0D then [backslash, 0x72]
  else if character = 0x09 then [backslash, 0x74]
  else if character < 0x20 then
    [backslash, 0x75, 0x30, 0x30, hexDigit (character.toNat / 16), hexDigit (character.toNat % 16)]
  else [character]

/-- The loop of `ai_append_json_string`. -/
def aiAppendCharacters : List Byte → Buffer → Option Buffer
  | [] => some
  | character :: text => aiAppend junk (aiEscape character) >=> aiAppendCharacters text

/-- `ai_append_json_string`.  A C string is the list of its bytes in front of the zero. -/
def aiAppendJsonString (text : List Byte) : Buffer → Option Buffer :=
  aiAppend junk [quote] >=> aiAppendCharacters junk text >=> aiAppend junk [quote]

/-! ## The request -/

/-- `ai_is_chat_endpoint`. -/
def aiIsChatEndpoint (c : Config) : Bool := c.path = bytes "/v1/chat/completions"

/-- The member for the effort, if there is one. -/
def aiAppendEffort (c : Config) : Buffer → Option Buffer :=
  if c.reasoningEffort ≠ [] then
    aiAppend junk (bytes ",\"reasoning_effort\":") >=> aiAppendJsonString junk c.reasoningEffort
  else some

/-- The body up to the number. -/
def aiBody (c : Config) (prompt : List Byte) (model : Option (List Byte)) :
    Buffer → Option Buffer :=
  if aiIsChatEndpoint c then
    aiAppend junk (bytes "\x7b\"model\":") >=>
      aiAppendJsonString junk (model.getD AI_DEFAULT_MODEL) >=>
      aiAppendEffort junk c >=>
      aiAppend junk (bytes ",\"messages\":[\x7b\"role\":\"system\",\"content\":") >=>
      aiAppendJsonString junk AI_SYSTEM_PROMPT >=>
      aiAppend junk (bytes "\x7d,\x7b\"role\":\"user\",\"content\":") >=>
      aiAppendJsonString junk prompt >=>
      aiAppend junk (bytes "\x7d],\"stream\":false,\"max_tokens\":")
  else
    aiAppend junk (bytes "\x7b\"model\":") >=>
      aiAppendJsonString junk (model.getD AI_DEFAULT_MODEL) >=>
      aiAppend junk (bytes ",\"system\":") >=>
      aiAppendJsonString junk AI_SYSTEM_PROMPT >=>
      aiAppend junk (bytes ",\"prompt\":") >=>
      aiAppendJsonString junk prompt >=>
      aiAppend junk (bytes ",\"stream\":false,\"num_predict\":")

/-- The number of tokens that is asked for. -/
def numPredictValue (numPredict : Int) : Nat :=
  if 0 < numPredict then numPredict.toNat else AI_DEFAULT_NUM_PREDICT

/-- The port, as `%d` prints it. -/
def portText (port : Int) : List Byte :=
  if port < 0 then 0x2D :: decimal port.natAbs else decimal port.natAbs

/-- The header of a body of so many bytes. -/
def headerText (c : Config) (length : Nat) : List Byte :=
  bytes "POST " ++ c.path ++ bytes " HTTP/1.0" ++ crlf ++
    bytes "Host: " ++ c.host ++ bytes ":" ++ portText c.port ++ crlf ++
    bytes "Content-Type: application/json" ++ crlf ++
    bytes "Content-Length: " ++ decimal length ++ crlf ++
    (if c.apiKey ≠ [] then bytes "Authorization: Bearer " ++ c.apiKey ++ crlf else []) ++
    bytes "Connection: close" ++ crlf ++ crlf

/-- The header is put in front of the body. -/
def aiPutHeader (header : List Byte) (buffer : Buffer) : Option Buffer :=
  let size :=
    if buffer.cells.length ≤ buffer.length + header.length then
      aiGrow (buffer.length + header.length) 64 buffer.cells.length
    else some buffer.cells.length
  size.map fun size =>
    let cells := realloc junk buffer.cells size
    let cells := memcpy cells header.length (cells.take buffer.length)
    ⟨memcpy cells 0 header, buffer.length + header.length⟩

/-- `ai_build_request`: the bytes of the request. -/
def aiBuildRequest (c : Config) (prompt : List Byte) (model : Option (List Byte))
    (numPredict : Int) : Option (List Byte) := do
  let buffer ← aiBody junk c prompt model ⟨realloc junk [] 1024, 0⟩
  let tail := decimal (numPredictValue numPredict) ++ [rbrace]
  if 64 ≤ tail.length then none
  else
    let buffer ← aiAppend junk tail buffer
    if AI_MAX_REQUEST_SIZE ≤ buffer.length then none
    else
      let header := headerText c buffer.length
      if 1024 ≤ header.length then none
      else
        let buffer ← aiPutHeader junk header buffer
        if AI_MAX_REQUEST_SIZE ≤ buffer.length then none
        else some (buffer.cells.take buffer.length)

end Memory

/-! ## What the memory holds -/

/-- The buffer holds the text, and one byte more is allocated at least. -/
structure Holds (buffer : Buffer) (text : List Byte) : Prop where
  used : buffer.length = text.length
  fits : text.length < buffer.cells.length
  text : buffer.cells.take buffer.length = text

/-- The writer adds the data, wherever the buffer has to grow. -/
def Writes (f : Buffer → Option Buffer) (data : List Byte) : Prop :=
  ∀ buffer text, Holds buffer text → (text ++ data).length ≤ SIZE_MAX / 2 →
    ∃ buffer', f buffer = some buffer' ∧ Holds buffer' (text ++ data)

theorem Writes.seq {f g : Buffer → Option Buffer} {s t : List Byte} (hf : Writes f s)
    (hg : Writes g t) : Writes (f >=> g) (s ++ t) := by
  intro buffer text hholds hsize
  rw [← List.append_assoc] at hsize ⊢
  have hfirst : (text ++ s).length ≤ SIZE_MAX / 2 := by
    rw [List.length_append] at hsize
    omega
  obtain ⟨buffer', hf', hholds'⟩ := hf buffer text hholds hfirst
  obtain ⟨buffer'', hg', hholds''⟩ := hg buffer' _ hholds' hsize
  refine ⟨buffer'', ?_, hholds''⟩
  change (f buffer).bind g = some buffer''
  rw [hf', Option.bind_some, hg']

theorem writes_some : Writes some [] := by
  intro buffer text hholds hsize
  rw [List.append_nil]
  exact ⟨buffer, rfl, hholds⟩

section Growth

variable (junk : Nat → Byte) {cells : List Byte}

/-- The size that is found is more than what is needed. -/
theorem aiGrow_spec {needed : Nat} (hneeded : needed ≤ SIZE_MAX / 2) : ∀ fuel newSize,
    needed < newSize * 2 ^ fuel →
      ∃ size, aiGrow needed (fuel + 1) newSize = some size ∧ needed < size ∧ newSize ≤ size := by
  intro fuel
  induction fuel with
  | zero =>
      intro newSize h
      rw [Nat.pow_zero, Nat.mul_one] at h
      exact ⟨newSize, if_neg (Nat.not_le.mpr h), h, Nat.le_refl _⟩
  | succ fuel ih =>
      intro newSize h
      by_cases hle : newSize ≤ needed
      · rw [Nat.pow_succ', ← Nat.mul_assoc] at h
        obtain ⟨size, hgrow, hlt, hsize⟩ := ih (newSize * 2) h
        refine ⟨size, ?_, hlt, by omega⟩
        rw [aiGrow, if_pos hle, if_neg (by omega), hgrow]
      · exact ⟨newSize, if_neg hle, Nat.not_le.mp hle, Nat.le_refl _⟩

theorem grow_enough {needed newSize : Nat} (hneeded : needed ≤ SIZE_MAX / 2) (hpos : 0 < newSize) :
    ∃ size, aiGrow needed 64 newSize = some size ∧ needed < size ∧ newSize ≤ size := by
  apply aiGrow_spec hneeded 63
  calc needed ≤ SIZE_MAX / 2 := hneeded
    _ < 2 ^ 63 := by decide
    _ ≤ newSize * 2 ^ 63 := Nat.le_mul_of_pos_left _ hpos

theorem realloc_length {size : Nat} (h : cells.length ≤ size) :
    (realloc junk cells size).length = size := by
  rw [realloc, List.length_append, List.length_map, List.length_range']
  omega

theorem realloc_take {size n : Nat} (h : n ≤ cells.length) :
    (realloc junk cells size).take n = cells.take n := List.take_append_of_le_length h

theorem memcpy_length {offset : Nat} {data : List Byte} (h : offset + data.length ≤ cells.length) :
    (memcpy cells offset data).length = cells.length := by
  simp only [memcpy, List.length_append, List.length_take, List.length_drop]
  omega

/-- The bytes up to the end of what is copied. -/
theorem memcpy_take {offset : Nat} {data : List Byte} (h : offset ≤ cells.length) :
    (memcpy cells offset data).take (offset + data.length) = cells.take offset ++ data := by
  have hlength : (cells.take offset ++ data).length = offset + data.length := by
    rw [List.length_append, List.length_take, Nat.min_eq_left h]
  rw [memcpy, ← hlength, List.take_left]

theorem writes_append (data : List Byte) : Writes (aiAppend junk data) data := by
  intro buffer text hholds hsize
  obtain ⟨hused, hfits, htext⟩ := hholds
  rw [List.length_append] at hsize
  -- the data is copied behind the text, in memory that is large enough
  have hcopied : ∀ cells : List Byte, text.length + data.length < cells.length →
      cells.take text.length = text →
        Holds ⟨memcpy cells buffer.length data, buffer.length + data.length⟩ (text ++ data) := by
    intro cells hroom htake
    rw [hused]
    refine ⟨?_, ?_, ?_⟩
    · rw [List.length_append]
    · rw [memcpy_length (Nat.le_of_lt hroom), List.length_append]
      exact hroom
    · rw [memcpy_take (by omega), htake]
  have hlimit : ¬ SIZE_MAX - buffer.length < data.length := by omega
  rw [aiAppend, if_neg hlimit]
  by_cases hfull : buffer.cells.length ≤ buffer.length + data.length
  · obtain ⟨size, hgrow, hlt, hle⟩ := @grow_enough (buffer.length + data.length)
      buffer.cells.length (by omega) (by omega)
    rw [if_pos hfull, hgrow]
    refine ⟨_, rfl, hcopied _ ?_ ?_⟩
    · rw [realloc_length junk hle]
      omega
    · rw [realloc_take junk (Nat.le_of_lt hfits), ← hused, htext]
  · rw [if_neg hfull]
    refine ⟨_, rfl, hcopied _ (by omega) ?_⟩
    rw [← hused, htext]

/-- What a string is written as. -/
def escape (text : List Byte) : List Byte := text.flatMap aiEscape

theorem writes_characters (text : List Byte) :
    Writes (aiAppendCharacters junk text) (escape text) := by
  induction text with
  | nil => exact writes_some
  | cons character text ih => exact (writes_append junk (aiEscape character)).seq ih

theorem writes_string (text : List Byte) :
    Writes (aiAppendJsonString junk text) (Json.quoted (escape text)) :=
  (writes_append junk _).seq ((writes_characters junk text).seq (writes_append junk _))

/-- **The header is put in front.** -/
theorem aiPutHeader_spec {header body : List Byte} {buffer : Buffer} (hholds : Holds buffer body)
    (hsize : header.length + body.length ≤ SIZE_MAX / 2) :
    ∃ buffer', aiPutHeader junk header buffer = some buffer' ∧ Holds buffer' (header ++ body) := by
  obtain ⟨hused, hfits, htext⟩ := hholds
  obtain ⟨size, hgrow, hlt, hle⟩ : ∃ size,
      (if buffer.cells.length ≤ buffer.length + header.length then
        aiGrow (buffer.length + header.length) 64 buffer.cells.length
      else some buffer.cells.length) = some size ∧ buffer.length + header.length < size ∧
        buffer.cells.length ≤ size := by
    by_cases hfull : buffer.cells.length ≤ buffer.length + header.length
    · rw [if_pos hfull]
      exact grow_enough (by omega) (by omega)
    · rw [if_neg hfull]
      exact ⟨_, rfl, Nat.not_le.mp hfull, Nat.le_refl _⟩
  have hbody : (realloc junk buffer.cells size).take buffer.length = body := by
    rw [realloc_take junk (by omega), htext]
  have hlength := realloc_length junk hle
  have hput : aiPutHeader junk header buffer =
      some ⟨memcpy (memcpy (realloc junk buffer.cells size) header.length body) 0 header,
        buffer.length + header.length⟩ := by
    rw [aiPutHeader, hgrow]
    dsimp only [Option.map_some]
    rw [hbody]
  generalize realloc junk buffer.cells size = cells at hbody hlength hput
  refine ⟨_, hput, ?_⟩
  have hmoved := @memcpy_length cells header.length body (by omega)
  refine ⟨?_, ?_, ?_⟩
  · rw [List.length_append, hused]
    exact Nat.add_comm _ _
  · have hcopied := @memcpy_length (memcpy cells header.length body) 0 header (by omega)
    rw [List.length_append]
    dsimp only
    omega
  · -- the body stands where the header ends
    have htake : (cells.take header.length).length = header.length := by
      rw [List.length_take]
      omega
    have hdrop : (memcpy cells header.length body).drop header.length =
        body ++ cells.drop (header.length + body.length) := by
      rw [memcpy, List.append_assoc, List.drop_left' htake]
    have htotal : buffer.length + header.length = (header ++ body).length := by
      rw [List.length_append, hused]
      exact Nat.add_comm _ _
    dsimp only
    rw [memcpy, Nat.zero_add, hdrop, List.take_zero, List.nil_append, ← List.append_assoc, htotal,
      List.take_left]

end Growth

/-! ## Strings -/

theorem hex4_control : ∀ b : Fin 32,
    Json.hex4 0x30 0x30 (hexDigit (b.1 / 16)) (hexDigit (b.1 % 16)) = some b.1 := by
  decide

theorem readsByte_escape (character : Byte) : Json.ReadsByte (aiEscape character) character := by
  unfold aiEscape
  split
  next h => rcases h with rfl | rfl <;> exact Json.readsByte_unescape (by decide) rfl
  next hplain =>
    obtain ⟨hquote, hslash⟩ := not_or.mp hplain
    iterate 5
      split
      · next h => exact h ▸ Json.readsByte_unescape (by decide) rfl
    split
    next hcontrol =>
      exact Json.readsByte_hex4 (hex4_control ⟨character.toNat, hcontrol⟩)
        (Nat.lt_trans hcontrol (by decide))
    next hcontrol => exact Json.readsByte_plain ⟨hquote, hslash, hcontrol⟩

theorem readsString_escape (text : List Byte) : Json.ReadsString (escape text) text := by
  induction text with
  | nil => exact Json.readsString_nil
  | cons character text ih => exact (readsByte_escape character).cons ih

/-- **A string that is written is decoded**, up to its quote. -/
theorem aiDecodeJsonString_quoted {size : Nat} {text : List Byte} (hsize : text.length < size)
    (rest : List Byte) :
    aiDecodeJsonString size (Json.quoted (escape text) ++ rest) = (some text, rest) := by
  have hread := readsString_escape text rest
  have hquoted : Json.quoted (escape text) ++ rest = quote :: (escape text ++ quote :: rest) := by
    simp only [Json.quoted, List.cons_append, List.append_assoc, List.nil_append]
  rw [hquoted]
  exact aiDecodeJsonString_spec hread hsize

/-! ## The body is a JSON object -/

open Json (Field Item)

/-- A member that is a string. -/
def stringField (name text : List Byte) (plain : ∀ b ∈ name, Json.Plain b := by exact Ascii.forall_bytes rfl) :
    Field :=
  ⟨name, Json.quoted (escape text), .str text, plain, .str (readsString_escape text)⟩

theorem plain_model : ∀ b ∈ bytes "model", Json.Plain b := Ascii.forall_bytes rfl

theorem plain_role : ∀ b ∈ bytes "role", Json.Plain b := Ascii.forall_bytes rfl

theorem plain_content : ∀ b ∈ bytes "content", Json.Plain b := Ascii.forall_bytes rfl

theorem plain_messages : ∀ b ∈ bytes "messages", Json.Plain b := Ascii.forall_bytes rfl

def modelField (model : Option (List Byte)) : Field :=
  stringField (bytes "model") (model.getD AI_DEFAULT_MODEL) plain_model

def streamField : Field := ⟨bytes "stream", bytes "false", .bool false, Ascii.forall_bytes rfl, .false⟩

/-- A message of a conversation. -/
def messageItem (role text : List Byte) : Item :=
  let fields := [stringField (bytes "role") role plain_role,
    stringField (bytes "content") text plain_content]
  ⟨_, _, Json.Reads.obj fields⟩

def messagesField (prompt : List Byte) : Field :=
  let items := [messageItem (bytes "system") AI_SYSTEM_PROMPT, messageItem (bytes "user") prompt]
  ⟨bytes "messages", _, _, plain_messages, Json.Reads.arr items⟩

def effortFields (c : Config) : List Field :=
  if c.reasoningEffort ≠ [] then
    [stringField (bytes "reasoning_effort") c.reasoningEffort]
  else []

/-- The members in front of the number. -/
def bodyFields (c : Config) (prompt : List Byte) (model : Option (List Byte)) : List Field :=
  if aiIsChatEndpoint c then
    modelField model :: (effortFields c ++ [messagesField prompt, streamField])
  else
    [modelField model, stringField (bytes "system") AI_SYSTEM_PROMPT,
      stringField (bytes "prompt") prompt, streamField]

def numberName (c : Config) : List Byte :=
  if aiIsChatEndpoint c then bytes "max_tokens" else bytes "num_predict"

/-- The body. -/
def bodyText (c : Config) (prompt : List Byte) (model : Option (List Byte)) (numPredict : Int) :
    List Byte :=
  Json.objNumText (bodyFields c prompt model) (numberName c) (numPredictValue numPredict)

theorem numPredictValue_pos (numPredict : Int) : 0 < numPredictValue numPredict := by
  unfold numPredictValue
  split
  · omega
  · decide

theorem numberName_plain (c : Config) : ∀ b ∈ numberName c, Json.Plain b := by
  unfold numberName
  split <;> exact Ascii.forall_bytes rfl

/-- The member of the body that is the prompt. -/
def promptMember (c : Config) (body : Json.Value) : Option Json.Value :=
  if aiIsChatEndpoint c then
    (body.get (bytes "messages")).bind fun messages =>
      messages.items[1]?.bind fun message => message.get (bytes "content")
  else body.get (bytes "prompt")

theorem decode_bodyText (c : Config) (prompt : List Byte) (model : Option (List Byte))
    (numPredict : Int) :
    ∃ v, Json.decode (bodyText c prompt model numPredict) = some v ∧
      promptMember c v = some (.str prompt) := by
  refine ⟨_, Json.decode_objNum _ (numberName_plain c) (numPredictValue_pos numPredict), ?_⟩
  unfold promptMember bodyFields effortFields
  split
  · split <;> rfl
  · rfl

section Body

variable (junk : Nat → Byte)

theorem writes_effort (c : Config) :
    Writes (aiAppendEffort junk c)
      ((effortFields c).flatMap fun f => Json.comma :: Json.memberText f.name f.text) := by
  unfold aiAppendEffort effortFields
  split
  · have hname : bytes ",\"reasoning_effort\":" =
        Json.comma :: (Json.quoted (bytes "reasoning_effort") ++ [Json.colon]) := by
      decide
    have hwrites := (writes_append junk (bytes ",\"reasoning_effort\":")).seq
      (writes_string junk c.reasoningEffort)
    rw [hname] at hwrites ⊢
    simpa [stringField, Json.memberText] using hwrites
  · exact writes_some

/-- **The body is written**, up to its number. -/
theorem writes_body (c : Config) (prompt : List Byte) (model : Option (List Byte))
    (numPredict : Int) :
    ∃ start, Writes (aiBody junk c prompt model) start ∧
      start ++ (decimal (numPredictValue numPredict) ++ [rbrace]) =
        bodyText c prompt model numPredict := by
  have hmodel : bytes "\x7b\"model\":" =
      lbrace :: (Json.quoted (bytes "model") ++ [Json.colon]) := by decide
  unfold aiBody bodyText bodyFields numberName
  split
  · have hmessages : bytes ",\"messages\":[\x7b\"role\":\"system\",\"content\":" =
        Json.comma :: (Json.quoted (bytes "messages") ++ Json.colon :: Json.lbracket :: lbrace ::
          (Json.memberText (bytes "role") (Json.quoted (escape (bytes "system"))) ++
            Json.comma :: (Json.quoted (bytes "content") ++ [Json.colon]))) := by decide
    have huser : bytes "\x7d,\x7b\"role\":\"user\",\"content\":" =
        rbrace :: Json.comma :: lbrace ::
          (Json.memberText (bytes "role") (Json.quoted (escape (bytes "user"))) ++
            Json.comma :: (Json.quoted (bytes "content") ++ [Json.colon])) := by decide
    have hstream : bytes "\x7d],\"stream\":false,\"max_tokens\":" =
        rbrace :: Json.rbracket :: Json.comma ::
          (Json.memberText (bytes "stream") (bytes "false") ++
            Json.comma :: (Json.quoted (bytes "max_tokens") ++ [Json.colon])) := by decide
    refine ⟨_, (writes_append junk _).seq ((writes_string junk _).seq ((writes_effort junk c).seq
      ((writes_append junk _).seq ((writes_string junk _).seq ((writes_append junk _).seq
        ((writes_string junk _).seq (writes_append junk _))))))), ?_⟩
    rw [hmodel, hmessages, huser, hstream]
    simp only [Json.objNumText, Json.membersText_append, Json.membersText_cons, List.cons_append,
      List.append_assoc, List.nil_append, Json.commas_before]
    simp only [Json.membersText, Json.memberText, modelField, streamField, messagesField,
      messageItem, stringField, Json.arrText, Json.objText, Json.joined, List.map_cons,
      List.map_nil, List.flatMap_nil, List.append_assoc, List.cons_append, List.nil_append]
  · have hsystem : bytes ",\"system\":" =
        Json.comma :: (Json.quoted (bytes "system") ++ [Json.colon]) := by decide
    have hprompt : bytes ",\"prompt\":" =
        Json.comma :: (Json.quoted (bytes "prompt") ++ [Json.colon]) := by decide
    have hstream : bytes ",\"stream\":false,\"num_predict\":" =
        Json.comma :: (Json.memberText (bytes "stream") (bytes "false") ++
          Json.comma :: (Json.quoted (bytes "num_predict") ++ [Json.colon])) := by decide
    refine ⟨_, (writes_append junk _).seq ((writes_string junk _).seq ((writes_append junk _).seq
      ((writes_string junk _).seq ((writes_append junk _).seq ((writes_string junk _).seq
        (writes_append junk _)))))), ?_⟩
    rw [hmodel, hsystem, hprompt, hstream]
    simp only [Json.objNumText, Json.membersText, Json.memberText, modelField, streamField,
      stringField, List.flatMap_cons, List.flatMap_nil, List.append_assoc, List.cons_append,
      List.nil_append]

end Body

/-! ## The header -/

/-- The lines of the header. -/
def headerLines (c : Config) (length : Nat) : List (List Byte) :=
  [bytes "POST " ++ c.path ++ bytes " HTTP/1.0",
      bytes "Host: " ++ c.host ++ bytes ":" ++ portText c.port,
      bytes "Content-Type: application/json", bytes "Content-Length: " ++ decimal length] ++
    (if c.apiKey ≠ [] then [bytes "Authorization: Bearer " ++ c.apiKey] else []) ++
    [bytes "Connection: close"]

theorem headerText_lines (c : Config) (length : Nat) :
    headerText c length = (headerLines c length).flatMap (· ++ crlf) ++ crlf := by
  unfold headerText headerLines
  split <;> simp

/-- A header with one length in it: lines, and the empty line that ends them. -/
def IsHeader (header : List Byte) (length : Nat) : Prop :=
  ∃ lines : List (List Byte), header = lines.flatMap (· ++ crlf) ++ crlf ∧
    (∀ line ∈ lines, line ≠ [] ∧ ∀ b ∈ line, b ∉ crlf) ∧
    bytes "Content-Length: " ++ decimal length ∈ lines ∧
    ∀ line ∈ lines, bytes "Content-Length:" <+: line →
      line = bytes "Content-Length: " ++ decimal length

/-- What every configuration satisfies. -/
structure Configured (c : Config) : Prop where
  host : aiValidHost c.host = true
  path : aiValidHeaderValue c.path = true
  key : aiValidHeaderValue c.apiKey = true
  port : 0 < c.port ∧ c.port ≤ 65535

/-- No byte ends a line. -/
def Clean (text : List Byte) : Prop := ∀ b ∈ text, b ∉ crlf

instance (text : List Byte) : Decidable (Clean text) := inferInstanceAs (Decidable (∀ b ∈ text, _))

theorem Clean.append {s t : List Byte} (hs : Clean s) (ht : Clean t) : Clean (s ++ t) := by
  intro b hb
  rcases List.mem_append.mp hb with hb | hb
  · exact hs b hb
  · exact ht b hb

theorem mem_crlf {b : Byte} (h : b ∈ crlf) : b = 0x0D ∨ b = 0x0A := by
  simpa [crlf] using h

theorem clean_decimal (n : Nat) : Clean (decimal n) := by
  intro b hb hline
  have hdigit := Ascii.isDigit_of_mem_decimal hb
  rcases mem_crlf hline with rfl | rfl <;> cases hdigit

theorem clean_header {value : List Byte} (h : aiValidHeaderValue value = true) : Clean value := by
  intro b hb hline
  have hvalid := List.all_eq_true.mp h b hb
  rcases mem_crlf hline with rfl | rfl <;> cases hvalid

theorem clean_host {host : List Byte} (h : aiValidHost host = true) : Clean host := by
  intro b hb hline
  have hvalid := List.all_eq_true.mp h b hb
  rcases mem_crlf hline with rfl | rfl <;> cases hvalid

theorem portText_eq {port : Int} (h : 0 < port) : portText port = decimal port.natAbs := by
  rw [portText, if_neg (by omega)]

/-- A line that starts with another letter. -/
theorem not_length_line {b : Byte} {line : List Byte} (hb : b ≠ 0x43) :
    ¬ bytes "Content-Length:" <+: b :: line := by
  intro hprefix
  have hbytes : bytes "Content-Length:" = 0x43 :: (bytes "Content-Length:").tail := by
    decide
  rw [hbytes, List.cons_prefix_cons] at hprefix
  exact hb hprefix.1.symm

theorem mem_headerLines {c : Config} {length : Nat} {line : List Byte}
    (h : line ∈ headerLines c length) :
    line = bytes "POST " ++ c.path ++ bytes " HTTP/1.0" ∨
      line = bytes "Host: " ++ c.host ++ bytes ":" ++ portText c.port ∨
      line = bytes "Content-Type: application/json" ∨
      line = bytes "Content-Length: " ++ decimal length ∨
      line = bytes "Authorization: Bearer " ++ c.apiKey ∨ line = bytes "Connection: close" := by
  unfold headerLines at h
  split at h <;>
    simp only [List.mem_append, List.mem_cons, List.not_mem_nil, or_false] at h <;>
    tauto

theorem headerText_isHeader {c : Config} (hc : Configured c) (length : Nat) :
    IsHeader (headerText c length) length := by
  have hpost : bytes "POST " = 0x50 :: bytes "OST " := by decide
  have hhost : bytes "Host: " = 0x48 :: bytes "ost: " := by decide
  have htype : bytes "Content-Type: application/json" =
      0x43 :: bytes "ontent-Type: application/json" := by decide
  have hlength : bytes "Content-Length: " = 0x43 :: bytes "ontent-Length: " := by decide
  have hkey : bytes "Authorization: Bearer " = 0x41 :: bytes "uthorization: Bearer " := by
    decide
  have hport := clean_decimal c.port.natAbs
  rw [← portText_eq hc.port.1] at hport
  refine ⟨headerLines c length, headerText_lines c length, ?_, ?_, ?_⟩
  · intro line hline
    constructor
    · rcases mem_headerLines hline with rfl | rfl | rfl | rfl | rfl | rfl
      · rw [hpost]
        exact nofun
      · rw [hhost]
        exact nofun
      · rw [htype]
        exact nofun
      · rw [hlength]
        exact nofun
      · rw [hkey]
        exact nofun
      · decide
    · change Clean line
      rcases mem_headerLines hline with rfl | rfl | rfl | rfl | rfl | rfl
      · exact (Clean.append (Ascii.forall_bytes rfl) (clean_header hc.path)).append (Ascii.forall_bytes rfl)
      · exact ((Clean.append (Ascii.forall_bytes rfl) (clean_host hc.host)).append
          (Ascii.forall_bytes rfl)).append hport
      · exact Ascii.forall_bytes rfl
      · exact Clean.append (Ascii.forall_bytes rfl) (clean_decimal length)
      · exact Clean.append (Ascii.forall_bytes rfl) (clean_header hc.key)
      · exact Ascii.forall_bytes rfl
  · simp [headerLines]
  · intro line hline hprefix
    rcases mem_headerLines hline with rfl | rfl | rfl | heq | rfl | rfl
    · rw [hpost] at hprefix
      exact absurd hprefix (not_length_line (by decide))
    · rw [hhost] at hprefix
      exact absurd hprefix (not_length_line (by decide))
    · exact absurd hprefix (by decide)
    · exact heq
    · rw [hkey] at hprefix
      exact absurd hprefix (not_length_line (by decide))
    · exact absurd hprefix (by decide)

theorem headerText_length {c : Config} (hc : Configured c) {length : Nat}
    (h : length < AI_MAX_REQUEST_SIZE) : (headerText c length).length < 1024 := by
  have hpath := c.pathFits
  have hhost := c.hostFits
  have hkey := c.keyFits
  have hport : (portText c.port).length ≤ 5 := by
    rw [portText_eq hc.port.1]
    obtain ⟨hpositive, hlimit⟩ := hc.port
    exact Ascii.decimal_length_le (by decide) (by omega)
  have hlength : (decimal length).length ≤ 7 :=
    Ascii.decimal_length_le (by decide) (h.trans (by decide))
  have hwords : (bytes "POST ").length = 5 ∧ (bytes " HTTP/1.0").length = 9 ∧
      (bytes "Host: ").length = 6 ∧ (bytes ":").length = 1 ∧
      (bytes "Content-Type: application/json").length = 30 ∧
      (bytes "Content-Length: ").length = 16 ∧ (bytes "Authorization: Bearer ").length = 22 ∧
      (bytes "Connection: close").length = 17 ∧ crlf.length = 2 := by decide
  unfold AI_PATH_SIZE at hpath
  unfold AI_HOST_SIZE at hhost
  unfold AI_API_KEY_SIZE at hkey
  unfold headerText
  split <;> simp only [List.length_append, List.length_nil, hwords] <;> omega

/-! ## Configurations -/

theorem startHost_fits : (bytes "127.0.0.1").length < AI_HOST_SIZE := by decide

theorem startPath_fits : (bytes "/api/generate").length < AI_PATH_SIZE := by decide

theorem noKey_fits : ([] : List Byte).length < AI_API_KEY_SIZE := by decide

theorem noEffort_fits : ([] : List Byte).length < AI_REASONING_EFFORT_SIZE := by decide

/-- The configuration of a new editor. -/
def startConfig : Config where
  host := bytes "127.0.0.1"
  port := 11434
  path := bytes "/api/generate"
  apiKey := []
  reasoningEffort := []
  hostFits := startHost_fits
  pathFits := startPath_fits
  keyFits := noKey_fits
  effortFits := noEffort_fits

/-- The efforts that there are. -/
def efforts : List (List Byte) := [bytes "minimal", bytes "low", bytes "medium", bytes "high"]

/-- `ai_set_reasoning_effort`. -/
def aiSetReasoningEffort (s : State) (effort : Option (List Byte)) : State :=
  let s := { s with error := [] }
  let effort := effort.getD []
  if effort = [] then
    { s with config := { s.config with reasoningEffort := [], effortFits := noEffort_fits } }
  else if h : effort ∉ efforts then aiSetError s "Invalid AI reasoning effort"
  else
    { s with config := { s.config with
      reasoningEffort := effort
      effortFits := by
        have hall : ∀ e ∈ efforts, e.length < AI_REASONING_EFFORT_SIZE := by decide
        exact hall effort (not_not.mp h) } }

/-- The commands that configure the client. -/
inductive Setting
  | configure (endpoint apiKey : Option (List Byte))
  | reasoningEffort (effort : Option (List Byte))

def applySetting (s : State) : Setting → State
  | .configure endpoint apiKey => (aiConfigure s endpoint apiKey).2
  | .reasoningEffort effort => aiSetReasoningEffort s effort

/-- The configuration after some commands. -/
def configOf (settings : List Setting) : Config :=
  (settings.foldl applySetting ⟨[], startConfig⟩).config

theorem startConfig_configured : Configured startConfig where
  host := by decide
  path := by decide
  key := by decide
  port := by decide

theorem Configured.of_holds {c : Config} {host path apiKey effort : List Byte} {port : Int}
    (h : c.Holds host port path apiKey effort) (hhost : aiValidHost host = true)
    (hpath : aiValidHeaderValue path = true) (hkey : aiValidHeaderValue apiKey = true)
    (hport : 0 < port ∧ port ≤ 65535) : Configured c := by
  obtain ⟨rfl, rfl, rfl, rfl, -⟩ := h
  exact ⟨hhost, hpath, hkey, hport⟩

/-- Whatever the command stores, it has looked at. -/
theorem aiConfigure_configured {s : State} (h : Configured s.config)
    (endpoint apiKey : Option (List Byte)) :
    Configured (aiConfigure s endpoint apiKey).2.config := by
  cases hparts : endpointParts endpoint with
  | error text =>
      rw [(aiConfigure_early hparts).2]
      exact h
  | ok parts =>
      obtain ⟨host, port, path⟩ := parts
      obtain ⟨text, -, hendpoint⟩ := endpointParts_ok hparts
      have hport := hendpoint.port
      by_cases hhost : HostOk host
      · by_cases hpath : PathOk path
        · by_cases hkey : KeyOk (apiKey.getD [])
          · obtain ⟨-, hstored⟩ := @aiConfigure_ok s _ _ _ _ _ hparts hhost hpath hkey
            exact .of_holds hstored hhost.2.2 hpath.2.2 hkey.2 hport
          · obtain ⟨-, hstored⟩ := @aiConfigure_key s _ _ _ _ _ hparts hhost hpath hkey
            exact .of_holds hstored hhost.2.2 hpath.2.2 h.key hport
        · exact .of_holds (aiConfigure_path hparts hhost hpath).2 hhost.2.2 h.path h.key hport
      · exact .of_holds (aiConfigure_host hparts hhost).2 h.host h.path h.key hport

theorem aiSetReasoningEffort_configured {s : State} (h : Configured s.config)
    (effort : Option (List Byte)) : Configured (aiSetReasoningEffort s effort).config := by
  obtain ⟨hhost, hpath, hkey, hport⟩ := h
  unfold aiSetReasoningEffort
  dsimp only
  split
  · exact ⟨hhost, hpath, hkey, hport⟩
  · split <;> exact ⟨hhost, hpath, hkey, hport⟩

theorem applySetting_configured {s : State} (h : Configured s.config) (setting : Setting) :
    Configured (applySetting s setting).config := by
  cases setting with
  | configure endpoint apiKey => exact aiConfigure_configured h endpoint apiKey
  | reasoningEffort effort => exact aiSetReasoningEffort_configured h effort

theorem configOf_configured (settings : List Setting) : Configured (configOf settings) := by
  have hall : ∀ s : State, Configured s.config →
      Configured (settings.foldl applySetting s).config := by
    induction settings with
    | nil => exact fun s h => h
    | cons setting settings ih => exact fun s h => ih _ (applySetting_configured h setting)
  exact hall _ startConfig_configured

/-! ## What is written is read back -/

theorem aiBuildRequest_spec (junk : Nat → Byte) {c : Config} (hc : Configured c)
    (prompt : List Byte) (model : Option (List Byte)) {numPredict : Int}
    (hint : numPredict ≤ 2 ^ 31 - 1)
    (hfits : (headerText c (bodyText c prompt model numPredict).length ++
      bodyText c prompt model numPredict).length < AI_MAX_REQUEST_SIZE) :
    aiBuildRequest junk c prompt model numPredict =
      some (headerText c (bodyText c prompt model numPredict).length ++
        bodyText c prompt model numPredict) := by
  obtain ⟨start, hwrites, hbody⟩ := writes_body junk c prompt model numPredict
  have hvalue : numPredictValue numPredict < 10 ^ 10 := by
    unfold numPredictValue AI_DEFAULT_NUM_PREDICT
    split <;> omega
  have htail : (decimal (numPredictValue numPredict) ++ [rbrace]).length ≤ 11 := by
    rw [List.length_append, List.length_singleton]
    exact Nat.succ_le_succ (Ascii.decimal_length_le (by decide) hvalue)
  generalize bodyText c prompt model numPredict = body at hbody hfits ⊢
  have hlimit : AI_MAX_REQUEST_SIZE ≤ SIZE_MAX / 2 := by decide
  rw [List.length_append] at hfits
  have hheader := headerText_length hc (show body.length < AI_MAX_REQUEST_SIZE by omega)
  have hempty : Holds ⟨realloc junk [] 1024, 0⟩ [] := by
    refine ⟨rfl, ?_, List.take_zero⟩
    rw [realloc_length junk (Nat.zero_le _)]
    decide
  have hlength := congrArg List.length hbody
  rw [List.length_append] at hlength
  obtain ⟨buffer, hstart, hholds⟩ := hwrites _ _ hempty (by rw [List.nil_append]; omega)
  obtain ⟨buffer', hnumber, hholds'⟩ := writes_append junk _ _ _ hholds
    (by rw [List.nil_append, hbody]; omega)
  rw [List.nil_append, hbody] at hholds'
  obtain ⟨buffer'', hput, hholds''⟩ := @aiPutHeader_spec junk (headerText c body.length) body
    buffer' hholds' (by omega)
  have hused := hholds''.used
  rw [List.length_append] at hused
  rw [aiBuildRequest, hstart]
  dsimp only [Option.bind_eq_bind, Option.bind_some]
  rw [if_neg (by omega), hnumber]
  dsimp only [Option.bind_some]
  rw [hholds'.used, if_neg (by omega), if_neg (by omega), hput]
  dsimp only [Option.bind_some]
  rw [if_neg (by omega), hholds''.text]

/-- **A string that is written is decoded** to the same bytes, and the cursor stands behind its
quote.  **A request that fits** is a header with the length of its body and a body that is a JSON
object; its prompt is the one that was asked for, whatever the client has been configured to and
wherever the buffer had to grow. -/
theorem request_round_trip (junk : Nat → Byte) (settings : List Setting) (text rest : List Byte)
    {size : Nat} (hsize : text.length < size) (prompt : List Byte) (model : Option (List Byte))
    {numPredict : Int} (hint : numPredict ≤ 2 ^ 31 - 1)
    (hfits : (headerText (configOf settings)
        (bodyText (configOf settings) prompt model numPredict).length ++
      bodyText (configOf settings) prompt model numPredict).length < AI_MAX_REQUEST_SIZE) :
    (∃ written, Writes (aiAppendJsonString junk text) written ∧
        aiDecodeJsonString size (written ++ rest) = (some text, rest)) ∧
      ∃ header body, aiBuildRequest junk (configOf settings) prompt model numPredict =
          some (header ++ body) ∧ IsHeader header body.length ∧
        ∃ v, Json.decode body = some v ∧
          promptMember (configOf settings) v = some (.str prompt) :=
  have hc := configOf_configured settings
  ⟨⟨_, writes_string junk text, aiDecodeJsonString_quoted hsize rest⟩,
    _, _, aiBuildRequest_spec junk hc prompt model hint hfits, headerText_isHeader hc _,
    decode_bodyText _ prompt model numPredict⟩

/-- A chat with a quote in its prompt. -/
theorem request_round_trip_chat :
    ∃ header body, aiBuildRequest (fun _ => 0)
        (configOf [.configure (some (bytes "http://localhost:8080/v1/chat/completions")) none])
        (bytes "say \"hi\"") none 0 = some (header ++ body) ∧ IsHeader header body.length := by
  obtain ⟨-, header, body, hbuild, hheader, -⟩ := request_round_trip (fun _ => 0)
    [.configure (some (bytes "http://localhost:8080/v1/chat/completions")) none] (bytes "a\"b") []
    (show (bytes "a\"b").length < 8 by decide) (bytes "say \"hi\"") none
    (show (0 : Int) ≤ 2 ^ 31 - 1 by decide) (by decide +kernel)
  exact ⟨header, body, hbuild, hheader⟩

end Ai
