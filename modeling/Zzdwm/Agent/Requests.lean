import Zzdwm.Agent.Encoding
import Zzdwm.Lib.Exchange

/-!
# What a request says

A request is the text of one JSON object, and its messages are the texts of the history.
Read back, each message is an entry of a transcript: a text, the calls of the assistant
or the result of a call.

* `entryOf`, `Message.entry` — the entry that a message is;
* `buildRequest_decodes` — a request is read back as the messages of the history.
-/

namespace Agent

open Ascii Json

/-- An entry of the conversation: ids are the strings that stand for them, and a text is
a role with its content. -/
abbrev Entry : Type := Exchange.Entry (Option (List Byte)) (Option (List Byte) × Option (List Byte))

abbrev Block : Type := Exchange.Block (Option (List Byte)) (Option (List Byte) × Option (List Byte))

def strOf : Option Value → Option (List Byte)
  | some (.str s) => some s
  | _ => none

def entryOf (message : Value) : Entry :=
  let role := strOf (message.get roleKey)
  if role = some (bytes "tool") then .result (strOf (message.get callIdKey))
  else if role = some (bytes "assistant") then
    .call ((toolCalls message).map fun item => strOf (callId item))
  else .text (role, strOf (message.get contentKey))

def requestMessages (request : Value) : List Value :=
  ((request.get (bytes "messages")).map Value.items).getD []

/-- A message that is read as a value. -/
def Message.Readable (m : Message) : Prop := ∃ v, Reads m.json v

/-- The entry that a message is. -/
def Message.entry (m : Message) : Entry :=
  match decode m.json with
  | some v => entryOf v
  | none => .text (none, none)

theorem Message.entry_of_reads {m : Message} {v : Value} (h : Reads m.json v) : m.entry = entryOf v := by
  rw [Message.entry, h.decode]

theorem readable_textOf {m : Message} {fields : List Field} (h : m.json = textOf fields) :
    m.Readable ∧ m.entry = entryOf (valueOf fields) := by
  have hreads : Reads m.json (valueOf fields) := h ▸ Reads.obj fields
  exact ⟨⟨_, hreads⟩, Message.entry_of_reads hreads⟩

/-! ## The entries of the messages that are stored -/

theorem entryOf_text {role content : List Byte} (htool : role ≠ bytes "tool")
    (hassistant : role ≠ bytes "assistant") :
    entryOf (valueOf (textFields role content)) = .text (some role, some content) := by
  have hrole : strOf ((valueOf (textFields role content)).get roleKey) = some role := rfl
  have hcontent : strOf ((valueOf (textFields role content)).get contentKey) = some content := rfl
  unfold entryOf
  rw [hrole, hcontent]
  simp [htool, hassistant]

theorem entryOf_tool (call : ToolCall) (content : List Byte) :
    entryOf (valueOf (toolFields call content)) = .result (some call.id.bytes) := by
  have hrole : strOf ((valueOf (toolFields call content)).get roleKey) = some (bytes "tool") := rfl
  unfold entryOf
  rw [hrole]
  rfl

theorem entryOf_assistant (content : Text maxLine) (calls : List ToolCall) :
    entryOf (valueOf (assistantFields content calls)) =
      .call (calls.map fun call => some call.id.bytes) := by
  have hrole : strOf ((valueOf (assistantFields content calls)).get roleKey) =
      some (bytes "assistant") := rfl
  unfold entryOf
  rw [hrole, toolCalls_assistant, List.map_map]
  rfl

/-! ## The text of a request -/

/-- A member of a name and a string, both as they are. -/
def bareField (name s : List Byte) (plain : ∀ b ∈ name, Plain b := by exact forall_bytes rfl)
    (plain' : ∀ b ∈ s, Plain b := by exact forall_bytes rfl) : Field where
  name := name
  text := quoted s
  val := .str s
  plain := plain
  reads := Reads.str (readsString_self plain')

theorem plain_commandKey : ∀ b ∈ commandKey, Plain b := forall_bytes rfl

theorem plain_typeKey : ∀ b ∈ typeKey, Plain b := forall_bytes rfl

theorem plain_nameKey : ∀ b ∈ nameKey, Plain b := forall_bytes rfl

theorem plain_functionKey : ∀ b ∈ functionKey, Plain b := forall_bytes rfl

theorem plain_description : ∀ b ∈ bytes "description", Plain b := forall_bytes rfl

theorem plain_required : ∀ b ∈ bytes "required", Plain b := forall_bytes rfl

theorem plain_parameters : ∀ b ∈ bytes "parameters", Plain b := forall_bytes rfl

theorem plain_properties : ∀ b ∈ bytes "properties", Plain b := forall_bytes rfl

theorem plain_tools : ∀ b ∈ bytes "tools", Plain b := forall_bytes rfl

theorem plain_string : ∀ b ∈ bytes "string", Plain b := forall_bytes rfl

theorem plain_object : ∀ b ∈ bytes "object", Plain b := forall_bytes rfl

theorem plain_terminal : ∀ b ∈ bytes "run_terminal_command", Plain b := forall_bytes rfl

theorem plain_aboutCommand :
    ∀ b ∈ bytes "The complete shell command to execute.", Plain b := forall_bytes rfl

theorem plain_aboutTool :
    ∀ b ∈ bytes "Execute one shell command on the user's host and return bounded live output.",
      Plain b := forall_bytes rfl

theorem reads_commandKey : Reads (quoted commandKey) (.str commandKey) :=
  Reads.str (readsString_self plain_commandKey)

/-- The one tool, as it is described in each request. -/
def commandField : Field :=
  objField commandKey
    [bareField typeKey (bytes "string") plain_typeKey plain_string,
      bareField (bytes "description") (bytes "The complete shell command to execute.")
        plain_description plain_aboutCommand] plain_commandKey

def parametersField : Field :=
  objField (bytes "parameters")
    [bareField typeKey (bytes "object") plain_typeKey plain_object,
      objField (bytes "properties") [commandField] plain_properties,
      ⟨bytes "required", _, _, plain_required,
        Reads.arr [⟨quoted commandKey, .str commandKey, reads_commandKey⟩]⟩] plain_parameters

def toolField : Field :=
  objField functionKey
    [bareField nameKey (bytes "run_terminal_command") plain_nameKey plain_terminal,
      bareField (bytes "description")
        (bytes "Execute one shell command on the user's host and return bounded live output.")
        plain_description plain_aboutTool,
      parametersField] plain_functionKey

def toolsField : Field :=
  ⟨bytes "tools", _, _, plain_tools,
    Reads.arr [⟨_, _, Reads.obj [bareField typeKey functionKey plain_typeKey plain_functionKey,
      toolField]⟩]⟩

def choiceField : Field := bareField (bytes "tool_choice") (bytes "auto")

theorem toolsText_eq : toolsText = rbracket :: comma :: (memberText toolsField.name toolsField.text ++
    comma :: (memberText choiceField.name choiceField.text ++ [rbrace])) := by
  decide +kernel

def requestFields (model : Text maxModel) (messages : List Item) : List Field :=
  [strField (bytes "model") model.bytes,
    ⟨bytes "messages", _, _, forall_bytes rfl, Reads.arr messages⟩, toolsField, choiceField]

theorem writes_laterMessages (messages : List Message) (first : List Byte) :
    ∃ later, Writes (laterMessages messages) later ∧
      first ++ later = joined (first :: messages.map Message.json) := by
  induction messages generalizing first with
  | nil => exact ⟨[], writes_some, by simp [joined]⟩
  | cons m messages ih =>
      obtain ⟨later, hw, heq⟩ := ih m.json
      refine ⟨_, (writes_append _).seq ((writes_append _).seq hw), ?_⟩
      rw [heq]
      rfl

theorem writes_messagesText (messages : List Message) :
    Writes (messagesText messages) (joined (messages.map Message.json)) := by
  cases messages with
  | nil => exact writes_some
  | cons m messages =>
      obtain ⟨later, hw, heq⟩ := writes_laterMessages messages m.json
      exact ((writes_append _).seq hw).congr heq

theorem request_text (model : Text maxModel) (messages : List Item) :
    bytes "\x7b\"model\":" ++ (quoted (escape model.bytes) ++ (bytes ",\"messages\":[" ++
      (joined (messages.map Item.text) ++ toolsText))) = textOf (requestFields model messages) := by
  rw [toolsText_eq]
  simp [textOf, requestFields, strField, objText, arrText, joined, memberText, quoted, bytes_eq, String.utf8EncodeChar, quote,
    colon, comma, lbrace, lbracket]

/-- The messages, each with what it is read as. -/
theorem exists_items {messages : List Message} (h : ∀ m ∈ messages, m.Readable) :
    ∃ items : List Item, items.map Item.text = messages.map Message.json ∧
      items.map (fun i => entryOf i.val) = messages.map Message.entry := by
  induction messages with
  | nil => exact ⟨[], rfl, rfl⟩
  | cons m messages ih =>
      obtain ⟨hm, hmessages⟩ := List.forall_mem_cons.mp h
      obtain ⟨v, hv⟩ := hm
      obtain ⟨items, htext, hentry⟩ := ih hmessages
      refine ⟨⟨m.json, v, hv⟩ :: items, congrArg (m.json :: ·) htext, ?_⟩
      rw [List.map_cons, List.map_cons, hentry, Message.entry_of_reads hv]

/-- **A request is read back as the messages of the history.** -/
theorem buildRequest_decodes {model : Text maxModel} {c : Conversation} {request : Buffer maxRequest}
    (hread : ∀ m ∈ c.messages, m.Readable) (h : buildRequest model c = some request) :
    ∃ v, decode request.data = some v ∧
      (requestMessages v).map entryOf = c.messages.map Message.entry := by
  obtain ⟨items, htext, hentry⟩ := exists_items hread
  have hwrites := (writes_append (n := maxRequest) (bytes "\x7b\"model\":")).seq
    ((writes_field model).seq ((writes_append (bytes ",\"messages\":[")).seq
      ((writes_messagesText c.messages).seq (writes_append toolsText))))
  have hdata : request.data = textOf (requestFields model items) := by
    rw [← request_text, htext]
    exact hwrites.data h
  refine ⟨_, hdata ▸ decode_textOf _, ?_⟩
  have hmessages : requestMessages (valueOf (requestFields model items)) = items.map Item.val := rfl
  rw [hmessages, List.map_map, ← hentry]
  rfl

end Agent
