import Zzdwm.Lib.Json

/-!
# The history of a conversation (src/tools/ai/agent/ai.c)

The agent keeps its conversation as the texts of JSON messages, which it writes
itself, a byte at a time, into arrays of a fixed size.

* `bufferAppend`, `appendJsonText` — the writers; each may find no room;
* `dropOldestMessage`, `addMessage` — the array of messages;
* `addTextMessage`, `appendToolResult`, `appendToolOutput`, `addAssistantResponse` —
  the four routines that add a message;
* `buildRequest` — the text of a request.
-/

namespace Agent

open Ascii (Byte bytes)
open Json (quote backslash)

def maxLine : Nat := 8192
def maxCommand : Nat := 8192
def maxId : Nat := 256
def maxName : Nat := 128
def maxModel : Nat := 128
def maxToolCalls : Nat := 8
def maxMessages : Nat := 24
def messageSize : Nat := 12288
def maxRequest : Nat := 512 * 1024
def captureSize : Nat := 16384
def modelOutputSize : Nat := 3072

/-- A C string in an array of `n` bytes: there is room for the byte that ends it. -/
structure Text (n : Nat) where
  bytes : List Byte
  fits : bytes.length < n
  noNul : (0 : Byte) ∉ bytes
deriving DecidableEq

theorem nul_not_mem_nil : (0 : Byte) ∉ ([] : List Byte) := List.not_mem_nil

/-- What the string functions see of a run of bytes. -/
def cString (s : List Byte) : List Byte := s.takeWhile (· ≠ 0)

theorem cString_self {s : List Byte} : cString s = s ↔ (0 : Byte) ∉ s := by
  unfold cString
  rw [List.takeWhile_eq_self_iff]
  constructor
  · intro h hz
    simpa using h 0 hz
  · intro h b hb
    have hne : b ≠ 0 := fun heq => h (heq ▸ hb)
    simpa using hne

theorem cString_eq_nil {s : List Byte} : cString s = [] ↔ s = [] ∨ s.head? = some 0 := by
  cases s with
  | nil => simp [cString]
  | cons b s => simp [cString, List.takeWhile_cons]

/-- A call is valid only with a command. -/
structure ToolCall where
  id : Text maxId
  name : Text maxName
  command : Text maxCommand
  supported : Bool
  valid : Bool
  named : valid = true → command.bytes ≠ []
deriving DecidableEq

/-! ## Buffers -/

structure Buffer (capacity : Nat) where
  data : List Byte
  fits : data.length ≤ capacity
deriving DecidableEq

variable {n : Nat}

/-- A buffer with nothing in it. -/
def Buffer.empty : Buffer n := ⟨[], Nat.zero_le n⟩

def bufferAppend (data : List Byte) (buffer : Buffer n) : Option (Buffer n) :=
  if h : data.length ≤ n - buffer.data.length then
    some ⟨buffer.data ++ data, by
      have := buffer.fits
      rw [List.length_append]
      omega⟩
  else none

def bufferAppendString (data : String) : Buffer n → Option (Buffer n) := bufferAppend (bytes data)

/-- A hexadecimal digit, as `%x` prints it. -/
def hexDigit (d : Byte) : Byte := if d < 10 then 0x30 + d else 0x61 + (d - 10)

/-- How one byte stands in a JSON string. -/
def escaped (byte : Byte) : List Byte :=
  if byte = quote ∨ byte = backslash then [backslash, byte]
  else if byte = 0x08 then [backslash, 0x62]
  else if byte = 0x0C then [backslash, 0x66]
  else if byte = 0x0A then [backslash, 0x6E]
  else if byte = 0x0D then [backslash, 0x72]
  else if byte = 0x09 then [backslash, 0x74]
  else if byte < 0x20 then
    [backslash, 0x75, 0x30, 0x30, hexDigit (byte / 16), hexDigit (byte % 16)]
  else [byte]

def appendJsonStringBody : List Byte → Buffer n → Option (Buffer n)
  | [], buffer => some buffer
  | byte :: data, buffer => (bufferAppend (escaped byte) >=> appendJsonStringBody data) buffer

def appendJsonString (data : List Byte) : Buffer n → Option (Buffer n) :=
  bufferAppendString "\"" >=> appendJsonStringBody data >=> bufferAppendString "\""

def appendJsonText (data : List Byte) : Buffer n → Option (Buffer n) :=
  appendJsonString (cString data)

/-! ## The array of messages -/

structure Message where
  json : List Byte
  system : Bool
  fits : json.length ≤ messageSize
deriving DecidableEq

structure Conversation where
  messages : List Message
  few : messages.length ≤ maxMessages
deriving DecidableEq

/-- The message at index 0 is never dropped, and no system message is. -/
def dropOldest : List Message → List Message
  | [] => []
  | first :: later => first :: later.eraseP fun m => !m.system

theorem dropOldest_sublist (messages : List Message) : (dropOldest messages).Sublist messages := by
  cases messages with
  | nil => exact List.Sublist.refl _
  | cons first later => exact List.eraseP_sublist.cons_cons first

def dropOldestMessage (c : Conversation) : Conversation :=
  ⟨dropOldest c.messages, Nat.le_trans (dropOldest_sublist c.messages).length_le c.few⟩

/-- The last of the messages, behind those there are. -/
def Conversation.store (c : Conversation) (m : Message) (h : c.messages.length < maxMessages) :
    Conversation :=
  ⟨c.messages ++ [m], by
    rw [List.length_append]
    exact h⟩

/-- A message is never longer than `MESSAGE_SIZE`, so only the number of messages
counts.  One drop makes room for one message, or none does. -/
def addMessage (c : Conversation) (json : Buffer messageSize) (system : Bool) :
    Option Conversation :=
  let m : Message := ⟨json.data, system, json.fits⟩
  if h : c.messages.length < maxMessages then some (c.store m h)
  else
    let dropped := dropOldestMessage c
    if h : dropped.messages.length < maxMessages then some (dropped.store m h)
    else none

def addTextMessage (role content : List Byte) (system : Bool) (c : Conversation) :
    Option Conversation := do
  let buffer ←
    (bufferAppendString "\x7b\"role\":" >=> appendJsonText role >=>
      bufferAppendString ",\"content\":" >=> appendJsonText content >=>
      bufferAppendString "\x7d") Buffer.empty
  addMessage c buffer system

/-- The text of a tool message, around its content. -/
def toolMessage (call : ToolCall) (content : Buffer messageSize → Option (Buffer messageSize)) :
    Buffer messageSize → Option (Buffer messageSize) :=
  bufferAppendString "\x7b\"role\":\"tool\",\"tool_call_id\":" >=> appendJsonText call.id.bytes >=>
    bufferAppendString ",\"name\":" >=> appendJsonText call.name.bytes >=>
    bufferAppendString ",\"content\":" >=> content >=> bufferAppendString "\x7d"

def appendToolResult (call : ToolCall) (content : List Byte) (c : Conversation) :
    Option Conversation := do
  let buffer ← toolMessage call (appendJsonText content) Buffer.empty
  addMessage c buffer false

/-- Here the content may hold zero bytes: its length is known. -/
def appendToolOutput (call : ToolCall) (lead output : List Byte) (c : Conversation) :
    Option Conversation := do
  let size := modelOutputSize + maxLine
  if size ≤ lead.length ∨ size - lead.length - 1 < output.length then none
  else
    let buffer ← toolMessage call (appendJsonString (lead ++ output)) Buffer.empty
    addMessage c buffer false

/-- One call in the text of an assistant message. -/
def callText (call : ToolCall) : Buffer messageSize → Option (Buffer messageSize) :=
  bufferAppendString "\x7b\"type\":\"function\",\"id\":" >=> appendJsonText call.id.bytes >=>
    bufferAppendString ",\"function\":\x7b\"name\":" >=> appendJsonText call.name.bytes >=>
    bufferAppendString ",\"arguments\":" >=> bufferAppendString "\"\x7b" >=>
    bufferAppendString "\\\"command\\\":" >=> bufferAppendString "\\\"" >=>
    appendJsonStringBody call.command.bytes >=>
    bufferAppendString "\\\"\x7d" >=> bufferAppendString "\"" >=> bufferAppendString "\x7d\x7d"

/-- The calls behind the first one. -/
def laterCalls : List ToolCall → Buffer messageSize → Option (Buffer messageSize)
  | [], buffer => some buffer
  | call :: calls, buffer => (bufferAppendString "," >=> callText call >=> laterCalls calls) buffer

def callsText : List ToolCall → Buffer messageSize → Option (Buffer messageSize)
  | [], buffer => some buffer
  | call :: calls, buffer =>
      (bufferAppendString ",\"tool_calls\":[" >=> callText call >=> laterCalls calls >=>
        bufferAppendString "]") buffer

def addAssistantResponse (content : Text maxLine) (calls : List ToolCall) (c : Conversation) :
    Option Conversation := do
  let buffer ←
    (bufferAppendString "\x7b\"role\":\"assistant\",\"content\":" >=>
      (if content.bytes = [] then bufferAppendString "null" else appendJsonText content.bytes) >=>
      callsText calls >=> bufferAppendString "\x7d") Buffer.empty
  addMessage c buffer false

/-! ## Requests -/

/-- The messages behind the first one. -/
def laterMessages : List Message → Buffer maxRequest → Option (Buffer maxRequest)
  | [], buffer => some buffer
  | m :: messages, buffer =>
      (bufferAppendString "," >=> bufferAppend m.json >=> laterMessages messages) buffer

def messagesText : List Message → Buffer maxRequest → Option (Buffer maxRequest)
  | [], buffer => some buffer
  | m :: messages, buffer => (bufferAppend m.json >=> laterMessages messages) buffer

/-- The one tool that a request offers. -/
def toolsText : List Byte :=
  bytes "],\"tools\":[\x7b\"type\":\"function\",\"function\":\x7b" ++
    bytes "\"name\":\"run_terminal_command\",\"description\":" ++
    bytes "\"Execute one shell command on the user's host and return bounded live output.\"," ++
    bytes "\"parameters\":\x7b\"type\":\"object\",\"properties\":\x7b" ++
    bytes "\"command\":\x7b\"type\":\"string\",\"description\":" ++
    bytes "\"The complete shell command to execute.\"\x7d\x7d," ++
    bytes "\"required\":[\"command\"]\x7d\x7d\x7d],\"tool_choice\":\"auto\"\x7d"

def buildRequest (model : Text maxModel) (c : Conversation) : Option (Buffer maxRequest) :=
  (bufferAppendString "\x7b\"model\":" >=> appendJsonText model.bytes >=>
    bufferAppendString ",\"messages\":[" >=> messagesText c.messages >=>
    bufferAppend toolsText) Buffer.empty

/-! ## Small values -/

/-- A history with nothing in it. -/
def noMessages : Conversation := ⟨[], by decide⟩

/-- A call of the one tool there is. -/
def terminalCall (id command : String) (hi : (bytes id).length < maxId ∧ (0 : Byte) ∉ bytes id)
    (hc : (bytes command).length < maxCommand ∧ (0 : Byte) ∉ bytes command)
    (named : bytes command ≠ []) : ToolCall where
  id := ⟨bytes id, hi.1, hi.2⟩
  name := ⟨bytes "run_terminal_command", by decide, by decide⟩
  command := ⟨bytes command, hc.1, hc.2⟩
  supported := true
  valid := true
  named := fun _ => named

/-- A reply that only calls. -/
def noContent : Text maxLine := ⟨[], by decide, by decide⟩

end Agent
