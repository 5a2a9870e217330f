import Zzdwm.Agent.Tools
import Zzdwm.Lib.Machine

/-!
# A session of the agent (src/tools/ai/agent/ai.c)

The main loop as a machine.  A request is sent in the state `asking`, and what happens
then is an event: it fails, or there is a reply.  The calls of a reply are processed one
at a time.

* `parseToolCall`, `readResponse` — what is taken from a reply; `parse` stands for
  `cJSON_Parse`;
* `conversationReset`, `addPendingRequestSteering` — the other routines that add
  messages;
* `step` — one event.
-/

namespace Agent

open Ascii (Byte bytes)
open Json (Value)

variable (parse : List Byte → Option Value)

/-! ## Replies -/

/-- The member of an object; `none` stands for a null pointer. -/
def getObjectItem (name : List Byte) : Option Value → Option Value
  | some (.obj members) => (members.find? fun m => cString m.1 = name).map Prod.snd
  | _ => none

def isObject : Option Value → Bool
  | some (.obj _) => true
  | _ => false

theorem nul_not_mem_cString (s : List Byte) : (0 : Byte) ∉ cString s := by
  intro h
  simpa using List.mem_takeWhile_imp h

def copyJsonString (capacity : Nat) : Option Value → Option (Text capacity)
  | some (.str s) =>
      if h : (cString s).length < capacity then some ⟨cString s, h, nul_not_mem_cString s⟩ else none
  | _ => none

def toolZero : Text maxId := ⟨bytes "tool-0", by decide, by decide⟩

theorem terminalName_fits : (bytes "run_terminal_command").length < maxName := by decide

theorem nul_not_mem_terminalName : (0 : Byte) ∉ bytes "run_terminal_command" := by decide

def terminalName : Text maxName :=
  ⟨bytes "run_terminal_command", terminalName_fits, nul_not_mem_terminalName⟩

theorem noCommand_fits : ([] : List Byte).length < maxCommand := by decide

/-- A call without an id keeps the id that is filled in at first. -/
def parseToolCall (toolCall : Value) : Option ToolCall := do
  guard (isObject (some toolCall))
  let id ← match getObjectItem (bytes "id") (some toolCall) with
    | none => some toolZero
    | some v => copyJsonString maxId (some v)
  let function := getObjectItem (bytes "function") (some toolCall)
  guard (isObject function)
  let name ← copyJsonString maxName (getObjectItem (bytes "name") function)
  match getObjectItem (bytes "arguments") function with
  | some (.str arguments) =>
      let object ← parse (cString arguments)
      let command ← copyJsonString maxCommand (getObjectItem (bytes "command") (some object))
      return {
        id := id
        name := name
        command := command
        supported := name.bytes = bytes "run_terminal_command"
        valid := command.bytes ≠ []
        named := of_decide_eq_true }
  | _ => none

/-- What stands for a call that cannot be parsed. -/
def malformedCall : ToolCall where
  id := toolZero
  name := terminalName
  command := ⟨[], noCommand_fits, nul_not_mem_nil⟩
  supported := true
  valid := false
  named := nofun

def readCall (item : Value) : ToolCall := (parseToolCall parse item).getD malformedCall

/-- The content and the calls of the first choice. -/
def readResponse (body : List Byte) : Option (Text maxLine × List ToolCall) := do
  let response ← parse body
  guard (getObjectItem (bytes "error") (some response)).isNone
  match getObjectItem (bytes "choices") (some response) with
  | some (.arr (choice :: _)) =>
      let message := getObjectItem (bytes "message") (some choice)
      guard (isObject message)
      let content ← match getObjectItem (bytes "content") message with
        | none | some .null => some noContent
        | some v => copyJsonString maxLine (some v)
      match getObjectItem (bytes "tool_calls") message with
      | none | some .null => some (content, [])
      | some (.arr items) =>
          guard (items.length ≤ maxToolCalls)
          some (content, items.map (readCall parse))
      | _ => none
  | _ => none

/-! ## The session -/

-- irreducible: nothing is to be gained from unfolding the text in a proof
@[irreducible] def systemPrompt : List Byte :=
  bytes "You are a senior software engineer working directly on the user's host. " ++
    bytes "Diagnose methodically, state assumptions and impact, prefer read-only " ++
    bytes "commands first, and finish with a concise conclusion. Request exactly one " ++
    bytes "terminal command per tool call. Never conceal or misrepresent command " ++
    bytes "output. Stop and ask the human when an action is destructive, ambiguous, " ++
    bytes "or outside the stated task."

/-- The settings: the text that lists the skills, if there are any, and the number of
rounds. -/
structure Settings where
  skills : Option (List Byte)
  maxToolRounds : Nat

def conversationReset (settings : Settings) : Option Conversation := do
  let c ← addTextMessage (bytes "system") systemPrompt true noMessages
  match settings.skills with
  | none => some c
  | some text => addTextMessage (bytes "system") text true c

/-- Steering that was typed during the first request, if the reply to it calls nothing. -/
def addPendingRequestSteering (p : Progress) : Bool × Progress :=
  if !steeringAvailable p.world then (true, p)
  else
    let (fits, steer, queue) := appendLiveSteering maxCommand p.world.queue []
    let p := { p with world := { p.world with queue := queue } }
    if !fits then (false, p)
    else if steer = [] then (true, p)
    else
      p.answered (addTextMessage (bytes "user")
        (bytes "HUMAN STEERING DURING AI REQUEST: " ++ steer) false p.conversation)

/-- Where the main loop is: at its prompt, about to send a request (with the number of
rounds there were), in the loop over the calls, behind a reply that calls nothing, or
at its end. -/
inductive Control
  | prompt
  | asking (round : Nat)
  | calling (round : Nat) (calls : List ToolCall)
  | settling
  | ended

structure Session where
  control : Control
  progress : Progress

inductive Event
  /-- a text for the model, from the prompt -/
  | user (text : List Byte)
  /-- `/new` -/
  | new
  /-- `/force` -/
  | force
  /-- `/skill`, with the text of the skill -/
  | skill (body : List Byte)
  /-- `/exit`, `/quit` or the end of the input -/
  | exit
  /-- the request fails; some lines were typed meanwhile -/
  | failed (typed : List (List Byte))
  /-- a reply; what is typed and what the commands do from there on -/
  | reply (typed : List (List Byte)) (body : List Byte) (lines : List (List Byte))
      (outcomes : List Outcome)
  /-- the next call of the reply -/
  | call
  /-- the end of the calls -/
  | told
  /-- the end of a reply without calls -/
  | settled

inductive Fault
  /-- the event does not happen there -/
  | outOfTurn

/-- The lines that are typed while the request is under way are queued. -/
def Progress.typed (p : Progress) (typed : List (List Byte)) : Progress :=
  { p with world := { p.world with
      queue := typed.foldl (fun queue line => queueLiveLine line queue) p.world.queue } }

/-- A message from the prompt that does not fit is an error that is only told. -/
def Session.added (s : Session) (control : Control) (c : Option Conversation) : Session :=
  match c with
  | none => s
  | some c => ⟨control, { s.progress with conversation := c }⟩

/-- A new conversation, and no steering; without one the program ends. -/
def Session.reset (s : Session) (c : Option Conversation) : Session :=
  match c with
  | none => ⟨.ended, s.progress⟩
  | some c =>
      ⟨.prompt, { s.progress with conversation := c, world := { s.progress.world with queue := [] } }⟩

/-- After the calls of a round: the next request, or the prompt if the rounds are
over. -/
def nextRound (settings : Settings) (round : Nat) : Control :=
  if round + 1 = settings.maxToolRounds then .prompt else .asking (round + 1)

def step (settings : Settings) : Event → Session → Except Fault Session
  | .user text, s =>
      match s.control with
      | .prompt => .ok (s.added (.asking 0) (addTextMessage (bytes "user") text false s.progress.conversation))
      | _ => .error .outOfTurn
  | .new, s =>
      match s.control with
      | .prompt => .ok (s.reset (conversationReset settings))
      | _ => .error .outOfTurn
  | .force, s =>
      match s.control with
      | .prompt =>
          .ok ⟨.prompt, { s.progress with
            world := { s.progress.world with fullAccess := !s.progress.world.fullAccess } }⟩
      | _ => .error .outOfTurn
  | .skill body, s =>
      match s.control with
      | .prompt => .ok (s.added .prompt (addTextMessage (bytes "system") body true s.progress.conversation))
      | _ => .error .outOfTurn
  | .exit, s =>
      match s.control with
      | .prompt => .ok ⟨.ended, s.progress⟩
      | _ => .error .outOfTurn
  | .failed typed, s =>
      match s.control with
      | .asking round =>
          let p := s.progress.typed typed
          let dropped := dropOldestMessage p.conversation
          if dropped.messages.length = p.conversation.messages.length then .ok ⟨.ended, p⟩
          else
            .ok ⟨if round = 0 then .prompt else .asking round, { p with conversation := dropped }⟩
      | _ => .error .outOfTurn
  | .reply typed body lines outcomes, s =>
      match s.control with
      | .asking round =>
          let p := s.progress.typed typed
          match readResponse parse body with
          | none => .ok ⟨.ended, p⟩
          | some (content, calls) =>
              match addAssistantResponse content calls p.conversation with
              | none => .ok ⟨.ended, p⟩
              | some c =>
                  if calls = [] then
                    .ok ⟨if round = 0 then .settling else .prompt, { p with conversation := c }⟩
                  else
                    .ok ⟨.calling round calls, { p with
                      conversation := c, steer := [],
                      world := { p.world with lines := lines, outcomes := outcomes } }⟩
      | _ => .error .outOfTurn
  | .call, s =>
      match s.control with
      | .calling round (call :: calls) =>
          match processToolCall call s.progress with
          | (false, p) => .ok ⟨.ended, p⟩
          | (true, p) => .ok ⟨.calling round calls, p⟩
      | _ => .error .outOfTurn
  | .told, s =>
      match s.control with
      | .calling round [] =>
          match tellSteering s.progress with
          | (false, p) => .ok ⟨.ended, p⟩
          | (true, p) => .ok ⟨nextRound settings round, p⟩
      | _ => .error .outOfTurn
  | .settled, s =>
      match s.control with
      | .settling =>
          match addPendingRequestSteering s.progress with
          | (false, p) => .ok ⟨.ended, p⟩
          | (true, p) => .ok ⟨.prompt, p⟩
      | _ => .error .outOfTurn

/-- The session that starts with a conversation. -/
def started (c : Conversation) (fullAccess : Bool) : Session :=
  ⟨.prompt, ⟨⟨[], [], [], fullAccess⟩, c, [], []⟩⟩

end Agent
