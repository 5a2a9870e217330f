import Zzdwm.Agent.Messages

/-!
# The calls of a reply (src/tools/ai/agent/ai.c)

Every call is shown, decided on, run or not, and answered with a tool message.

* `World` — what comes from outside: the lines that are typed, the lines of live
  steering, and what the commands do;
* `readLine`, `readMultiline` — the readers, with their fixed arrays;
* `commandDecision`, `postExecutionSteer` — the two prompts;
* `processToolCall`, `processToolCalls` — one call, and all the calls of a reply.

`Record` is the log of the model: for each call that is shown, what the human was
shown, what he typed and what was run.
-/

namespace Agent

open Ascii (Byte bytes decimal)

def maxSteeringLines : Nat := 64
def newline : Byte := 0x0A

/-- What a command does: it is not started, or it runs while some lines are typed. -/
inductive Outcome
  | failed (error : List Byte)
  | done (typed : List (List Byte)) (output : List Byte) (status : Nat)
deriving DecidableEq

/-- The lines that are still to be read (without their line feeds; the end of the input
follows the last one), the queue of live steering, and the outcomes of the commands to
come. -/
structure World where
  lines : List (List Byte)
  queue : List (List Byte)
  outcomes : List Outcome
  fullAccess : Bool
deriving DecidableEq

/-! ## Live steering -/

/-- A line is cut at the end of its array, and one that finds no slot is dropped. -/
def queueLiveLine (line : List Byte) (queue : List (List Byte)) : List (List Byte) :=
  if queue.length < maxSteeringLines then queue ++ [cString (line.take (maxCommand - 1))] else queue

def steeringAvailable (w : World) : Bool := w.queue ≠ []

/-- The queue is emptied into `steer`, a line to each line, up to the line that does
not fit. -/
def appendLiveSteering (capacity : Nat) : List (List Byte) → List Byte →
    Bool × List Byte × List (List Byte)
  | [], steer => (true, steer, [])
  | line :: queue, steer =>
      if line = [] then appendLiveSteering capacity queue steer
      else if steer ≠ [] ∧ capacity ≤ steer.length + 1 then (false, steer, queue)
      else if capacity - steer.length - (if steer ≠ [] then 1 else 0) ≤ line.length then
        (false, steer, queue)
      else
        appendLiveSteering capacity queue ((if steer ≠ [] then steer ++ [newline] else steer) ++ line)

/-! ## Reading lines -/

/-- `fgets` takes what fits, with the line feed if that fits too.  A line whose end is
not seen in the array is skipped up to a line feed: that of the next line, if the line
feed was taken and a zero byte hides it. -/
def readLine (capacity : Nat) : List (List Byte) → Option (List Byte × List (List Byte))
  | [] => none
  | line :: lines =>
      if capacity - 1 ≤ line.length then some (cString (line.take (capacity - 1)), lines)
      else if (0 : Byte) ∈ line then some (cString line, lines.drop 1)
      else some (line, lines)

/-- The line feeds of the text count, and two bytes are kept free. -/
def readMultiline (capacity : Nat) : Nat → List Byte → List (List Byte) →
    Bool × List Byte × List (List Byte)
  | 0, buffer, lines => (false, buffer, lines)
  | fuel + 1, buffer, lines =>
      match readLine maxLine lines with
      | none => (false, buffer, lines)
      | some (line, lines) =>
          if line = [] then (true, buffer, lines)
          else if capacity ≤ buffer.length + line.length + 2 then (false, buffer, lines)
          else
            readMultiline capacity fuel
              ((if buffer ≠ [] then buffer ++ [newline] else buffer) ++ line) lines

/-! ## The decision on a command -/

/-- What is typed: an answer, as it is read, or the line for a command, as it is typed. -/
inductive Typed
  | answer (choice : List Byte)
  | edit (line : List Byte)
deriving DecidableEq

structure Dialogue where
  command : List Byte
  steer : List Byte
  lines : List (List Byte)
  typed : List Typed
deriving DecidableEq

inductive Verdict
  | allow
  | refuse
  | quit
deriving DecidableEq

/-- One array holds the command of the model and the command that is typed. -/
def commandDecision : Nat → Dialogue → Verdict × Dialogue
  | 0, d => (.quit, d)
  | fuel + 1, d =>
      match readLine maxLine d.lines with
      | none => (.quit, d)
      | some (choice, lines) =>
          let d := { d with lines := lines, typed := d.typed ++ [.answer choice] }
          if choice = bytes "a" then (.allow, d)
          else if choice = bytes "e" then
            match readLine maxCommand d.lines with
            | none => commandDecision fuel d
            | some (command, lines) =>
                let d := { d with
                  command := command, lines := lines, typed := d.typed ++ [.edit (d.lines.headD [])] }
                if command = [] then commandDecision fuel d else (.allow, d)
          else if choice = bytes "s" then
            let (read, steer, lines) := readMultiline maxCommand (d.lines.length + 1) [] d.lines
            let d := { d with steer := steer, lines := lines }
            if !read || steer = [] then commandDecision fuel d else (.refuse, d)
          else if choice = bytes "n" then (.refuse, d)
          else if choice = bytes "q" then (.quit, d)
          else commandDecision fuel d

/-- The prompt after a command, if something was typed while it ran: `none` for `q`. -/
def postExecutionSteer : Nat → List Byte → World → Option (List Byte × World)
  | 0, _, _ => none
  | fuel + 1, steer, w =>
      if !steeringAvailable w || w.fullAccess then some (steer, w)
      else
        match readLine maxLine w.lines with
        | none => none
        | some (answer, lines) =>
            let w := { w with lines := lines }
            if answer = [] then some (steer, w)
            else if answer = bytes "q" then none
            else if answer = bytes "s" then
              let (read, steer, lines) := readMultiline maxCommand (lines.length + 1) [] lines
              let w := { w with lines := lines }
              if !read || steer = [] then postExecutionSteer fuel steer w else some (steer, w)
            else postExecutionSteer fuel steer w

/-! ## Running a command -/

/-- What `print_formatted` writes of a text: the array it formats into is fixed. -/
def printFormatted (text : List Byte) : List Byte := text.take (maxLine - 1)

/-- A call that is shown: its command, what the terminal shows of the request (the line
feed aside), what is typed, and the string that is handed to `run_command`. -/
structure Record where
  requested : List Byte
  shown : List Byte
  typed : List Typed
  ran : Option (List Byte)
deriving DecidableEq

def requestText : List Byte := bytes "\n[AI requests command]: "

/-- What the loop over the calls carries; the newest record comes first. -/
structure Progress where
  world : World
  conversation : Conversation
  steer : List Byte
  log : List Record
deriving DecidableEq

/-- The call on show runs this command. -/
def markRun (command : List Byte) : List Record → List Record
  | [] => []
  | r :: log => { r with ran := some command } :: log

/-- The lines that are typed while a command runs are queued.  (Where no outcome is
left, the command is not started.) -/
def runCommand (command : List Byte) (p : Progress) : Outcome × Progress :=
  let p := { p with log := markRun command p.log }
  match p.world.outcomes with
  | [] => (.failed [], p)
  | .failed error :: outcomes =>
      (.failed error, { p with world := { p.world with outcomes := outcomes } })
  | .done typed output status :: outcomes =>
      let queue := typed.foldl (fun queue line => queueLiveLine line queue) p.world.queue
      (.done typed (output.take captureSize) status,
        { p with world := { p.world with outcomes := outcomes, queue := queue } })

/-- The tail of the output that is told to the model is halved until it fits. -/
def appendBoundedOutput (call : ToolCall) (lead output : List Byte) (c : Conversation) :
    Nat → Nat → Option Conversation
  | 0, _ => none
  | fuel + 1, tail =>
      let start := output.length - tail
      let lead' := lead ++ [newline]
      let tailText := bytes "[output tail]\n"
      if maxLine ≤ lead'.length then none
      else if start ≠ 0 ∧ maxLine ≤ lead'.length + tailText.length then none
      else
        let text := if start ≠ 0 then lead' ++ tailText else lead'
        match appendToolOutput call text (output.drop start) c with
        | some c' => some c'
        | none =>
            if tail ≤ 256 then
              appendToolResult call
                (bytes "Command output could not be represented within the bounded context.") c
            else appendBoundedOutput call lead output c fuel (tail / 2)

/-! ## All the calls -/

/-- Show the call and decide on it: the verdict, and the command as it is then. -/
def decideOn (call : ToolCall) (p : Progress) : Verdict × List Byte × Progress :=
  let command := call.command.bytes
  if call.valid && call.supported then
    let shown := printFormatted (requestText ++ command)
    if p.steer ≠ [] then
      (.refuse, command, { p with log := ⟨command, shown, [], none⟩ :: p.log })
    else if p.world.fullAccess then
      (.allow, command, { p with log := ⟨command, shown, [], none⟩ :: p.log })
    else
      let (verdict, d) := commandDecision (p.world.lines.length + 1) ⟨command, [], p.world.lines, []⟩
      (verdict, d.command,
        { p with
          world := { p.world with lines := d.lines }
          steer := d.steer
          log := ⟨command, shown, d.typed, none⟩ :: p.log })
  else (.refuse, command, p)

/-- The tool message of a call that did not run. -/
def notRunText (call : ToolCall) (steer : List Byte) : List Byte :=
  if !call.valid then bytes "Error: malformed or missing command arguments."
  else if !call.supported then bytes "Error: unsupported tool; use run_terminal_command."
  else if steer ≠ [] then bytes "Execution skipped because the human supplied a new direction."
  else bytes "Execution refused by the human."

/-- Answer a progress with a new conversation, if there is one. -/
def Progress.answered (p : Progress) (c : Option Conversation) : Bool × Progress :=
  match c with
  | some c => (true, { p with conversation := c })
  | none => (false, p)

/-- One round of the loop: does it go on? -/
def processToolCall (call : ToolCall) (p : Progress) : Bool × Progress :=
  match decideOn call p with
  | (.quit, _, p) => (false, p)
  | (.refuse, _, p) => p.answered (appendToolResult call (notRunText call p.steer) p.conversation)
  | (.allow, command, p) =>
      match runCommand command p with
      | (.failed error, p) =>
          p.answered
            (appendToolResult call ((bytes "Execution error: " ++ error).take (maxLine - 1)) p.conversation)
      | (.done _ output status, p) =>
          let lead :=
            bytes "[command completed] exit status " ++ decimal status ++ bytes ". Output:"
          match p.answered
              (appendBoundedOutput call lead output p.conversation modelOutputSize modelOutputSize) with
          | (false, p) => (false, p)
          | (true, p) =>
              match postExecutionSteer (p.world.lines.length + 1) p.steer p.world with
              | none => (false, p)
              | some (steer, world) => (true, { p with steer := steer, world := world })

def callLoop : List ToolCall → Progress → Bool × Progress
  | [], p => (true, p)
  | call :: calls, p =>
      match processToolCall call p with
      | (false, p) => (false, p)
      | (true, p) => callLoop calls p

/-- What follows the loop: the steering is told to the model. -/
def tellSteering (p : Progress) : Bool × Progress :=
  let (fits, steer, queue) := appendLiveSteering maxCommand p.world.queue p.steer
  let p := { p with steer := steer, world := { p.world with queue := queue } }
  if !fits then (false, p)
  else if steer = [] then (true, p)
  else
    p.answered (addTextMessage (bytes "user")
      (bytes "HUMAN STEERING DURING TOOL EXECUTION: " ++ steer) false p.conversation)

def processToolCalls (calls : List ToolCall) (w : World) (c : Conversation) : Bool × Progress :=
  match callLoop calls ⟨w, c, [], []⟩ with
  | (false, p) => (false, p)
  | (true, p) => tellSteering p

end Agent
