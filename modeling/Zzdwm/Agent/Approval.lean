import Zzdwm.Agent.Tools

/-!
# What is run is what was approved

A dialogue about a command is a loop over lines that are typed.  While it waits for an
answer it keeps either the command of the model or, after an edit that was given up,
none at all.

* `Waiting`, `commandDecision_spec` — the loop, and the ways out of it;
* `processToolCall_log` — what one call adds to the log;
* `runs_what_is_approved_iff` — **which commands are run**.
-/

namespace Agent

open Ascii (Byte bytes)

/-! ## Lines -/

/-- What `read_line` makes of a line. -/
def lineText (capacity : Nat) (line : List Byte) : List Byte :=
  if capacity - 1 ≤ line.length then cString (line.take (capacity - 1))
  else if (0 : Byte) ∈ line then cString line
  else line

theorem readLine_cons (capacity : Nat) (line : List Byte) (lines : List (List Byte)) :
    ∃ rest, readLine capacity (line :: lines) = some (lineText capacity line, rest) ∧
      rest.length ≤ lines.length := by
  unfold readLine lineText
  dsimp only
  by_cases hlong : capacity - 1 ≤ line.length
  · rw [if_pos hlong, if_pos hlong]
    exact ⟨lines, rfl, Nat.le_refl _⟩
  rw [if_neg hlong, if_neg hlong]
  by_cases hz : (0 : Byte) ∈ line
  · rw [if_pos hz, if_pos hz]
    exact ⟨lines.drop 1, rfl, by simp⟩
  · rw [if_neg hz, if_neg hz]
    exact ⟨lines, rfl, Nat.le_refl _⟩

/-- What a successful read takes from the input. -/
theorem readLine_some {capacity : Nat} {lines rest : List (List Byte)} {text : List Byte}
    (h : readLine capacity lines = some (text, rest)) :
    text = lineText capacity (lines.headD []) ∧ rest.length < lines.length := by
  cases lines with
  | nil => cases h
  | cons line lines =>
      obtain ⟨rest', hread, hle⟩ := readLine_cons capacity line lines
      rw [hread] at h
      cases h
      exact ⟨rfl, Nat.lt_succ_of_le hle⟩

/-- A whole line is read if it fits and holds no zero byte. -/
theorem lineText_self {capacity : Nat} (hpos : 0 < capacity) (line : List Byte) :
    lineText capacity line = line ↔ line.length < capacity ∧ (0 : Byte) ∉ line := by
  unfold lineText
  split
  next hlong =>
    constructor
    · intro h
      have hlen : (cString (line.take (capacity - 1))).length ≤ capacity - 1 :=
        Nat.le_trans (List.takeWhile_prefix _).length_le (List.length_take_le _ _)
      rw [h] at hlen
      rw [List.take_of_length_le hlen] at h
      exact ⟨by omega, cString_self.mp h⟩
    · rintro ⟨hlt, hz⟩
      rw [List.take_of_length_le (by omega)]
      exact cString_self.mpr hz
  next hshort =>
    have hlt : line.length < capacity := by omega
    split
    next hz => exact ⟨fun h => absurd hz (cString_self.mp h), fun h => absurd hz h.2⟩
    next hz => exact ⟨fun _ => ⟨hlt, hz⟩, fun _ => rfl⟩

theorem lineText_eq_nil {capacity : Nat} (hcap : 1 < capacity) (line : List Byte) :
    lineText capacity line = [] ↔ line = [] ∨ line.head? = some 0 := by
  unfold lineText
  split
  next hlong =>
    rw [cString_eq_nil]
    cases line with
    | nil => simp
    | cons b line =>
        obtain ⟨k, hk⟩ : ∃ k, capacity - 1 = k + 1 := ⟨capacity - 2, by omega⟩
        simp [hk]
  split
  · exact cString_eq_nil
  next hz =>
    constructor
    · exact Or.inl
    · rintro (h | h)
      · exact h
      · exact absurd (List.mem_of_head? h) hz

/-! ## The dialogue -/

/-- The prompt waits for an answer: it has the requested command as long as no edit was
given up, and none after that. -/
structure Waiting (requested : List Byte) (d : Dialogue) : Prop where
  kept : (∀ line, Typed.edit line ∉ d.typed) → d.command = requested
  abandoned : ∀ line, Typed.edit line ∈ d.typed → lineText maxCommand line = [] ∧ d.command = []
  asking : d.typed.getLast? ≠ some (.answer (bytes "a"))

/-- An answer that does not decide. -/
theorem Waiting.answer {requested : List Byte} {d : Dialogue} (h : Waiting requested d)
    {choice : List Byte} (hne : choice ≠ bytes "a") (steer : List Byte) (lines : List (List Byte)) :
    Waiting requested ⟨d.command, steer, lines, d.typed ++ [.answer choice]⟩ where
  kept := fun hno => h.kept fun line hmem => hno line (List.mem_append_left _ hmem)
  abandoned := by
    intro line hmem
    rcases List.mem_append.mp hmem with hmem | hmem
    · exact h.abandoned line hmem
    · cases List.mem_singleton.mp hmem
  asking := by
    rw [List.getLast?_concat]
    intro heq
    cases heq
    exact hne rfl

/-- An edit that is given up. -/
theorem Waiting.edit {requested : List Byte} {d : Dialogue} (h : Waiting requested d)
    {line : List Byte} (hempty : lineText maxCommand line = []) (steer : List Byte)
    (lines : List (List Byte)) :
    Waiting requested ⟨[], steer, lines, d.typed ++ [.edit line]⟩ where
  kept := fun hno => absurd (List.mem_append_right _ List.mem_cons_self) (hno line)
  abandoned := by
    intro line' hmem
    rcases List.mem_append.mp hmem with hmem | hmem
    · exact ⟨(h.abandoned line' hmem).1, rfl⟩
    · cases List.mem_singleton.mp hmem
      exact ⟨hempty, rfl⟩
  asking := by
    rw [List.getLast?_concat]
    nofun

/-- The ways out of the loop. -/
inductive Decided (requested : List Byte) : Verdict × Dialogue → Prop
  | allowed (d : Dialogue) (waiting : Waiting requested d) (lines : List (List Byte)) :
      Decided requested (.allow, ⟨d.command, d.steer, lines, d.typed ++ [.answer (bytes "a")]⟩)
  | edited (line steer : List Byte) (lines : List (List Byte)) (typed : List Typed)
      (some : lineText maxCommand line ≠ []) :
      Decided requested
        (.allow, ⟨lineText maxCommand line, steer, lines, typed ++ [.edit line]⟩)
  | stopped (verdict : Verdict) (d : Dialogue) (stop : verdict ≠ .allow)
      (waiting : Waiting requested d) : Decided requested (verdict, d)

/-- **The loop of the prompt.** -/
theorem commandDecision_spec {requested : List Byte} (fuel : Nat) (d : Dialogue)
    (h : Waiting requested d) : Decided requested (commandDecision fuel d) := by
  induction fuel generalizing d with
  | zero => exact .stopped _ d nofun h
  | succ fuel ih =>
      unfold commandDecision
      cases hread : readLine maxLine d.lines with
      | none => exact .stopped _ d nofun h
      | some r =>
          obtain ⟨choice, lines⟩ := r
          dsimp only
          by_cases ha : choice = bytes "a"
          · rw [if_pos ha, ha]
            exact .allowed d h lines
          rw [if_neg ha]
          have hanswer := h.answer ha d.steer lines
          by_cases he : choice = bytes "e"
          · rw [if_pos he]
            cases hedit : readLine maxCommand lines with
            | none => exact ih _ hanswer
            | some r =>
                obtain ⟨command, rest⟩ := r
                have hline := (readLine_some hedit).1
                dsimp only
                by_cases hempty : command = []
                · rw [if_pos hempty, hempty]
                  exact ih _ (hanswer.edit (hline ▸ hempty) d.steer rest)
                · rw [if_neg hempty, hline]
                  exact .edited _ d.steer rest _ (hline ▸ hempty)
          rw [if_neg he]
          by_cases hs : choice = bytes "s"
          · rw [if_pos hs]
            split
            · exact ih _ (h.answer ha _ _)
            · exact .stopped _ _ nofun (h.answer ha _ _)
          rw [if_neg hs]
          by_cases hn : choice = bytes "n"
          · rw [if_pos hn]
            exact .stopped _ _ nofun hanswer
          rw [if_neg hn]
          by_cases hq : choice = bytes "q"
          · rw [if_pos hq]
            exact .stopped _ _ nofun hanswer
          · rw [if_neg hq]
            exact ih _ hanswer

/-! ## What is written into the log -/

/-- A record is of one dialogue, and holds what came of it. -/
structure Recorded (r : Record) : Prop where
  shown : r.shown = printFormatted (requestText ++ r.requested)
  named : r.requested ≠ []
  decided : ∃ verdict d, Decided r.requested (verdict, d) ∧ r.typed = d.typed ∧
    r.ran = if verdict = .allow then some d.command else none

/-- What was run was approved: it is the command on show, and the answer was `a`, or it
is the line that was typed last, for the command. -/
def Record.AsApproved (r : Record) : Prop :=
  ∀ command, r.ran = some command → command ≠ [] ∧
    (r.typed.getLast? = some (.answer (bytes "a")) ∧ r.shown = requestText ++ command ∨
      r.typed.getLast? = some (.edit command))

/-- Nothing in the dialogue goes wrong: a command that is allowed fits on the terminal
and there was no edit before the answer; a line that is typed for a command fits into its
array and holds no zero byte (one that starts with a zero byte counts as empty). -/
def Record.Clean (r : Record) : Prop :=
  (r.typed.getLast? = some (.answer (bytes "a")) →
    requestText.length + r.requested.length < maxLine ∧ ∀ line, Typed.edit line ∉ r.typed) ∧
  ∀ line, r.typed.getLast? = some (.edit line) → line.head? ≠ some 0 →
    line.length < maxCommand ∧ (0 : Byte) ∉ line

theorem printFormatted_self {text : List Byte} : printFormatted text = text ↔ text.length < maxLine := by
  have hpos : 0 < maxLine := by decide
  unfold printFormatted
  constructor
  · intro h
    have hlen := List.length_take_le (maxLine - 1) text
    rw [h] at hlen
    omega
  · intro h
    exact List.take_of_length_le (by omega)

theorem Recorded.approved_iff {r : Record} (h : Recorded r) : r.AsApproved ↔ r.Clean := by
  obtain ⟨verdict, d, hd, htyped, hran⟩ := h.decided
  have hshown (command : List Byte) : requestText.length + command.length < maxLine ↔
      printFormatted (requestText ++ command) = requestText ++ command := by
    rw [printFormatted_self, List.length_append]
  cases hd with
  | allowed d waiting lines =>
      have hlast : r.typed.getLast? = some (.answer (bytes "a")) := by rw [htyped, List.getLast?_concat]
      have hran' : r.ran = some d.command := hran
      have hedit (line : List Byte) : Typed.edit line ∉ r.typed ↔ Typed.edit line ∉ d.typed := by
        rw [htyped]
        simp
      constructor
      · intro happ
        obtain ⟨hne, hshow⟩ := happ d.command hran'
        have hno : ∀ line, Typed.edit line ∉ d.typed :=
          fun line hmem => hne (waiting.abandoned line hmem).2
        have hkept := waiting.kept hno
        refine ⟨fun _ => ⟨?_, fun line => (hedit line).mpr (hno line)⟩, fun line hl => ?_⟩
        · rcases hshow with ⟨-, hshow⟩ | hshow
          · rw [hshown, ← h.shown, hshow, hkept]
          · rw [hlast] at hshow
            cases hshow
        · rw [hlast] at hl
          cases hl
      · rintro ⟨hclean, -⟩ command hcommand
        obtain ⟨hfits, hno⟩ := hclean hlast
        have hkept := waiting.kept fun line => (hedit line).mp (hno line)
        rw [hran', hkept] at hcommand
        cases hcommand
        exact ⟨h.named, Or.inl ⟨hlast, by rw [h.shown, (hshown _).mp hfits]⟩⟩
  | edited line steer lines typed hsome =>
      have hlast : r.typed.getLast? = some (.edit line) := by rw [htyped, List.getLast?_concat]
      have hran' : r.ran = some (lineText maxCommand line) := hran
      have hself : lineText maxCommand line = line ↔ line.length < maxCommand ∧ (0 : Byte) ∉ line :=
        lineText_self (by decide) line
      have hnil : lineText maxCommand line = [] ↔ line = [] ∨ line.head? = some 0 :=
        lineText_eq_nil (by decide) line
      constructor
      · intro happ
        obtain ⟨-, hshow⟩ := happ _ hran'
        refine ⟨fun ha => ?_, fun line' hl _ => ?_⟩
        · rw [hlast] at ha
          cases ha
        · rw [hlast] at hl
          cases hl
          rcases hshow with ⟨ha, -⟩ | hshow
          · rw [hlast] at ha
            cases ha
          · rw [hlast] at hshow
            exact hself.mp (Typed.edit.inj (Option.some.inj hshow)).symm
      · rintro ⟨-, hclean⟩ command hcommand
        rw [hran'] at hcommand
        cases hcommand
        refine ⟨hsome, Or.inr ?_⟩
        rw [hlast, hself.mpr (hclean line hlast fun hz => hsome (hnil.mpr (Or.inr hz)))]
  | stopped _ _ hstop waiting =>
      rw [if_neg hstop] at hran
      constructor
      · intro _
        refine ⟨fun ha => absurd (htyped ▸ ha) waiting.asking, fun line hl hz => ?_⟩
        have hempty := (waiting.abandoned line (htyped ▸ List.mem_of_getLast? hl)).1
        rcases (lineText_eq_nil (by decide) line).mp hempty with rfl | hz'
        · exact ⟨by decide, by decide⟩
        · exact absurd hz' hz
      · intro _ command hcommand
        rw [hran] at hcommand
        cases hcommand

/-- Nothing but the log and the terminal is asked for the decision. -/
theorem decideOn_spec (call : ToolCall) (p : Progress) (off : p.world.fullAccess = false) :
    (decideOn call p).2.2.world.fullAccess = false ∧
      ((decideOn call p).1 = .refuse ∧ (decideOn call p).2.2.log = p.log ∨
        ∃ r, (decideOn call p).2.2.log = r :: p.log ∧
          Recorded { r with
            ran := if (decideOn call p).1 = .allow then some (decideOn call p).2.1 else none } ∧
          ((decideOn call p).1 ≠ .allow → r.ran = none)) := by
  unfold decideOn
  dsimp only
  split
  next hvalid =>
    have hnamed : call.command.bytes ≠ [] := call.named (Bool.and_eq_true_iff.mp hvalid).1
    have hwait (lines : List (List Byte)) :
        Waiting call.command.bytes ⟨call.command.bytes, [], lines, []⟩ := ⟨fun _ => rfl, nofun, nofun⟩
    split
    · exact ⟨off, Or.inr ⟨_, rfl, ⟨rfl, hnamed, .refuse, _, .stopped _ _ nofun (hwait []), rfl, rfl⟩,
        fun _ => rfl⟩⟩
    split
    next hfull => rw [off] at hfull; cases hfull
    · exact ⟨off, Or.inr ⟨_, rfl, ⟨rfl, hnamed, _, _, commandDecision_spec _ _ (hwait _), rfl, rfl⟩,
        fun _ => rfl⟩⟩
  · exact ⟨off, Or.inl ⟨rfl, rfl⟩⟩

@[simp] theorem answered_log (p : Progress) (c : Option Conversation) : (p.answered c).2.log = p.log := by
  cases c <;> rfl

@[simp] theorem answered_world (p : Progress) (c : Option Conversation) :
    (p.answered c).2.world = p.world := by
  cases c <;> rfl

theorem runCommand_spec (command : List Byte) (p : Progress) :
    (runCommand command p).2.log = markRun command p.log ∧
      (runCommand command p).2.world.fullAccess = p.world.fullAccess := by
  unfold runCommand
  dsimp only
  split <;> exact ⟨rfl, rfl⟩

theorem postExecutionSteer_fullAccess {fuel : Nat} {steer steer' : List Byte} {w w' : World}
    (h : postExecutionSteer fuel steer w = some (steer', w')) : w'.fullAccess = w.fullAccess := by
  induction fuel generalizing steer w with
  | zero => cases h
  | succ fuel ih =>
      unfold postExecutionSteer at h
      split at h
      · cases h
        rfl
      split at h
      · cases h
      dsimp only at h
      split at h
      · cases h
        rfl
      split at h
      · cases h
      split at h
      · split at h
        · have hw := ih h
          exact hw
        · cases h
          rfl
      · have hw := ih h
        exact hw

/-- Once a command runs, the log and the mode stay as they are. -/
theorem allowed_spec (call : ToolCall) {command : List Byte} {p p' : Progress}
    (h : decideOn call p = (.allow, command, p')) :
    (processToolCall call p).2.log = markRun command p'.log ∧
      (processToolCall call p).2.world.fullAccess = p'.world.fullAccess := by
  obtain ⟨hlog, hfull⟩ := runCommand_spec command p'
  unfold processToolCall
  rw [h]
  dsimp only
  cases hrun : runCommand command p' with
  | mk outcome q =>
      rw [hrun] at hlog hfull
      cases outcome with
      | failed error => exact ⟨by rw [answered_log, hlog], by rw [answered_world, hfull]⟩
      | done typed output status =>
          dsimp only
          generalize appendBoundedOutput call _ output q.conversation _ _ = reply
          cases reply with
          | none => exact ⟨hlog, hfull⟩
          | some c =>
              dsimp only [Progress.answered]
              cases hpost : postExecutionSteer (q.world.lines.length + 1) q.steer q.world with
              | none => exact ⟨hlog, hfull⟩
              | some r => exact ⟨hlog, (postExecutionSteer_fullAccess hpost).trans hfull⟩

/-- One call adds one record, or none. -/
theorem processToolCall_log (call : ToolCall) (p : Progress) (off : p.world.fullAccess = false) :
    (processToolCall call p).2.world.fullAccess = false ∧
      ((processToolCall call p).2.log = p.log ∨
        ∃ r, Recorded r ∧ (processToolCall call p).2.log = r :: p.log) := by
  obtain ⟨hfull, hlog⟩ := decideOn_spec call p off
  cases hdec : decideOn call p with
  | mk verdict rest =>
      obtain ⟨command, p'⟩ := rest
      rw [hdec] at hfull hlog
      dsimp only at hfull hlog
      cases verdict with
      | allow =>
          obtain ⟨hmark, hkeep⟩ := allowed_spec call hdec
          rcases hlog with ⟨hv, -⟩ | ⟨r, hlog, hr, -⟩
          · cases hv
          · exact ⟨hkeep.trans hfull, Or.inr ⟨_, hr, by rw [hmark, hlog]; rfl⟩⟩
      | refuse =>
          have hround : (processToolCall call p).2 =
              (p'.answered (appendToolResult call (notRunText call p'.steer) p'.conversation)).2 := by
            rw [processToolCall, hdec]
          rw [hround, answered_world, answered_log]
          rcases hlog with ⟨-, hlog⟩ | ⟨r, hlog, hr, hran⟩
          · exact ⟨hfull, Or.inl hlog⟩
          · have hsame : { r with ran := none } = r := by rw [← hran nofun]
            exact ⟨hfull, Or.inr ⟨_, hsame ▸ hr, hlog⟩⟩
      | quit =>
          have hround : (processToolCall call p).2 = p' := by rw [processToolCall, hdec]
          rw [hround]
          rcases hlog with ⟨hv, -⟩ | ⟨r, hlog, hr, hran⟩
          · cases hv
          · have hsame : { r with ran := none } = r := by rw [← hran nofun]
            exact ⟨hfull, Or.inr ⟨_, hsame ▸ hr, hlog⟩⟩

/-- All the calls. -/
theorem callLoop_log (calls : List ToolCall) (p : Progress) (off : p.world.fullAccess = false)
    (h : ∀ r ∈ p.log, Recorded r) : ∀ r ∈ (callLoop calls p).2.log, Recorded r := by
  induction calls generalizing p with
  | nil => exact h
  | cons call calls ih =>
      obtain ⟨hfull, hlog⟩ := processToolCall_log call p off
      have hall : ∀ r ∈ (processToolCall call p).2.log, Recorded r := by
        rcases hlog with hlog | ⟨r, hr, hlog⟩
        · rw [hlog]
          exact h
        · rw [hlog]
          exact List.forall_mem_cons.mpr ⟨hr, h⟩
      unfold callLoop
      cases hround : processToolCall call p with
      | mk goes q =>
          rw [hround] at hfull hall
          cases goes with
          | false => exact hall
          | true => exact ih q hfull hall

theorem tellSteering_log (p : Progress) : (tellSteering p).2.log = p.log := by
  unfold tellSteering
  split
  dsimp only
  split
  · rfl
  split
  · rfl
  · rw [answered_log]

theorem processToolCalls_log (calls : List ToolCall) (w : World) (c : Conversation)
    (off : w.fullAccess = false) : ∀ r ∈ (processToolCalls calls w c).2.log, Recorded r := by
  have hloop := callLoop_log calls ⟨w, c, [], []⟩ off nofun
  unfold processToolCalls
  cases hp : callLoop calls ⟨w, c, [], []⟩ with
  | mk goes p =>
      rw [hp] at hloop
      cases goes with
      | false => exact hloop
      | true =>
          dsimp only
          rw [tellSteering_log]
          exact hloop

/-- **Which commands are run.**  With full access off, whatever the calls are and
whatever is typed: every command that is run is not empty and is the command on show,
allowed, or the whole line that was typed for it, if and only if no dialogue goes
wrong.  A dialogue goes wrong in three ways: a command is allowed after an edit that was
given up, which runs the empty command; a command is allowed that is too long for the
terminal to show; a line is typed for a command that does not fit into its array, or
holds a zero byte. -/
theorem runs_what_is_approved_iff (calls : List ToolCall) (w : World) (c : Conversation)
    (off : w.fullAccess = false) :
    (∀ r ∈ (processToolCalls calls w c).2.log, r.AsApproved) ↔
      ∀ r ∈ (processToolCalls calls w c).2.log, r.Clean :=
  forall₂_congr fun r hr => (processToolCalls_log calls w c off r hr).approved_iff

theorem lsCall_id : (bytes "call-1").length < maxId ∧ (0 : Byte) ∉ bytes "call-1" := by decide

theorem lsCall_command :
    (bytes "ls -l").length < maxCommand ∧ (0 : Byte) ∉ bytes "ls -l" := by decide

theorem lsCall_named : bytes "ls -l" ≠ [] := by decide

/-- A call of `ls -l`, and a human who has these lines to type. -/
def lsCall : ToolCall := terminalCall "call-1" "ls -l" lsCall_id lsCall_command lsCall_named

def typing (lines : List (List Byte)) : World where
  lines := lines
  queue := []
  outcomes := [.done [] (bytes "total 0") 0]
  fullAccess := false

theorem runs_what_is_approved_ls :
    ∃ r : Record, (processToolCalls [lsCall] (typing [bytes "a"]) noMessages).2.log = [r] ∧
      r.AsApproved := by
  have hlog : (processToolCalls [lsCall] (typing [bytes "a"]) noMessages).2.log =
      [⟨bytes "ls -l", requestText ++ bytes "ls -l", [.answer (bytes "a")], some (bytes "ls -l")⟩] := by
    decide +kernel
  have hall := (runs_what_is_approved_iff [lsCall] (typing [bytes "a"]) noMessages rfl).mpr (by
    rw [hlog, List.forall_mem_singleton]
    exact ⟨fun _ => ⟨by decide, by simp⟩, fun line h => by cases h⟩)
  rw [hlog, List.forall_mem_singleton] at hall
  exact ⟨_, hlog, hall⟩

/-- `e`, an empty line and `a`: the empty command is run. -/
theorem runs_what_is_approved_empty :
    ¬ ∀ r ∈ (processToolCalls [lsCall] (typing [bytes "e", [], bytes "a"]) noMessages).2.log,
      r.AsApproved := by
  have hlog : (processToolCalls [lsCall] (typing [bytes "e", [], bytes "a"]) noMessages).2.log =
      [⟨bytes "ls -l", requestText ++ bytes "ls -l",
        [.answer (bytes "e"), .edit [], .answer (bytes "a")], some []⟩] := by
    decide +kernel
  intro h
  rw [hlog, List.forall_mem_singleton] at h
  exact (h [] rfl).1 rfl

end Agent
