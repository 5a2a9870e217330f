import Zzdwm.Agent.Tools
import Zzdwm.Lib.Machine

/-!
# Running a command (src/tools/ai/agent/ai.c, `run_command`)

The child writes to a pipe and exits; the parent polls the pipe, reads what is
there, and asks with `waitpid (child, &status, WNOHANG)` whether the child has
exited.  Their steps interleave in any order.  There is no deadline and no
interrupt here, and the child is the only writer.

* `Command.step` — the steps of both;
* `Command.Accounted` — every byte that was written is captured, was read when the
  capture was full, was lost when it could not be shown, or is still in the pipe;
* `output_complete_iff` — **the capture is complete exactly in the runs in which the
  exit is noticed after the pipe has been emptied**, or after the capture is full.
-/

namespace Agent

open Ascii (Byte)
open Machine (Run Any)

/-- `sizeof (chunk)`. -/
def chunkSize : Nat := 2048

/-- What `waitpid` says about a child that is gone. -/
inductive WaitStatus
  | exited (code : Nat)
  | signaled (sig : Nat)
deriving DecidableEq

/-- `exit_status`. -/
def WaitStatus.exitStatus : WaitStatus → Nat
  | exited code => code
  | signaled sig => 128 + sig

/-- Where the parent is: before `poll`, before `read`, before the `waitpid` of the
loop, before the one after the loop, and at the end. -/
inductive At
  | poll
  | read
  | check
  | wait
  | done
deriving DecidableEq

/-- The pipe, the child and the parent.  `output` are the bytes captured so far;
`written`, `consumed` and `lost` record what the child wrote, what the parent has
dealt with and what it dropped. -/
structure Command where
  pipe : List Byte
  writeEnd : Bool
  child : Option WaitStatus
  pc : At
  output : List Byte
  status : Option WaitStatus
  written : List Byte
  consumed : List Byte
  lost : List Byte
deriving DecidableEq

/-- After the `fork`. -/
def Command.start : Command where
  pipe := []
  writeEnd := true
  child := none
  pc := .poll
  output := []
  status := none
  written := []
  consumed := []
  lost := []

/-- What `poll` returns. -/
inductive Polled
  | ready
  | timeout
  | interrupted
  | failed
deriving DecidableEq

/-- What `read` returns; `shown` tells whether the chunk could be written to the
terminal. -/
inductive Received
  | bytes (n : Nat) (shown : Bool)
  | eof
  | again
  | failed
deriving DecidableEq

/-- A step of the child or of the parent. -/
inductive CommandEvent
  | write (s : List Byte)
  | close
  | exit (st : WaitStatus)
  | poll (r : Polled)
  | read (r : Received)
  | waitpid
deriving DecidableEq

/-- A step that cannot be taken in this state. -/
inductive NotNow
  | notNow
deriving DecidableEq

namespace Command

variable (capacity room : Nat)

/-- The branch of the loop for a chunk that was read. -/
def received (chunk : List Byte) (shown : Bool) (c : Command) : Command :=
  if !shown then { c with lost := chunk, pc := .wait }
  else
    let amount := min chunk.length (capacity - c.output.length)
    { c with
      output := if c.output.length < capacity then c.output ++ chunk.take amount else c.output
      consumed := c.consumed ++ chunk
      pc := .check }

/-- A step.  A pipe takes at most `room` bytes; it is ready for `poll` if there are
bytes in it or nobody can write to it; `read` takes any number of the bytes that
fit into the chunk. -/
def step (e : CommandEvent) (c : Command) : Except NotNow Command :=
  match e with
  | .write s =>
      if c.writeEnd ∧ c.child = none ∧ c.pipe.length + s.length ≤ room then
        .ok { c with pipe := c.pipe ++ s, written := c.written ++ s }
      else .error .notNow
  | .close =>
      if c.child = none then .ok { c with writeEnd := false } else .error .notNow
  | .exit st =>
      if c.child = none then .ok { c with child := some st, writeEnd := false }
      else .error .notNow
  | .poll r =>
      if c.pc ≠ .poll then .error .notNow
      else
        match r with
        | .ready =>
            if c.pipe ≠ [] ∨ c.writeEnd = false then .ok { c with pc := .read } else .error .notNow
        | .timeout =>
            if c.pipe = [] ∧ c.writeEnd then .ok { c with pc := .check } else .error .notNow
        | .interrupted => .ok c
        | .failed => .ok { c with pc := .wait }
  | .read r =>
      if c.pc ≠ .read then .error .notNow
      else
        match r with
        | .bytes n shown =>
            if 0 < n ∧ n ≤ chunkSize ∧ n ≤ c.pipe.length then
              .ok (received capacity (c.pipe.take n) shown { c with pipe := c.pipe.drop n })
            else .error .notNow
        | .eof =>
            if c.pipe = [] ∧ c.writeEnd = false then .ok { c with pc := .wait } else .error .notNow
        | .again => .ok { c with pc := .check }
        | .failed => .ok { c with pc := .wait }
  | .waitpid =>
      if c.pc ≠ .check ∧ c.pc ≠ .wait then .error .notNow
      else
        match c.child with
        | some st => .ok { c with pc := .done, status := some st }
        | none => if c.pc = .check then .ok { c with pc := .poll } else .error .notNow

/-- What `run_command` promises at its end: the first `capacity` bytes that the child
wrote, and its exit status. -/
def Complete (c : Command) : Prop :=
  c.output = c.written.take capacity ∧
    ∃ st, c.child = some st ∧ c.status.map WaitStatus.exitStatus = some st.exitStatus

/-- Nothing is left that would be missing in the capture, or that is full. -/
def NothingMissing (c : Command) : Prop :=
  c.lost ++ c.pipe = [] ∨ capacity ≤ c.consumed.length

/-- The condition on the steps of the parent: `waitpid` finds the child gone only
when no byte is left in the pipe and none was dropped, or the capture is full. -/
def Drained (e : CommandEvent) (c : Command) : Prop :=
  e = .waitpid → c.child ≠ none → NothingMissing capacity c

/-- Every byte is accounted for. -/
structure Accounted (c : Command) : Prop where
  written : c.written = c.consumed ++ (c.lost ++ c.pipe)
  output : c.output = c.consumed.take capacity
  lost : c.pc = .poll ∨ c.pc = .read ∨ c.pc = .check → c.lost = []
  status : c.pc = .done → c.child ≠ none ∧ c.status = c.child

variable {capacity room : Nat} {c d : Command} {e : CommandEvent} {es : List CommandEvent}

/-- A chunk is captured as far as there is room. -/
theorem Accounted.received {chunk : List Byte} {shown : Bool} {rest : List Byte}
    (h : Accounted capacity c) (hpc : c.pc = .read) (hpipe : c.pipe = chunk ++ rest) :
    Accounted capacity (received capacity chunk shown { c with pipe := rest }) := by
  have hlost := h.lost (.inr (.inl hpc))
  have hwritten := h.written
  rw [hlost, List.nil_append, hpipe] at hwritten
  unfold Command.received
  cases shown with
  | false =>
    refine ⟨?_, h.output, fun hno => ?_, fun hno => nomatch hno⟩
    · exact hwritten
    · rcases hno with hno | hno | hno <;> cases hno
  | true =>
    refine ⟨?_, ?_, fun _ => hlost, fun hno => nomatch hno⟩
    · show c.written = c.consumed ++ chunk ++ (c.lost ++ rest)
      rw [hlost, hwritten, List.nil_append, List.append_assoc]
    · show (if c.output.length < capacity then
        c.output ++ chunk.take (min chunk.length (capacity - c.output.length)) else c.output) =
          (c.consumed ++ chunk).take capacity
      have hlen : c.output.length = min capacity c.consumed.length := by
        rw [h.output, List.length_take]
      rw [List.take_append, h.output]
      split
      · rename_i hlt
        rw [← h.output, hlen] at hlt ⊢
        have hroom : capacity - min capacity c.consumed.length = capacity - c.consumed.length := by
          omega
        rw [hroom, Nat.min_comm, ← List.take_take, List.take_length]
      · rename_i hge
        rw [← h.output, hlen] at hge
        have hzero : capacity - c.consumed.length = 0 := by omega
        rw [hzero, List.take_zero, List.append_nil]

/-- **A step keeps the account.** -/
theorem Accounted.step (h : Accounted capacity c) (hstep : step capacity room e c = .ok d) :
    Accounted capacity d := by
  cases e with
  | write s =>
    simp only [Command.step] at hstep
    split at hstep
    · rename_i hroom
      cases hstep
      refine ⟨?_, h.output, h.lost, fun hdone => absurd hroom.2.1 (h.status hdone).1⟩
      show c.written ++ s = c.consumed ++ (c.lost ++ (c.pipe ++ s))
      rw [h.written]
      simp only [List.append_assoc]
    · cases hstep
  | close =>
    simp only [Command.step] at hstep
    split at hstep
    · cases hstep
      exact ⟨h.written, h.output, h.lost, h.status⟩
    · cases hstep
  | exit st =>
    simp only [Command.step] at hstep
    split at hstep
    · rename_i hnone
      cases hstep
      exact ⟨h.written, h.output, h.lost, fun hdone => absurd hnone (h.status hdone).1⟩
    · cases hstep
  | poll r =>
    simp only [Command.step] at hstep
    split at hstep
    · cases hstep
    · rename_i hpc
      have hlost := h.lost (.inl (not_not.mp hpc))
      have hmove : ∀ pc, pc ≠ .done → Accounted capacity { c with pc := pc } := fun pc hne =>
        ⟨h.written, h.output, fun _ => hlost, fun hdone => absurd hdone hne⟩
      cases r with
      | ready =>
        dsimp only at hstep
        split at hstep
        · cases hstep
          exact hmove _ (by decide)
        · cases hstep
      | timeout =>
        dsimp only at hstep
        split at hstep
        · cases hstep
          exact hmove _ (by decide)
        · cases hstep
      | interrupted =>
        cases hstep
        exact h
      | failed =>
        cases hstep
        exact hmove _ (by decide)
  | read r =>
    simp only [Command.step] at hstep
    split at hstep
    · cases hstep
    · rename_i hpc
      have hread := not_not.mp hpc
      have hlost := h.lost (.inr (.inl hread))
      have hmove : ∀ pc, pc ≠ .done → Accounted capacity { c with pc := pc } := fun pc hne =>
        ⟨h.written, h.output, fun _ => hlost, fun hdone => absurd hdone hne⟩
      cases r with
      | bytes n shown =>
        dsimp only at hstep
        split at hstep
        · cases hstep
          exact h.received hread (List.take_append_drop n c.pipe).symm
        · cases hstep
      | eof =>
        dsimp only at hstep
        split at hstep
        · cases hstep
          exact hmove _ (by decide)
        · cases hstep
      | again =>
        cases hstep
        exact hmove _ (by decide)
      | failed =>
        cases hstep
        exact hmove _ (by decide)
  | waitpid =>
    simp only [Command.step] at hstep
    split at hstep
    · cases hstep
    · cases hchild : c.child with
      | some st =>
        rw [hchild] at hstep
        cases hstep
        refine ⟨h.written, h.output, fun hno => ?_, fun _ => ?_⟩
        · rcases hno with hno | hno | hno <;> cases hno
        · exact ⟨Option.some_ne_none st, rfl⟩
      | none =>
        rw [hchild] at hstep
        dsimp only at hstep
        split at hstep
        · rename_i hpc
          cases hstep
          exact ⟨h.written, h.output, fun _ => h.lost (.inr (.inr hpc)), fun hno => nomatch hno⟩
        · cases hstep

theorem accounted_start : Accounted capacity start :=
  ⟨rfl, List.take_nil.symm, fun _ => rfl, fun hno => nomatch hno⟩

/-- A prefix is the prefix of what goes on exactly if it is full or nothing follows. -/
theorem take_eq_take_append_iff {A : Type} (n : Nat) (l r : List A) :
    l.take n = (l ++ r).take n ↔ r = [] ∨ n ≤ l.length := by
  rw [List.take_append, List.self_eq_append_right, List.take_eq_nil_iff]
  constructor
  · rintro (hz | hr)
    · exact .inr (by omega)
    · exact .inl hr
  · rintro (hr | hle)
    · exact .inr hr
    · exact .inl (by omega)

/-- At the end the capture is complete if nothing is missing. -/
theorem Accounted.complete_iff (h : Accounted capacity c) (hdone : c.pc = .done) :
    Complete capacity c ↔ NothingMissing capacity c := by
  obtain ⟨hchild, hstatus⟩ := h.status hdone
  obtain ⟨st, hst⟩ := Option.ne_none_iff_exists'.mp hchild
  unfold Complete NothingMissing
  rw [h.output, h.written, take_eq_take_append_iff, hstatus, hst]
  simp

/-- After the end there are no steps. -/
theorem Accounted.terminal (h : Accounted capacity c) (hdone : c.pc = .done) :
    Command.step capacity room e c = .error .notNow := by
  obtain ⟨st, hst⟩ := Option.ne_none_iff_exists'.mp (h.status hdone).1
  cases e <;> simp [Command.step, hdone, hst]

/-- The `waitpid` that finds the child gone is the last step, and changes none of the
bytes. -/
theorem step_waitpid (hchild : c.child ≠ none) (hstep : step capacity room .waitpid c = .ok d) :
    d.pc = .done ∧ (NothingMissing capacity d ↔ NothingMissing capacity c) := by
  obtain ⟨st, hst⟩ := Option.ne_none_iff_exists'.mp hchild
  simp only [step, hst] at hstep
  split at hstep
  · cases hstep
  · cases hstep
    exact ⟨rfl, Iff.rfl⟩

/-- No other step is the last one. -/
theorem step_other (hc : c.pc ≠ .done) (hno : e = .waitpid → c.child = none)
    (hstep : step capacity room e c = .ok d) : d.pc ≠ .done := by
  cases e with
  | write s =>
    simp only [step] at hstep
    split at hstep <;> cases hstep
    exact hc
  | close =>
    simp only [step] at hstep
    split at hstep <;> cases hstep
    exact hc
  | exit st =>
    simp only [step] at hstep
    split at hstep <;> cases hstep
    exact hc
  | poll r =>
    simp only [step] at hstep
    split at hstep
    · cases hstep
    · cases r <;> dsimp only at hstep <;> (try split at hstep) <;> cases hstep <;> simp [hc]
  | read r =>
    simp only [step] at hstep
    split at hstep
    · cases hstep
    · cases r with
      | bytes n shown =>
        dsimp only at hstep
        split at hstep <;> cases hstep
        cases shown <;> exact fun hdone => nomatch hdone
      | eof =>
        dsimp only at hstep
        split at hstep <;> cases hstep
        exact fun hdone => nomatch hdone
      | again =>
        cases hstep
        exact fun hdone => nomatch hdone
      | failed =>
        cases hstep
        exact fun hdone => nomatch hdone
  | waitpid =>
    simp only [step, hno rfl] at hstep
    split at hstep
    · cases hstep
    · split at hstep <;> cases hstep
      exact fun hdone => nomatch hdone

/-- A run from the end is empty. -/
theorem Accounted.run_done {ok : CommandEvent → Command → Prop} (h : Accounted capacity c)
    (hdone : c.pc = .done) (hrun : Run (Command.step capacity room) ok c es d) :
    es = [] ∧ d = c := by
  cases hrun with
  | nil => exact ⟨rfl, rfl⟩
  | cons hok hstep tail =>
    rw [h.terminal hdone] at hstep
    cases hstep

/-- The condition on the steps of a run is the one on its end. -/
theorem Accounted.run_iff (h : Accounted capacity c) (hc : c.pc ≠ .done) (hdone : d.pc = .done)
    (hrun : Run (Command.step capacity room) Any c es d) :
    NothingMissing capacity d ↔ Run (Command.step capacity room) (Drained capacity) c es d := by
  induction hrun with
  | nil => exact absurd hdone hc
  | @cons c m d e es _ hstep tail ih =>
    have hm := h.step hstep
    by_cases hlast : e = .waitpid ∧ c.child ≠ none
    · obtain ⟨rfl, hchild⟩ := hlast
      obtain ⟨hmdone, hbytes⟩ := step_waitpid hchild hstep
      obtain ⟨rfl, rfl⟩ := hm.run_done hmdone tail
      rw [hbytes]
      constructor
      · exact fun hnothing => Run.cons (fun _ _ => hnothing) hstep (Run.nil _)
      · intro hdrained
        cases hdrained with
        | cons hok _ _ => exact hok rfl hchild
    · have hno : e = .waitpid → c.child = none := fun he => by
        by_contra hchild
        exact hlast ⟨he, hchild⟩
      rw [ih hm (step_other hc hno hstep) hdone]
      constructor
      · exact fun hdrained => Run.cons (fun he hchild => absurd (hno he) hchild) hstep hdrained
      · intro hdrained
        cases hdrained with
        | cons _ hstep' tail' =>
          rw [hstep] at hstep'
          cases hstep'
          exact tail'

theorem accounted_run (hrun : Run (step capacity room) Any start es c) : Accounted capacity c :=
  hrun.preserves (Accounted capacity) (fun _ _ _ h _ hstep => h.step hstep) accounted_start

end Command

open Command

/-- **`run_command` returns the first `capacity` bytes that the child wrote, and its
exit status,** in exactly the runs in which `waitpid` finds the child gone after the
last byte has been read from the pipe, or after the capture is full. -/
theorem output_complete_iff (capacity room : Nat) (es : List CommandEvent) (c : Command)
    (hrun : Run (step capacity room) Any start es c) (hdone : c.pc = .done) :
    Complete capacity c ↔ Run (step capacity room) (Drained capacity) start es c := by
  rw [(accounted_run hrun).complete_iff hdone]
  exact accounted_start.run_iff (by decide) hdone hrun

/-- A child that writes a byte and exits, and a parent that reads it first. -/
def readFirst : List CommandEvent :=
  [.write [97], .exit (.exited 0), .poll .ready, .read (.bytes 1 true), .waitpid]

/-- The same child, but it exits between `poll` and `waitpid`. -/
def exitFirst : List CommandEvent :=
  [.poll .timeout, .write [97], .exit (.exited 0), .waitpid]

/-- The byte that is read before the child is found gone is in the output. -/
theorem output_complete_read_first :
    ∃ c, Run (step captureSize 65536) Any start readFirst c ∧ c.written = [97] ∧
      Complete captureSize c := by
  have hends : Machine.checks (step captureSize 65536)
      (fun e c => decide (e = .waitpid → c.lost ++ c.pipe = []))
      (fun c => decide (c.pc = .done ∧ c.written = [97])) readFirst start = true := by
    decide +kernel
  have hok : ∀ (e : CommandEvent) (c : Command),
      decide (e = .waitpid → c.lost ++ c.pipe = []) = true → Drained captureSize e c :=
    fun e c h he _ => .inl (of_decide_eq_true h he)
  obtain ⟨c, hrun, htest⟩ := Machine.exists_of_checks hok hends
  obtain ⟨hdone, hwritten⟩ := of_decide_eq_true htest
  have hany : Run (step captureSize 65536) Any start readFirst c := hrun.mono fun _ _ _ => trivial
  exact ⟨c, hany, hwritten, (output_complete_iff captureSize 65536 readFirst c hany hdone).mpr hrun⟩

/-- **A byte that is written between `poll` and the `waitpid` that finds the child
gone is lost.** -/
theorem output_loses_last_byte :
    ¬ ∀ (es : List CommandEvent) (c : Command),
      Run (step captureSize 65536) Any start es c → c.pc = .done → Complete captureSize c := by
  intro hall
  have hends : Machine.checks (step captureSize 65536) (fun _ _ => true)
      (fun c => decide (c.pc = .done ∧ c.output = [] ∧ c.written = [97])) exitFirst start = true := by
    decide +kernel
  obtain ⟨c, hrun, htest⟩ := Machine.exists_of_checks (fun _ _ _ => trivial) hends
  obtain ⟨hdone, hout, hwritten⟩ := of_decide_eq_true htest
  have hcomplete := (hall exitFirst c hrun hdone).1
  rw [hout, hwritten] at hcomplete
  cases hcomplete

end Agent
