import Zzdwm.Emacs.Hexl
import Zzdwm.Emacs.Replay

/-!
# Saves that fail (`file.c`, `undo.c`)

`filesave` and `filewrite` with the whole of what they may touch in a buffer: the
lines, the file name, the flags and the undo history.

* `TextIo` — what happens around a save;
* `FileBuffer.writeout`, `FileBuffer.filesave`, `FileBuffer.filewrite` — the routines;
* `writeout_spec` — what a failing `writeout` leaves behind;
* `save_retriable_iff` — **when a failing save leaves the buffer as it was**.

The bytes that get written to a text file and the messages are left out.
-/

namespace Emacs

/-- A buffer as far as a save is concerned. -/
structure FileBuffer extends Dump where
  b_undo : UNDOSTACK

/-- What happens around a save of a text: `autonl`, whether a keyboard macro is
running, the answer to the question about the last newline (`none` if it is
aborted), whether there is memory for the line, which lines can be written, and
what `ffclose` says. -/
structure TextIo extends SaveIo where
  autonl : Bool
  kbdmop : Bool
  addnl : Option Bool
  alloc : Bool
  puts : Nat → Bool
  closes : Bool

/-- What `writeout` does about a last line that is not empty: it goes no further
(`none`), or it says whether there is to be a new line. -/
def TextIo.newline (io : TextIo) (lines : List (List Byte)) : Option Bool :=
  if lines.getLast?.getD [] ≠ [] ∧ io.kbdmop = false then
    match if io.autonl then some true else io.addnl with
    | none => none
    | some false => some false
    | some true => if io.alloc then some true else none
  else some false

/-- The file opens, every line gets written, and the file closes. -/
def TextIo.writes (io : TextIo) (lines : List (List Byte)) : Bool :=
  io.opens && (List.range lines.length).all io.puts && io.closes

namespace FileBuffer

/-- The blank line at the end. -/
def addline (add : Bool) (bp : FileBuffer) : FileBuffer :=
  if add then { bp with lines := bp.lines ++ [[]] } else bp

/-- `writeout`, and whether it returns `TRUE`. -/
def writeout (io : TextIo) (bp : FileBuffer) : FileBuffer × Bool :=
  match io.newline bp.lines with
  | none => (bp, false)
  | some add => (bp.addline add, io.writes (bp.addline add).lines)

/-- `setundochanged`. -/
def setundochanged (bp : FileBuffer) : FileBuffer :=
  { bp with b_undo := bp.b_undo.setundochanged }

/-- `hexlsave`, which looks after the undo history as well. -/
def hexlsave (io : TextIo) (disk : List Byte) (bp : FileBuffer) : FileBuffer × Bool :=
  let (s, ok) := Emacs.hexlsave io.toSaveIo ⟨bp.toDump, bp.b_hexl, disk⟩
  let bp' : FileBuffer := { bp with toDump := s.curbp }
  (if ok && bp.bfchg then bp'.setundochanged else bp', ok)

/-- `filesave`. -/
def filesave (io : TextIo) (disk : List Byte) (bp : FileBuffer) : FileBuffer × Bool :=
  if bp.bfhexl then bp.hexlsave io disk
  else if !bp.bfchg then (bp, true)
  else if bp.b_fname = "" then (bp, false)
  else if io.stops bp.toDump then (bp, false)
  else
    let (bp, ok) := bp.writeout io
    let bp := if ok then { bp with bfchg := false } else bp
    (setundochanged { bp with bfbak := false }, ok)

/-- `filewrite`; `fname` is the name that was typed, if there is one and it is a
good one. -/
def filewrite (io : TextIo) (fname : Option String) (bp : FileBuffer) : FileBuffer × Bool :=
  if bp.bfhexl then (bp, false)
  else
    match fname with
    | none => (bp, false)
    | some fname =>
        let (bp, ok) := bp.writeout io
        let bp := if ok then { bp with b_fname := fname, bfchg := false } else bp
        ({ bp with bfbak := false }, ok)

end FileBuffer

/-- The two commands. -/
inductive SaveCommand
  | filesave
  | filewrite (fname : Option String)
  deriving DecidableEq

def SaveCommand.run (c : SaveCommand) (io : TextIo) (disk : List Byte) (bp : FileBuffer) :
    FileBuffer × Bool :=
  match c with
  | .filesave => bp.filesave io disk
  | .filewrite fname => bp.filewrite io fname

/-! ## What a failing save leaves behind -/

/-- Nothing goes wrong in `writeout`. -/
def TextIo.Succeeds (io : TextIo) (bp : FileBuffer) : Prop :=
  ∃ add, io.newline bp.lines = some add ∧ io.writes (bp.addline add).lines = true

/-- The command gets as far as `writeout`. -/
def SaveCommand.Reaches (c : SaveCommand) (io : TextIo) (bp : FileBuffer) : Prop :=
  bp.bfhexl = false ∧
    match c with
    | .filesave => bp.bfchg = true ∧ bp.b_fname ≠ "" ∧ io.stops bp.toDump = false
    | .filewrite fname => fname ≠ none

/-- Every group on the undo list says that the buffer was changed. -/
def UNDOSTACK.Flagged (st : UNDOSTACK) : Prop := ∀ g ∈ st.undolist, g.b_flag = true

variable {io : TextIo} {disk : List Byte} {bp : FileBuffer} {c : SaveCommand}

theorem UNDOSTACK.setundochanged_eq_iff (st : UNDOSTACK) :
    st.setundochanged = st ↔ st.Flagged := by
  obtain ⟨undolist, redolist, ngroups, count⟩ := st
  simp only [UNDOSTACK.setundochanged, UNDOSTACK.mk.injEq, UNDOSTACK.Flagged, and_true]
  clear count
  induction undolist with
  | nil => simp
  | cons g gs ih =>
      obtain ⟨undos, b_flag⟩ := g
      simp only [List.map_cons, List.cons.injEq, UNDOGROUP.mk.injEq, true_and, List.forall_mem_cons,
        ih]
      exact and_congr_left fun _ => eq_comm

/-- What `writeout` returns. -/
theorem writeout_iff (io : TextIo) (bp : FileBuffer) :
    (bp.writeout io).2 = true ↔ io.Succeeds bp := by
  unfold FileBuffer.writeout TextIo.Succeeds
  cases hnl : io.newline bp.lines with
  | none => simp
  | some add => simp

/-- It changes the lines at most, and those only if a line is to be added. -/
theorem writeout_spec (io : TextIo) (bp : FileBuffer) :
    (bp.writeout io).1 = bp.addline (io.newline bp.lines = some true) := by
  unfold FileBuffer.writeout
  cases hnl : io.newline bp.lines with
  | none => rfl
  | some add => cases add <;> rfl

/-- A line that is added makes a difference. -/
theorem addline_lines_iff (add : Bool) (bp : FileBuffer) :
    (bp.addline add).lines = bp.lines ↔ add = false := by
  cases add with
  | false => simp [FileBuffer.addline]
  | true => simp [FileBuffer.addline]

/-- The sibling for dumps changes nothing unless the bytes have been written. -/
theorem hexlsave_fails (h : (bp.hexlsave io disk).2 = false) : (bp.hexlsave io disk).1 = bp := by
  have hsame : ∀ s : Hexl, (hexlsave io.toSaveIo s).2 = false →
      (hexlsave io.toSaveIo s).1.curbp = s.curbp := by
    intro s hs
    unfold hexlsave at hs ⊢
    dsimp only at hs ⊢
    split at hs
    · rw [if_pos ‹_›]
    rename_i hhexl
    rw [if_neg hhexl]
    split at hs
    · cases hs
    rename_i hchg
    rw [if_neg hchg]
    split at hs
    · rw [if_pos ‹_›]
    rename_i hname
    rw [if_neg hname]
    split at hs
    · rw [if_pos ‹_›]
    rename_i hstop
    rw [if_neg hstop]
    split at hs
    · rw [if_pos ‹_›]
    rename_i hparse
    rw [if_neg hparse]
    split at hs
    · cases hs
    rename_i hok
    rw [if_neg hok]
  unfold FileBuffer.hexlsave at h ⊢
  dsimp only at h ⊢
  rw [hsame _ h, h]
  rfl

/-- Where the command gets to `writeout`, and that fails. -/
theorem run_reaches (h : c.Reaches io bp) (hfail : ¬ io.Succeeds bp) (disk : List Byte) :
    (c.run io disk bp).2 = false ∧
      (c.run io disk bp).1 =
        { bp.addline (io.newline bp.lines = some true) with
          bfbak := false
          b_undo := if c = .filesave then bp.b_undo.setundochanged else bp.b_undo } := by
  have hok : (bp.writeout io).2 = false := by
    rw [← Bool.not_eq_true, writeout_iff]
    exact hfail
  have hlines := writeout_spec io bp
  have hundo : ∀ add, (bp.addline add).b_undo = bp.b_undo := by
    intro add
    cases add <;> rfl
  obtain ⟨hhexl, h⟩ := h
  cases c with
  | filesave =>
      obtain ⟨hchg, hname, hstop⟩ := h
      rw [if_pos rfl, ← hundo (io.newline bp.lines = some true), ← hlines]
      simp [SaveCommand.run, FileBuffer.filesave, hhexl, hchg, hname, hstop, hok,
        FileBuffer.setundochanged]
  | filewrite fname =>
      cases fname with
      | none => exact absurd rfl h
      | some fname =>
          have hc : ¬ SaveCommand.filewrite (some fname) = .filesave := by
            intro hc
            cases hc
          rw [if_neg hc, ← hundo (io.newline bp.lines = some true), ← hlines]
          simp [SaveCommand.run, FileBuffer.filewrite, hhexl, hok]

/-- Everywhere else the command succeeds or changes nothing. -/
theorem run_elsewhere (h : ¬ (c.Reaches io bp ∧ ¬ io.Succeeds bp))
    (hfail : (c.run io disk bp).2 = false) : (c.run io disk bp).1 = bp := by
  have hok : c.Reaches io bp → (bp.writeout io).2 = true := by
    intro hreach
    rw [writeout_iff]
    by_contra hno
    exact h ⟨hreach, hno⟩
  cases c with
  | filesave =>
      simp only [SaveCommand.run] at hfail ⊢
      unfold FileBuffer.filesave at hfail ⊢
      split at hfail
      · rw [if_pos ‹_›]
        exact hexlsave_fails hfail
      rename_i hhexl
      rw [if_neg hhexl]
      split at hfail
      · cases hfail
      rename_i hchg
      rw [if_neg hchg]
      split at hfail
      · rw [if_pos ‹_›]
      rename_i hname
      rw [if_neg hname]
      split at hfail
      · rw [if_pos ‹_›]
      rename_i hstop
      have hwritten := hok ⟨by simpa using hhexl, by simpa using hchg, hname, by simpa using hstop⟩
      dsimp only at hfail
      rw [hwritten] at hfail
      cases hfail
  | filewrite fname =>
      simp only [SaveCommand.run] at hfail ⊢
      unfold FileBuffer.filewrite at hfail ⊢
      split at hfail
      · rw [if_pos ‹_›]
      rename_i hhexl
      rw [if_neg hhexl]
      cases fname with
      | none => rfl
      | some fname =>
          have hwritten := hok ⟨by simpa using hhexl, by simp⟩
          dsimp only at hfail
          rw [hwritten] at hfail
          cases hfail

/-- What must hold before the command for a failure of `writeout` to leave no trace. -/
structure Traceless (c : SaveCommand) (io : TextIo) (bp : FileBuffer) : Prop where
  newline : io.newline bp.lines ≠ some true
  bfbak : bp.bfbak = false
  undo : c = .filesave → bp.b_undo.Flagged

/-- **Retrying.**  A `filesave` or `filewrite` that does not return `TRUE` leaves the
lines, the file name, the flags and the undo history as they were exactly if
`writeout` is not reached, has no error, or finds no line to add, no backup to
make and, for `filesave`, no undo group that says the buffer was unchanged. -/
theorem save_retriable_iff (c : SaveCommand) (io : TextIo) (disk : List Byte) (bp : FileBuffer) :
    ((c.run io disk bp).2 = false → (c.run io disk bp).1 = bp) ↔
      (c.Reaches io bp → ¬ io.Succeeds bp → Traceless c io bp) := by
  constructor
  · intro h hreach hfail
    obtain ⟨hno, heq⟩ := run_reaches hreach hfail disk
    have hsame := heq.symm.trans (h hno)
    have hlines : (bp.addline (io.newline bp.lines = some true)).lines = bp.lines :=
      congrArg (fun b => b.lines) hsame
    have hbak : false = bp.bfbak := congrArg (fun b => b.bfbak) hsame
    have hundo := congrArg FileBuffer.b_undo hsame
    refine ⟨?_, hbak.symm, ?_⟩
    · rw [addline_lines_iff] at hlines
      exact of_decide_eq_false hlines
    · intro hc
      rw [← UNDOSTACK.setundochanged_eq_iff]
      simpa [hc] using hundo
  · intro h hno
    by_cases hreach : c.Reaches io bp ∧ ¬ io.Succeeds bp
    · obtain ⟨hnl, hbak, hundo⟩ := h hreach.1 hreach.2
      have hundo' : (if c = .filesave then bp.b_undo.setundochanged else bp.b_undo) =
          bp.b_undo := by
        split
        · rename_i hc
          exact (UNDOSTACK.setundochanged_eq_iff _).mpr (hundo hc)
        · rfl
      rw [(run_reaches hreach.1 hreach.2 disk).2, hundo', ← hbak, decide_eq_false hnl]
      rfl
    · exact run_elsewhere hreach hno

/-- A changed line without a newline, and a file that cannot be opened: the save
fails, and there is one line more. -/
theorem failing_save_adds_line : ¬ ∀ (c : SaveCommand) (io : TextIo) (disk : List Byte)
    (bp : FileBuffer), (c.run io disk bp).2 = false → (c.run io disk bp).1 = bp := by
  intro h
  have hsame := h .filesave
    { bflag := false, backup := none, anyway := false, opens := false, room := none,
      autonl := true, kbdmop := false, addnl := none, alloc := true, puts := fun _ => true,
      closes := true } []
    { lines := [[97]], bfhexl := false, bfchg := true, bfbak := true, b_fname := "f",
      b_hexl := ⟨8, false, true, by decide, fun h => by cases h⟩, b_undo := ⟨[], [], 0, rfl⟩ } rfl
  exact absurd (congrArg (fun b => b.lines) hsame) (by decide)

end Emacs
