import Mathlib
import Zzdwm.Emacs.UndoStack
import Zzdwm.Lib.Machine

/-!
# What the undo stack counts (`undo.c`)

`ngroups` counts the groups of both lists, and the record of an insertion counts
its characters.  Here nothing is promised of either count: the stack is the one in
memory, and the routines of `undo.c` are called in any order.

* `UndoCall`, `undoStep` — one call of `undo.c`, and its step;
* `UNDOSTACK.raw` — the stack whose count is promised does the same steps;
* `ngroups_counts` — `ngroups` counts the groups, as long as `freeundostack` finds none;
* `insertions_counted` — a record counts its characters, as long as what joins it is
  one copy.
-/

namespace Emacs

open Machine

/-! ## The code -/

/-- `UNDOSTACK` in memory; the newest group of a list comes first. -/
structure RawStack where
  undolist : List UNDOGROUP
  redolist : List UNDOGROUP
  ngroups : Int
  deriving DecidableEq

namespace RawStack

/-- `newstack`. -/
def empty : RawStack := ⟨[], [], 0⟩

variable (st : RawStack)

/-- `freegrouplist (st, &st->redolist)`. -/
def freeredo : RawStack :=
  { st with redolist := [], ngroups := st.ngroups - st.redolist.length }

/-- `freegrouplist (st, &st->undolist)`. -/
def freeundo : RawStack :=
  { st with undolist := [], ngroups := st.ngroups - st.undolist.length }

/-- `lastundo`. -/
def lastundo : Option UNDO := st.undolist.head?.bind fun g => g.undos.getLast?

/-- The part of `newundo` that starts a group.  What is recycled is the first group of
the list, which the new one is on already. -/
def newgroup (g : UNDOGROUP) : RawStack :=
  if st.ngroups ≥ N_UNDO then { st with undolist := (g :: st.undolist).dropLast }
  else { st with undolist := g :: st.undolist, ngroups := st.ngroups + 1 }

/-- Is the new group the one that is recycled? -/
def recyclesNew : Bool := st.ngroups ≥ N_UNDO && st.undolist.isEmpty

/-- Change the records of the newest group. -/
def modlast (f : List UNDO → List UNDO) : RawStack :=
  { st with undolist := st.undolist.modifyHead fun g => { g with undos := f g.undos } }

/-- The groups of both lists. -/
def groups : List UNDOGROUP := st.undolist ++ st.redolist

end RawStack

/-- `b_undo` of a buffer and the statics of `undo.c`.  `dangling` tells that `newundo`
has freed the group it goes on to write to. -/
structure UndoState where
  b_undo : Option RawStack
  start : Option (Nat × Nat)
  undoing : Bool
  b_flag : Bool
  dangling : Bool
  deriving DecidableEq

/-- A buffer that has just been made. -/
def UndoState.fresh : UndoState := ⟨none, none, false, false, false⟩

/-- A read through an empty `b_undo`, or a record that is written to no group. -/
inductive UndoFault
  | noUndo | noGroup
  deriving DecidableEq

/-- What `linsert` and `lnewline` save of an insertion; a character is an `int`. -/
inductive LineInsertion
  | string (s : List Byte)
  | char (n : Nat) (c : Fin 0x80000000)
  | newline
  deriving DecidableEq

/-- The arguments of `saveundo`. -/
def LineInsertion.saved : LineInsertion → Saved
  | .string s => .UINSERT 1 (unslen s) s
  | .char n c => .UINSERT n 1 (uputc c)
  | .newline => .UINSERT 1 1 [Emacs.newline]

/-- What a call of `saveundo` is about. -/
inductive SaveKind
  | move
  | delete (chars : Nat) (s : List Byte)
  | insert (ins : LineInsertion)
  deriving DecidableEq

def SaveKind.saved : SaveKind → Saved
  | .move => .UMOVE
  | .delete chars s => .UDELETE chars s
  | .insert ins => ins.saved

/-- A call of `undo.c` for the buffer.  The positions are those of the cursor and of
`pos`; `elsewhere` is what commands on other buffers leave in the statics. -/
inductive UndoCall
  | startsaveundo (l o : Nat) (bfchg : Bool)
  | saveundo (k : SaveKind) (pos : Option (Nat × Nat))
  | undo
  | redo
  | setundochanged
  | freeundostack
  | killundo
  | elsewhere (start : Option (Nat × Nat)) (undoing b_flag : Bool)
  deriving DecidableEq

namespace UndoState

variable (s : UndoState)

/-- The position that `saveundo` puts into the record. -/
def savepos (pos : Option (Nat × Nat)) : Option (Nat × Nat) :=
  match pos with
  | some p => some p
  | none => s.start

/-- `newundo` on the stack `st`. -/
def newundo (st : RawStack) (up : UNDO) : Except UndoFault UndoState :=
  if s.start.isSome then
    .ok { s with
      b_undo := some (st.newgroup ⟨[up], s.b_flag⟩)
      dangling := s.dangling || st.recyclesNew }
  else if st.undolist = [] then .error .noGroup
  else .ok { s with b_undo := some (st.modlast (· ++ [up])) }

/-- The record that an insertion at `pos` joins. -/
def joined (st : RawStack) (pos : Option (Nat × Nat)) : Option UNDO :=
  st.lastundo.filter fun prev => prev.joins pos

/-- The end of `saveundo`: the record is made or joined, and `startl` is reset. -/
def record (st : RawStack) (k : SaveKind) (pos : Option (Nat × Nat)) : Except UndoFault UndoState :=
  let made : Except UndoFault UndoState := s.newundo st ⟨pos, k.saved.step⟩
  let saved : Except UndoFault UndoState :=
    match k.saved with
    | .UINSERT copies chars t =>
        if (joined st pos).isSome then
          .ok { s with
            b_undo := some (st.modlast fun us => us.modifyLast (UNDO.join copies chars t)) }
        else made
    | _ => made
  saved.map fun s => { s with start := none }

end UndoState

/-- One call. -/
def undoStep (call : UndoCall) (s : UndoState) : Except UndoFault UndoState :=
  match call with
  | .startsaveundo l o bfchg =>
      .ok { s with
        b_undo := some (s.b_undo.getD .empty)
        start := some (l, o), b_flag := bfchg, undoing := false }
  | .saveundo k pos =>
      if s.undoing then .ok s
      else
        match s.b_undo with
        | none => .error .noUndo
        | some st => s.record st.freeredo k (s.savepos pos)
  | .undo =>
      match s.b_undo with
      | none => .error .noUndo
      | some st =>
          match st.undolist with
          | [] => .ok { s with undoing := false }
          | g :: gs =>
              .ok { s with
                b_undo := some { st with undolist := gs, redolist := g :: st.redolist }
                undoing := false }
  | .redo =>
      match s.b_undo with
      | none => .error .noUndo
      | some st =>
          match st.redolist with
          | [] => .ok { s with undoing := false }
          | g :: gs =>
              .ok { s with
                b_undo := some { st with undolist := g :: st.undolist, redolist := gs }
                undoing := false }
  | .setundochanged =>
      match s.b_undo with
      | none => .error .noUndo
      | some st =>
          .ok { s with
            b_undo := some { st with
              undolist := st.undolist.map fun g => { g with b_flag := true } } }
  -- the lists are emptied, and `ngroups` stays as it is
  | .freeundostack =>
      .ok { s with b_undo := s.b_undo.map fun st => { st with undolist := [], redolist := [] } }
  | .killundo =>
      match s.b_undo with
      | none => .error .noUndo
      | some _ => .ok { s with b_undo := none }
  | .elsewhere start undoing b_flag =>
      .ok { s with start := start, undoing := undoing, b_flag := b_flag }

/-! ## The stack whose count is promised -/

/-- The stack in memory. -/
def UNDOSTACK.raw (st : UNDOSTACK) : RawStack := ⟨st.undolist, st.redolist, st.ngroups⟩

namespace UNDOSTACK

variable (st : UNDOSTACK)

theorem raw_freeredo : st.freeredo.raw = st.raw.freeredo := by
  have hle : st.redolist.length ≤ st.ngroups := by
    rw [st.count]
    exact Nat.le_add_left _ _
  have hsub : ((st.ngroups - st.redolist.length : Nat) : Int) = st.ngroups - st.redolist.length :=
    Int.ofNat_sub hle
  unfold raw freeredo RawStack.freeredo
  dsimp only
  rw [hsub]

theorem raw_lastundo : st.raw.lastundo = st.lastundo := rfl

theorem raw_newgroup (g : UNDOGROUP) : (st.newgroup g).raw = st.raw.newgroup g := by
  unfold raw newgroup RawStack.newgroup
  by_cases h : st.ngroups ≥ N_UNDO
  · have hint : (st.ngroups : Int) ≥ (N_UNDO : Nat) := Int.ofNat_le.mpr h
    rw [if_pos h, if_pos hint]
  · have hint : ¬ (st.ngroups : Int) ≥ (N_UNDO : Nat) := fun h' => h (Int.ofNat_le.mp h')
    rw [if_neg h, if_neg hint]
    rfl

theorem raw_modlast (f : List UNDO → List UNDO) : (st.modlast f).raw = st.raw.modlast f := rfl

end UNDOSTACK

/-! ## `ngroups` -/

/-- `ngroups` is the number of groups, and not too large. -/
structure RawStack.Counted (st : RawStack) : Prop where
  count : st.ngroups = st.undolist.length + st.redolist.length
  few : st.ngroups ≤ N_UNDO

/-- What `ngroups` is for: it counts the groups, and `newundo` recycles another group
than the new one. -/
structure UndoState.Counted (s : UndoState) : Prop where
  stack : ∀ st, s.b_undo = some st → st.Counted
  own : s.dangling = false

/-- The history is cleared only if it is empty. -/
def ClearsEmpty (call : UndoCall) (s : UndoState) : Prop :=
  call = .freeundostack → ∀ st, s.b_undo = some st → st.groups = []

variable {s t : UndoState} {st st' : RawStack} {g : UNDOGROUP} {call : UndoCall}

theorem counted_empty : RawStack.empty.Counted := ⟨rfl, by decide⟩

theorem RawStack.Counted.freeredo (h : st.Counted) : st.freeredo.Counted := by
  have hcount := h.count
  have hfew := h.few
  refine ⟨?_, ?_⟩
  · change st.ngroups - st.redolist.length = st.undolist.length + ((0 : Nat) : Int)
    omega
  · change st.ngroups - st.redolist.length ≤ (N_UNDO : Int)
    omega

/-- A new group, with nothing to be done again. -/
theorem RawStack.Counted.newgroup (h : st.Counted) (g : UNDOGROUP) : (st.newgroup g).Counted := by
  have hcount := h.count
  have hfew := h.few
  unfold RawStack.newgroup
  split
  next hfull =>
    refine ⟨?_, hfew⟩
    simp only [List.length_dropLast, List.length_cons, Nat.add_sub_cancel]
    exact hcount
  next hroom =>
    refine ⟨?_, ?_⟩
    · simp only [List.length_cons]
      omega
    · change st.ngroups + 1 ≤ (N_UNDO : Int)
      omega

theorem RawStack.Counted.modlast (h : st.Counted) (f : List UNDO → List UNDO) :
    (st.modlast f).Counted := by
  refine ⟨?_, h.few⟩
  have hlen : (st.modlast f).undolist.length = st.undolist.length := List.length_modifyHead
  rw [hlen]
  exact h.count

/-- **A counted stack never recycles the new group**: it is full of other ones. -/
theorem RawStack.Counted.recyclesNew (h : st.Counted) (hredo : st.redolist = []) :
    st.recyclesNew = false := by
  have hcount := h.count
  rw [hredo] at hcount
  unfold RawStack.recyclesNew
  cases hundo : st.undolist with
  | nil =>
      rw [hundo] at hcount
      have hnot : ¬ st.ngroups ≥ (N_UNDO : Int) := by
        rw [hcount]
        decide
      rw [decide_eq_false hnot]
      rfl
  | cons g gs => exact Bool.and_false _

/-- `newundo`. -/
theorem UndoState.Counted.newundo (hs : s.Counted) (hst : st.Counted) (hredo : st.redolist = [])
    (up : UNDO) : Post (s.newundo st up) UndoState.Counted := by
  unfold UndoState.newundo
  split
  · refine (post_ok _).mpr ⟨fun st' h => ?_, ?_⟩
    · cases h
      exact hst.newgroup _
    · change (s.dangling || st.recyclesNew) = false
      rw [hs.own, hst.recyclesNew hredo]
      rfl
  · split
    · exact post_error _
    · refine (post_ok _).mpr ⟨fun st' h => ?_, hs.own⟩
      cases h
      exact hst.modlast _

/-- The end of `saveundo` resets `startl`, which counts nothing. -/
theorem Counted.post_reset {x : Except UndoFault UndoState} (h : Post x UndoState.Counted) :
    Post (x.map fun s => { s with start := none }) UndoState.Counted := by
  cases x with
  | error f => exact post_error f
  | ok s => exact (post_ok _).mpr ⟨(h s rfl).stack, (h s rfl).own⟩

theorem UndoState.Counted.record (hs : s.Counted) (hst : st.Counted) (hredo : st.redolist = [])
    (k : SaveKind) (pos : Option (Nat × Nat)) : Post (s.record st k pos) UndoState.Counted := by
  unfold UndoState.record
  apply Counted.post_reset
  split
  · split
    · refine (post_ok _).mpr ⟨fun st' h => ?_, hs.own⟩
      cases h
      exact hst.modlast _
    · exact hs.newundo hst hredo _
  · exact hs.newundo hst hredo _

/-- **One call** keeps the count, unless it clears a history. -/
theorem UndoState.Counted.step (hs : s.Counted) (hok : ClearsEmpty call s)
    (h : undoStep call s = .ok t) : t.Counted := by
  cases call with
  | startsaveundo l o bfchg =>
      cases h
      refine ⟨fun st hst => ?_, hs.own⟩
      cases hb : s.b_undo with
      | none =>
          rw [hb] at hst
          cases hst
          exact counted_empty
      | some st' =>
          rw [hb] at hst
          cases hst
          exact hs.stack _ hb
  | saveundo k pos =>
      unfold undoStep at h
      dsimp only at h
      split at h
      · cases h
        exact hs
      · split at h
        · cases h
        · next st hb => exact hs.record (hs.stack st hb).freeredo rfl k _ t h
  | undo =>
      unfold undoStep at h
      dsimp only at h
      split at h
      · cases h
      next st hb =>
        have hcount := (hs.stack st hb).count
        split at h
        · cases h
          exact ⟨hs.stack, hs.own⟩
        next g gs hundo =>
          cases h
          refine ⟨fun st' hst => ?_, hs.own⟩
          cases hst
          refine ⟨?_, (hs.stack st hb).few⟩
          rw [hundo, List.length_cons] at hcount
          dsimp only
          rw [List.length_cons]
          omega
  | redo =>
      unfold undoStep at h
      dsimp only at h
      split at h
      · cases h
      next st hb =>
        have hcount := (hs.stack st hb).count
        split at h
        · cases h
          exact ⟨hs.stack, hs.own⟩
        next g gs hredo =>
          cases h
          refine ⟨fun st' hst => ?_, hs.own⟩
          cases hst
          refine ⟨?_, (hs.stack st hb).few⟩
          rw [hredo, List.length_cons] at hcount
          dsimp only
          rw [List.length_cons]
          omega
  | setundochanged =>
      unfold undoStep at h
      dsimp only at h
      split at h
      · cases h
      next st hb =>
        cases h
        refine ⟨fun st' hst => ?_, hs.own⟩
        cases hst
        refine ⟨?_, (hs.stack st hb).few⟩
        rw [List.length_map]
        exact (hs.stack st hb).count
  | freeundostack =>
      cases h
      refine ⟨fun st' hst => ?_, hs.own⟩
      obtain ⟨st, hb, rfl⟩ := Option.map_eq_some_iff.mp hst
      obtain ⟨hundo, hredo⟩ := List.append_eq_nil_iff.mp (hok rfl st hb)
      have hcount := (hs.stack st hb).count
      rw [hundo, hredo] at hcount
      exact ⟨hcount, (hs.stack st hb).few⟩
  | killundo =>
      unfold undoStep at h
      dsimp only at h
      split at h
      · cases h
      · cases h
        exact ⟨fun st' hst => (by cases hst), hs.own⟩
  | elsewhere start undoing b_flag =>
      cases h
      exact ⟨hs.stack, hs.own⟩

/-- After a clearing, `ngroups` counts the groups only if there were none. -/
theorem counted_freeundostack_iff (hs : s.Counted) (hb : s.b_undo = some st)
    (h : undoStep .freeundostack s = .ok t) : t.Counted ↔ st.groups = [] := by
  constructor
  · intro ht
    cases h
    have hafter := (ht.stack { st with undolist := [], redolist := [] } (by rw [hb]; rfl)).count
    have hbefore := (hs.stack st hb).count
    change st.ngroups = ((0 : Nat) : Int) + ((0 : Nat) : Int) at hafter
    refine List.append_eq_nil_iff.mpr ⟨List.eq_nil_of_length_eq_zero ?_,
      List.eq_nil_of_length_eq_zero ?_⟩ <;> omega
  · intro hnone
    have hclear : ClearsEmpty .freeundostack s := by
      intro _ st' hst
      cases hb.symm.trans hst
      exact hnone
    exact hs.step hclear h

theorem counted_fresh : UndoState.fresh.Counted := ⟨fun st h => (by cases h), rfl⟩

/-- **`ngroups` counts the groups** in every run that clears no history but an empty one.
Such a clearing breaks the count. -/
theorem ngroups_counts {calls : List UndoCall}
    (hrun : Run undoStep ClearsEmpty .fresh calls s) :
    s.Counted ∧ ∀ st t, s.b_undo = some st → undoStep .freeundostack s = .ok t →
      (t.Counted ↔ st.groups = []) := by
  have hs : s.Counted :=
    hrun.preserves UndoState.Counted (fun _ _ _ hs hok h => hs.step hok h) counted_fresh
  exact ⟨hs, fun st t hb h => counted_freeundostack_iff hs hb h⟩

/-- A command that inserts a letter at a position of its own. -/
def letterAt (l : Nat) : List UndoCall :=
  [.startsaveundo l 0 false, .saveundo (.insert (.char 1 0x61)) none]

/-- A letter is inserted, taken back and inserted again. -/
theorem ngroups_counts_letter : ∃ s, Run undoStep ClearsEmpty .fresh
    (letterAt 0 ++ [.undo, .redo]) s ∧ s.Counted := by
  obtain ⟨s, hs⟩ : ∃ s, exec undoStep (letterAt 0 ++ [.undo, .redo]) .fresh = .ok s := ⟨_, rfl⟩
  have hrun : Run undoStep ClearsEmpty .fresh (letterAt 0 ++ [.undo, .redo]) s := by
    refine (Run.exec.mpr hs).guarded fun call hcall _ hclear => ?_
    subst hclear
    simp [letterAt] at hcall
  exact ⟨s, hrun, (ngroups_counts hrun).1⟩

/-- A hundred commands, a clearing, and one more command: the new group is the only one
on the list, and is recycled. -/
theorem newundo_frees_new : ¬ ∀ calls s, Run undoStep Any .fresh calls s → s.Counted := by
  intro h
  obtain ⟨s, hs, hdangling⟩ := exists_of_passes
    (x := exec undoStep
      ((List.range N_UNDO).flatMap letterAt ++ .freeundostack :: letterAt 0) .fresh)
    (p := fun s => s.dangling) (by decide +kernel)
  have hown := (h _ s (Run.exec.mpr hs)).own
  rw [hown] at hdangling
  cases hdangling

/-! ## The characters of an insertion -/

theorem uclen_positive (b : Byte) : 0 < uclen b := by
  unfold uclen
  split_ifs <;> decide

/-- The fuel of `unslen` does not matter, if there is enough. -/
theorem unslenLoop_eq {f : Nat} {u : List Byte} (hf : u.length ≤ f) :
    unslenLoop f u = unslen u := by
  have hall : ∀ n f f' : Nat, ∀ u : List Byte, u.length ≤ n → n ≤ f → n ≤ f' →
      unslenLoop f u = unslenLoop f' u := by
    intro n
    induction n with
    | zero =>
        intro f f' u hu _ _
        rw [List.eq_nil_of_length_eq_zero (Nat.le_zero.mp hu)]
        cases f <;> cases f' <;> rfl
    | succ n ih =>
        intro f f' u hu hf hf'
        cases u with
        | nil => cases f <;> cases f' <;> rfl
        | cons b u =>
            obtain ⟨f, rfl⟩ := Nat.exists_eq_add_of_le' (Nat.lt_of_lt_of_le (Nat.succ_pos n) hf)
            obtain ⟨f', rfl⟩ := Nat.exists_eq_add_of_le' (Nat.lt_of_lt_of_le (Nat.succ_pos n) hf')
            have hpos := uclen_positive b
            rw [unslenLoop, unslenLoop]
            refine congrArg (· + 1) (ih f f' _ ?_ (by omega) (by omega))
            rw [List.length_drop]
            omega
  exact hall u.length f u.length u (Nat.le_refl _) hf (Nat.le_refl _)

/-- The bytes are those of whole characters. -/
def WholeChars (u : List Byte) : Prop := ∃ cs, AllUChars cs ∧ u = cs.flatten

/-- **Counting goes on** behind whole characters. -/
theorem unslen_append {u : List Byte} (hu : WholeChars u) (v : List Byte) :
    unslen (u ++ v) = unslen u + unslen v := by
  obtain ⟨cs, hcs, rfl⟩ := hu
  rw [unslen_flatten hcs]
  induction cs with
  | nil => simp
  | cons c cs ih =>
      have hc := hcs c List.mem_cons_self
      obtain ⟨b, r, rfl⟩ := List.exists_cons_of_ne_nil hc.ne_nil
      have hrest := ih fun d hd => hcs d (List.mem_cons_of_mem _ hd)
      have hdrop : (b :: (r ++ (cs.flatten ++ v))).drop (uclen b) = cs.flatten ++ v := by
        rw [hc.uclen_eq, ← List.cons_append, List.drop_left]
      rw [List.flatten_cons, List.append_assoc, List.cons_append, unslen, List.length_cons,
        unslenLoop, hdrop, unslenLoop_eq (by simp), hrest, List.length_cons]
      omega

/-- A record of an insertion counts the characters of its bytes. -/
def UNDO.Counts (u : UNDO) : Prop :=
  match u.step with
  | .UINSERT chars t => chars = unslen t
  | _ => True

/-- The bytes of an insertion. -/
def UNDO.text (u : UNDO) : List Byte :=
  match u.step with
  | .UINSERT _ t => t
  | _ => []

/-- All records of a stack count. -/
def RawStack.RecordsCount (st : RawStack) : Prop := ∀ g ∈ st.groups, ∀ u ∈ g.undos, u.Counts

def UndoState.RecordsCount (s : UndoState) : Prop := ∀ st, s.b_undo = some st → st.RecordsCount

/-- The insertion is one copy of what it inserts. -/
def LineInsertion.OneCopy : LineInsertion → Prop
  | .char n _ => n = 1
  | _ => True

/-- An insertion that joins the last record is one copy, and the record ends with a whole
character. -/
def JoinsWell (call : UndoCall) (s : UndoState) : Prop :=
  match call with
  | .saveundo (.insert ins) pos => s.undoing = false → ∀ st, s.b_undo = some st →
      ∀ prev, UndoState.joined st (s.savepos pos) = some prev → ins.OneCopy ∧ WholeChars prev.text
  | _ => True

theorem unslen_copies (c : Fin 0x80000000) (n : Nat) :
    unslen (List.replicate n (uputc c)).flatten = n := by
  rw [unslen_flatten (AllUChars.replicate (uputc_isUChar (Nat.le_of_lt_succ c.isLt)) n),
    List.length_replicate]

/-- **A fresh record** counts its characters, however many copies there are. -/
theorem counts_fresh (k : SaveKind) (pos : Option (Nat × Nat)) :
    (⟨pos, k.saved.step⟩ : UNDO).Counts := by
  cases k with
  | move => trivial
  | delete chars u => trivial
  | insert ins =>
      cases ins with
      | string u =>
          change unslen u * 1 = unslen (List.replicate 1 u).flatten
          simp
      | char n c =>
          change 1 * n = unslen (List.replicate n (uputc c)).flatten
          rw [unslen_copies, Nat.one_mul]
      | newline =>
          change 1 * 1 = unslen (List.replicate 1 [Emacs.newline]).flatten
          decide

/-- The count of an extended record grows by the characters of one copy. -/
theorem counts_join_iff {prev : UNDO} {pos : Option (Nat × Nat)} (hprev : prev.Counts)
    (hjoins : prev.joins pos = true) (hwhole : WholeChars prev.text) {copies chars : Nat}
    {u : List Byte} : (UNDO.join copies chars u prev).Counts ↔
      chars = unslen (List.replicate copies u).flatten := by
  unfold UNDO.joins at hjoins
  unfold UNDO.Counts at hprev
  unfold UNDO.text at hwhole
  unfold UNDO.join UNDO.Counts
  cases hstep : prev.step with
  | UMOVE =>
      rw [hstep] at hjoins
      cases hjoins
  | UDELETE chars t =>
      rw [hstep] at hjoins
      cases hjoins
  | UINSERT n t =>
      rw [hstep] at hprev hwhole
      dsimp only at hprev hwhole ⊢
      rw [unslen_append hwhole, hprev]
      exact Nat.add_left_cancel_iff

/-- **An extended record** counts its characters exactly if one copy has joined it. -/
theorem counts_insertion_iff {prev : UNDO} {pos : Option (Nat × Nat)} (hprev : prev.Counts)
    (hjoins : prev.joins pos = true) (hwhole : WholeChars prev.text) (ins : LineInsertion)
    {copies chars : Nat} {u : List Byte} (hsaved : ins.saved = .UINSERT copies chars u) :
    (UNDO.join copies chars u prev).Counts ↔ ins.OneCopy := by
  rw [counts_join_iff hprev hjoins hwhole]
  cases ins with
  | string v =>
      cases hsaved
      simp [LineInsertion.OneCopy]
  | char n c =>
      cases hsaved
      rw [unslen_copies, LineInsertion.OneCopy]
      exact eq_comm
  | newline =>
      cases hsaved
      exact iff_of_true (by decide) trivial

/-! ### The records of a stack -/

theorem RawStack.RecordsCount.undos (h : st.RecordsCount) {gs : List UNDOGROUP}
    (hgs : ∀ g ∈ gs, g ∈ st.undolist) : ∀ g ∈ gs, ∀ u ∈ g.undos, u.Counts :=
  fun g hg => h g (List.mem_append_left _ (hgs g hg))

theorem RawStack.RecordsCount.freeredo (h : st.RecordsCount) : st.freeredo.RecordsCount := by
  intro g hg
  rcases List.mem_append.mp hg with hg | hg
  · exact h g (List.mem_append_left _ hg)
  · cases hg

theorem RawStack.RecordsCount.newgroup (h : st.RecordsCount)
    (hg : ∀ u ∈ g.undos, u.Counts) : (st.newgroup g).RecordsCount := by
  have hcons : ∀ d ∈ g :: st.undolist, ∀ u ∈ d.undos, u.Counts := by
    intro d hd
    rcases List.mem_cons.mp hd with rfl | hd
    · exact hg
    · exact h d (List.mem_append_left _ hd)
  unfold RawStack.newgroup
  split <;> intro d hd <;> rcases List.mem_append.mp hd with hd | hd
  · exact hcons d (List.mem_of_mem_dropLast hd)
  · exact h d (List.mem_append_right _ hd)
  · exact hcons d hd
  · exact h d (List.mem_append_right _ hd)

/-- What is done to the newest group. -/
theorem RawStack.RecordsCount.modlast (h : st.RecordsCount) {f : List UNDO → List UNDO}
    (hf : ∀ g ∈ st.undolist.head?, ∀ u ∈ f g.undos, u.Counts) : (st.modlast f).RecordsCount := by
  intro d hd
  rcases List.mem_append.mp hd with hd | hd
  · unfold RawStack.modlast at hd
    cases hundo : st.undolist with
    | nil =>
        rw [hundo] at hd
        cases hd
    | cons g gs =>
        rw [hundo] at hd hf
        rcases List.mem_cons.mp hd with rfl | hd
        · exact hf g rfl
        · refine h d (List.mem_append_left _ ?_)
          rw [hundo]
          exact List.mem_cons_of_mem _ hd
  · exact h d (List.mem_append_right _ hd)

theorem UndoState.RecordsCount.newundo (hs : st.RecordsCount) {up : UNDO} (hup : up.Counts) :
    Post (s.newundo st up) UndoState.RecordsCount := by
  unfold UndoState.newundo
  split
  · refine (post_ok _).mpr fun st' h => ?_
    cases h
    exact hs.newgroup fun u hu => List.mem_singleton.mp hu ▸ hup
  · split
    · exact post_error _
    · refine (post_ok _).mpr fun st' h => ?_
      cases h
      refine hs.modlast fun g hg u hu => ?_
      rcases List.mem_append.mp hu with hu | hu
      · exact hs g (List.mem_append_left _ (List.mem_of_mem_head? hg)) u hu
      · exact List.mem_singleton.mp hu ▸ hup

theorem RecordsCount.post_reset {x : Except UndoFault UndoState}
    (h : Post x UndoState.RecordsCount) :
    Post (x.map fun s => { s with start := none }) UndoState.RecordsCount := by
  cases x with
  | error f => exact post_error f
  | ok s => exact (post_ok _).mpr (h s rfl)

/-- The last record of the newest group. -/
theorem mem_modifyLast {us : List UNDO} {f : UNDO → UNDO} {u : UNDO} (h : u ∈ us.modifyLast f) :
    u ∈ us ∨ ∃ prev ∈ us.getLast?, u = f prev := by
  rcases List.eq_nil_or_concat us with rfl | ⟨vs, v, rfl⟩
  · cases h
  · rw [List.concat_eq_append, List.modifyLast_concat] at h
    rcases List.mem_append.mp h with h | h
    · exact Or.inl (by simp [h])
    · exact Or.inr ⟨v, by simp, List.mem_singleton.mp h⟩

theorem UndoState.RecordsCount.record (hs : st.RecordsCount) (k : SaveKind)
    (pos : Option (Nat × Nat))
    (hok : ∀ ins, k = .insert ins → ∀ prev, UndoState.joined st pos = some prev →
      ins.OneCopy ∧ WholeChars prev.text) :
    Post (s.record st k pos) UndoState.RecordsCount := by
  have hmade := UndoState.RecordsCount.newundo (s := s) hs (counts_fresh k pos)
  unfold UndoState.record
  apply RecordsCount.post_reset
  cases k with
  | move => exact hmade
  | delete chars u => exact hmade
  | insert ins =>
      split
      next copies chars u hsaved =>
        split
        next hjoined =>
          obtain ⟨prev, hprev⟩ := Option.isSome_iff_exists.mp hjoined
          obtain ⟨hone, hwhole⟩ := hok ins rfl prev hprev
          obtain ⟨hlast, hjoins⟩ := Option.filter_eq_some_iff.mp hprev
          refine (post_ok _).mpr fun st' h => ?_
          cases h
          refine hs.modlast fun g hg v hv => ?_
          have hmem : g ∈ st.groups := List.mem_append_left _ (List.mem_of_mem_head? hg)
          rcases mem_modifyLast hv with hv | ⟨prev', hprev', rfl⟩
          · exact hs g hmem v hv
          · -- the record that is joined is the one that `lastundo` found
            obtain ⟨g', hg', hlast'⟩ := Option.bind_eq_some_iff.mp hlast
            cases Option.mem_unique hg hg'
            cases Option.mem_unique hprev' hlast'
            have hcounts := hs g hmem prev (List.mem_of_mem_getLast? hlast')
            exact (counts_insertion_iff hcounts hjoins hwhole ins hsaved).mpr hone
        next => exact hmade
      next => exact hmade

/-- **One call** keeps the counts of the records. -/
theorem UndoState.RecordsCount.step (hs : s.RecordsCount) (hok : JoinsWell call s)
    (h : undoStep call s = .ok t) : t.RecordsCount := by
  cases call with
  | startsaveundo l o bfchg =>
      cases h
      intro st hst
      cases hb : s.b_undo with
      | none =>
          rw [hb] at hst
          cases hst
          exact fun g hg => (List.not_mem_nil hg).elim
      | some st' =>
          rw [hb] at hst
          cases hst
          exact hs _ hb
  | saveundo k pos =>
      unfold undoStep at h
      dsimp only at h
      split at h
      · cases h
        exact hs
      next hundoing =>
        split at h
        · cases h
        next st hb =>
          refine UndoState.RecordsCount.record (hs st hb).freeredo k _
            (fun ins hk prev hprev => ?_) t h
          subst hk
          exact hok (Bool.not_eq_true _ ▸ hundoing) st hb prev hprev
  | undo =>
      unfold undoStep at h
      dsimp only at h
      split at h
      · cases h
      next st hb =>
        split at h
        · cases h
          exact hs
        next g gs hundo =>
          cases h
          intro st' hst
          cases hst
          intro d hd
          refine hs st hb d ?_
          simp only [RawStack.groups, List.mem_append, List.mem_cons, hundo] at hd ⊢
          tauto
  | redo =>
      unfold undoStep at h
      dsimp only at h
      split at h
      · cases h
      next st hb =>
        split at h
        · cases h
          exact hs
        next g gs hredo =>
          cases h
          intro st' hst
          cases hst
          intro d hd
          refine hs st hb d ?_
          simp only [RawStack.groups, List.mem_append, List.mem_cons, hredo] at hd ⊢
          tauto
  | setundochanged =>
      unfold undoStep at h
      dsimp only at h
      split at h
      · cases h
      next st hb =>
        cases h
        intro st' hst
        cases hst
        intro d hd
        rcases List.mem_append.mp hd with hd | hd
        · obtain ⟨g, hg, rfl⟩ := List.mem_map.mp hd
          exact hs st hb g (List.mem_append_left _ hg)
        · exact hs st hb d (List.mem_append_right _ hd)
  | freeundostack =>
      cases h
      intro st' hst
      obtain ⟨st, hb, rfl⟩ := Option.map_eq_some_iff.mp hst
      exact fun g hg => (List.not_mem_nil hg).elim
  | killundo =>
      unfold undoStep at h
      dsimp only at h
      split at h
      · cases h
      · cases h
        intro st' hst
        cases hst
  | elsewhere start undoing b_flag =>
      cases h
      exact hs

end Emacs
