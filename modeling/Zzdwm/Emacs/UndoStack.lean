import Zzdwm.Emacs.State

/-!
# The undo stack (`undo.c`)

A command saves a record of each of its edits.  Its records make up a group,
unless its first one is an insertion that goes on where the last one before it
ended: that joins the record, and the group, of the last one.

`ngroups` counts the groups of both lists.  (`freeundostack`, which reverting a
buffer uses, empties the lists and leaves the count alone; it is not part of the
model.)
-/

namespace Emacs

/-- Maximum number of undo operations saved. -/
def N_UNDO : Nat := 100

namespace UNDOSTACK

/-- `newstack`. -/
def empty : UNDOSTACK := ⟨[], [], 0, rfl⟩

variable (st : UNDOSTACK)

/-- `freegrouplist (st, &st->redolist)`. -/
def freeredo : UNDOSTACK where
  undolist := st.undolist
  redolist := []
  ngroups := st.ngroups - st.redolist.length
  count := by
    have h := st.count
    rw [List.length_nil]
    omega

/-- `lastundo`. -/
def lastundo : Option UNDO := st.undolist.head?.bind fun g => g.undos.getLast?

/-- The part of `newundo` that starts a group; the oldest one is recycled if
there are too many. -/
def newgroup (g : UNDOGROUP) : UNDOSTACK :=
  if st.ngroups ≥ N_UNDO then
    { st with
      undolist := (g :: st.undolist).dropLast
      count := by simpa using st.count }
  else
    { st with
      undolist := g :: st.undolist
      ngroups := st.ngroups + 1
      count := by
        have h := st.count
        rw [List.length_cons]
        omega }

/-- Change the records of the newest group. -/
def modlast (f : List UNDO → List UNDO) : UNDOSTACK :=
  { st with
    undolist := st.undolist.modifyHead fun g => { g with undos := f g.undos }
    count := by simpa using st.count }

/-- `newundo`; `first` tells whether `startl` has been set by `startsaveundo`. -/
def newundo (first b_flag : Bool) (up : UNDO) : UNDOSTACK :=
  if first then st.newgroup ⟨[up], b_flag⟩ else st.modlast (· ++ [up])

end UNDOSTACK

/-- What `saveundo` is given: a kind and the arguments of that kind. -/
inductive Saved
  | UMOVE
  | UDELETE (chars : Nat) (s : List Byte)
  | UINSERT (copies chars : Nat) (s : List Byte)

/-- The record that a `saveundo` makes, unless it joins one. -/
def Saved.step : Saved → UStep
  | .UMOVE => .UMOVE
  | .UDELETE chars s => .UDELETE chars s
  | .UINSERT copies chars s => .UINSERT (chars * copies) (List.replicate copies s).flatten

/-- Does an insertion at a position join the record `prev`?  With no position,
`l` and `o` are -1 on both sides. -/
def UNDO.joins (prev : UNDO) (pos : Option (Nat × Nat)) : Bool :=
  match prev.step with
  | .UINSERT chars _ =>
      match prev.pos, pos with
      | some (l, o), some (line, offset) => l = line && o + chars = offset
      | none, none => chars = 0
      | _, _ => false
  | _ => false

/-- Join an insertion to a record.  The number of characters grows by that of one
copy. -/
def UNDO.join (copies chars : Nat) (s : List Byte) (prev : UNDO) : UNDO :=
  match prev.step with
  | .UINSERT c t =>
      { prev with step := .UINSERT (c + chars) (t ++ (List.replicate copies s).flatten) }
  | _ => prev

namespace Ed

/-- `startsaveundo`. -/
def startsaveundo (e : Ed) : Ed :=
  { e with start := some (e.lineno e.dot.p, e.dot.o), b_flag := e.bfchg, undoing := false }

/-- `endsaveundo`, which does nothing. -/
def endsaveundo (e : Ed) : Ed := e

/-- The position that `saveundo` puts into the record. -/
def savepos (pos : Option POS) (e : Ed) : Option (Nat × Nat) :=
  match pos with
  | some p => some (e.lineno p.p, p.o)
  | none => e.start

/-- Does an insertion that is saved at `pos` join the last record? -/
def joinsLast (pos : Option (Nat × Nat)) (e : Ed) : Bool :=
  match e.b_undo.lastundo with
  | some prev => prev.joins pos
  | none => false

/-- The undo stack after `saveundo`. -/
def savestack (k : Saved) (pos : Option POS) (e : Ed) : UNDOSTACK :=
  let st := e.b_undo.freeredo
  match k with
  | .UINSERT copies chars s =>
      if e.joinsLast (e.savepos pos) then
        st.modlast fun us => us.modifyLast (UNDO.join copies chars s)
      else st.newundo e.start.isSome e.b_flag ⟨e.savepos pos, k.step⟩
  | _ => st.newundo e.start.isSome e.b_flag ⟨e.savepos pos, k.step⟩

/-- `saveundo`. -/
def saveundo (k : Saved) (pos : Option POS) (e : Ed) : Ed :=
  if e.undoing then e else { e with b_undo := e.savestack k pos, start := none }

end Ed

end Emacs
