import Zzdwm.Emacs.Edit

/-!
# Undo and redo (`undo.c`)

A group is undone stretch by stretch, last one first, a stretch beginning at each
record with a position; within a stretch the records are undone in the order in
which they were saved.  It is redone in that order throughout.
-/

namespace Emacs

/-- `gotoeob`. -/
def gotoeob (e : Ed) : Ed :=
  let p := e.lines.getLastD e.b_linep
  e.setDot ⟨p, (e.line p).wllength⟩

/-- `gotoline (TRUE, n, KRANDOM)`. -/
def gotoline (n : Nat) (e : Ed) : Ed × Bool :=
  if n = 0 then (gotoeob e, true)
  else
    match e.lines[n - 1]? with
    | some p => (e.setDot ⟨p, 0⟩, true)
    | none => (e, false)

/-- Where `undostep` and `redostep` go first. -/
def goundo (up : UNDO) (e : Ed) : Ed × Bool :=
  match up.pos with
  | some (l, o) =>
      let (e, status) := gotoline (l + 1) e
      (if o > (e.line e.dot.p).wllength then e else e.setDot { e.dot with o := o }, status)
  | none => (e, true)

/-- `undostep`. -/
def undostep (up : UNDO) (e : Ed) : Ed × Bool :=
  let (e, status) := goundo up e
  if !status then (e, false)
  else
    match up.step with
    | .UMOVE => (e, true)
    | .UDELETE _ s => insertwithnl s e
    | .UINSERT chars _ => ldelete chars e

/-- `redostep`. -/
def redostep (up : UNDO) (e : Ed) : Ed × Bool :=
  let (e, status) := goundo up e
  if !status then (e, false)
  else
    match up.step with
    | .UMOVE => (e, true)
    | .UDELETE chars _ => ldelete chars e
    | .UINSERT _ s => insertwithnl s e

/-- `for (up = start; up != end; up++)`, with the status of the steps that failed. -/
def playSteps (step : UNDO → Ed → Ed × Bool) (ups : List UNDO) (r : Ed × Bool) : Ed × Bool :=
  ups.foldl (fun r up =>
    let (e, s) := step up r.1
    (e, r.2 && s)) r

/-- The loop of `undo` over the records before `start`, which come in reverse;
`later` are the records from `start` to `end`. -/
def undoLoop : List UNDO → List UNDO → Ed × Bool → Ed × Bool
  | [], later, r => playSteps undostep later r
  | up :: rev, later, r =>
      if up.pos.isSome then undoLoop rev [] (playSteps undostep (up :: later) r)
      else undoLoop rev (up :: later) r

namespace UNDOSTACK

variable (st : UNDOSTACK)

/-- Move the newest group of the undo list to the redo list. -/
def popundo : UNDOSTACK :=
  match h : st.undolist with
  | [] => st
  | g :: gs => { st with
      undolist := gs
      redolist := g :: st.redolist
      count := by
        have hc := st.count
        rw [h, List.length_cons] at hc
        rw [List.length_cons]
        omega }

/-- Move the newest group of the redo list back to the undo list. -/
def popredo : UNDOSTACK :=
  match h : st.redolist with
  | [] => st
  | g :: gs => { st with
      undolist := g :: st.undolist
      redolist := gs
      count := by
        have hc := st.count
        rw [h, List.length_cons] at hc
        rw [List.length_cons]
        omega }

/-- `setundochanged`, which goes through the undo list only. -/
def setundochanged : UNDOSTACK :=
  { st with
    undolist := st.undolist.map fun g => { g with b_flag := true }
    count := by simpa using st.count }

end UNDOSTACK

/-- `undo`. -/
def undo (e : Ed) : Ed × Bool :=
  match e.b_undo.undolist with
  | [] => ({ e with undoing := false }, false)
  | g :: _ =>
      let (e, status) := undoLoop g.undos.reverse [] ({ e with undoing := true }, true)
      ({ e with bfchg := g.b_flag, b_undo := e.b_undo.popundo, undoing := false }, status)

/-- `redo`. -/
def redo (e : Ed) : Ed × Bool :=
  match e.b_undo.redolist with
  | [] => ({ e with undoing := false }, false)
  | g :: _ =>
      let (e, status) := playSteps redostep g.undos ({ e with undoing := true }, true)
      ({ e with bfchg := true, b_undo := e.b_undo.popredo, undoing := false }, status)

end Emacs
