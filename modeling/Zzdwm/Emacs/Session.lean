import Zzdwm.Emacs.Replay

/-!
# Commands, and a session with one buffer

A command saves undo records between `startsaveundo` and `endsaveundo`; here it
is a sequence of text primitives and of cursor moves that it records.

* `command`, `motion` — an editing command, and one that only moves the cursor.
-/

namespace Emacs

/-- Put the cursor on a line and an offset in it, or on the header line if there
is no such line.  Every place for the cursor is one of these. -/
def Ed.place (l o : Nat) (e : Ed) : Ed :=
  match e.lines[l]? with
  | some p => e.setDot ⟨p, min o (e.line p).wllength⟩
  | none => e.setDot ⟨e.b_linep, 0⟩

/-- An edit of a command. -/
inductive Edit
  | linsert (a : Insertion)
  | lnewline
  | ldelete (n : Int)
  | move (l o : Nat)
  deriving DecidableEq

/-- Do an edit; a move is saved with `saveundo (UMOVE, &curwp->w_dot)`. -/
def Edit.run (x : Edit) (e : Ed) : Ed :=
  match x with
  | linsert a => (Emacs.linsert a e).1
  | lnewline => (Emacs.lnewline e).1
  | ldelete n => (Emacs.ldelete n e).1
  | move l o => (e.place l o).saveundo .UMOVE (e.place l o).dot

/-- Do some edits. -/
def runEdits (xs : List Edit) (e : Ed) : Ed := xs.foldl (fun e x => x.run e) e

/-- An editing command. -/
def command (xs : List Edit) (e : Ed) : Ed := (runEdits xs e.startsaveundo).endsaveundo

/-- A command that only moves the cursor. -/
def motion (l o : Nat) (e : Ed) : Ed := e.startsaveundo.place l o

end Emacs
