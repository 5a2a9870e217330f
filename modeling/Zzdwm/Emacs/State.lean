import Zzdwm.Emacs.Utf8

/-!
# The state of the editor (`def.h`, `undo.c`)

One buffer, the windows that show it, and the statics of `undo.c`.  Lines live
in a heap addressed by `LineId`; the circular list of a buffer is the list of
its lines without the header line.  An address is handed out once, so a position
in a line that was freed stays recognisable as such.

Left out is what no modelled routine reads: the flags that steer redisplay, the
caches of the syntax colours, the kill buffer, the goal column and the other
buffers, whose windows hold no position in this one.  Memory is taken to be
large enough.
-/

namespace Emacs

/-- The address of a `LINE`, 0 being `NULL`. -/
abbrev LineId := Nat

/-- `NULL`. -/
def null : LineId := 0

/-- `LINE`: the bytes in use, and how many there is room for. -/
structure LINE where
  l_size : Nat
  l_text : List Byte

/-- `l_used`. -/
def LINE.l_used (l : LINE) : Nat := l.l_text.length

/-- `wllength`. -/
def LINE.wllength (l : LINE) : Nat := unslen l.l_text

def NBLOCK : Nat := 16

/-- `lalloc`, and the text that its caller fills in. -/
def lalloc (text : List Byte) : LINE where
  l_size :=
    let size := (text.length + NBLOCK - 1) / NBLOCK * NBLOCK
    if size = 0 then NBLOCK else size
  l_text := text

/-- `lallocx`. -/
def lallocx (text : List Byte) : LINE := ⟨text.length, text⟩

/-- `POS`. -/
structure POS where
  p : LineId
  o : Nat
  deriving DecidableEq

def RINGSIZE : Nat := 16

/-- `MARKRING`. -/
structure MARKRING where
  m_count : Nat
  m_ring : Fin RINGSIZE → POS
  count_le : m_count ≤ RINGSIZE

/-- `EWINDOW`. -/
structure EWINDOW where
  w_linep : LineId
  w_savep : LineId
  w_dot : POS
  w_ring : MARKRING

/-- `w_mark`. -/
def EWINDOW.w_mark (w : EWINDOW) : POS := w.w_ring.m_ring ⟨0, by decide⟩

/-- What an `UNDO` is of: its kind, and the union. -/
inductive UStep
  | UMOVE
  | UDELETE (chars : Nat) (s : List Byte)
  | UINSERT (chars : Nat) (s : List Byte)
  deriving DecidableEq

/-- `UNDO`.  `l` and `o` are `NOLINE` together, which is `none`. -/
structure UNDO where
  pos : Option (Nat × Nat)
  step : UStep
  deriving DecidableEq

/-- `UNDOGROUP`.  Of its `b_flag` only `BFCHG` is ever looked at. -/
structure UNDOGROUP where
  undos : List UNDO
  b_flag : Bool
  deriving DecidableEq

/-- `UNDOSTACK`: the two lists of groups, newest first, and how many groups there
are. -/
structure UNDOSTACK where
  undolist : List UNDOGROUP
  redolist : List UNDOGROUP
  ngroups : Nat
  count : ngroups = undolist.length + redolist.length

/-- The buffer (`b_linep` is its header line, `bfchg` and `bfro` are the bits of
`b_flag`), its windows, and the statics of `undo.c`: `start` is `startl` and
`starto`. -/
structure Ed where
  line : LineId → LINE
  nextline : LineId
  b_linep : LineId
  lines : List LineId
  bfchg : Bool
  bfro : Bool
  b_fname : String
  b_undo : UNDOSTACK
  curwp : EWINDOW
  others : List EWINDOW
  start : Option (Nat × Nat)
  undoing : Bool
  b_flag : Bool

namespace Ed

variable (e : Ed)

/-- `curwp->w_dot`. -/
def dot : POS := e.curwp.w_dot

/-- The text of the buffer, as the bytes of its lines. -/
def text : List (List Byte) := e.lines.map fun p => (e.line p).l_text

/-- `lforw`. -/
def lforw (lp : LineId) : LineId :=
  if lp = e.b_linep then e.lines.headD e.b_linep
  else (e.lines.dropWhile (· ≠ lp)).tail.headD e.b_linep

/-- `lineno`.  The walk stops at the last line, so the header line has the number
of that. -/
def lineno (lp : LineId) : Nat := min (e.lines.idxOf lp) (e.lines.length - 1)

/-- Store a line in the heap. -/
def setLine (lp : LineId) (l : LINE) : Ed := { e with line := Function.update e.line lp l }

/-- Put the cursor somewhere. -/
def setDot (p : POS) : Ed := { e with curwp := { e.curwp with w_dot := p } }

/-- `ALLWIND`; the argument tells the current window. -/
def allwind (f : Bool → EWINDOW → EWINDOW) : Ed :=
  { e with curwp := f true e.curwp, others := e.others.map (f false) }

/-- `lchange`. -/
def lchange : Ed := { e with bfchg := true }

end Ed

/-- The loops over the marks of a ring. -/
def MARKRING.adjust (f : POS → POS) (r : MARKRING) : MARKRING :=
  { r with m_ring := fun i => if i.val < r.m_count then f (r.m_ring i) else r.m_ring i }

end Emacs
