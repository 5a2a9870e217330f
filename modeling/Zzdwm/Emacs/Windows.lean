import Zzdwm.Emacs.State

/-!
# Windows on the screen (`window.c`, `main.c`)

The windows in screen order, around the current one, and the buffers that they
show.  The text of lines is left out: a buffer is the list of its lines.

* `splitwind`, `enlargewind`, `shrinkwind`, `balancewindows`, `zapwind`,
  `onlywind`, `nextwind`, `prevwind` — the window commands;
* `bclear`, `readin` — how a buffer gets new lines;
* `startup` — the state that the files on the command line lead to.

`curbp` is the buffer of the current window, which the source keeps in a
variable of its own.  Terminals have at most 320 rows, so no row number
overflows.
-/

namespace Emacs

abbrev BufId := Nat

/-- Conversion to `char`. -/
def schar (x : Int) : Int := Int.bmod x 256

/-- `nullpos`. -/
def nullpos : POS := ⟨null, 0⟩

/-- `BUFFER`: `b_undo` tells whether there is an undo stack, `bfchg` and `bfhexl`
are bits of `b_flag`. -/
structure Buffer where
  b_linep : LineId
  lines : List LineId
  b_dot : POS
  b_ring : MARKRING
  b_nwnd : Int
  b_undo : Bool
  bfchg : Bool
  bfhexl : Bool
  b_active : Bool
  b_fname : String
  b_bname : String

theorem RINGSIZE_pos : 0 < RINGSIZE := by decide

/-- The first position of a ring. -/
def first : Fin RINGSIZE := ⟨0, RINGSIZE_pos⟩

/-- Set the current mark of a ring. -/
def MARKRING.setMark (pos : POS) (r : MARKRING) : MARKRING :=
  { r with m_ring := Function.update r.m_ring first pos }

/-- The current mark of a ring. -/
def MARKRING.mark (r : MARKRING) : POS := r.m_ring first

/-- `clearmarks`. -/
def clearmarks : MARKRING := ⟨0, fun _ => nullpos, by decide⟩

namespace Buffer

variable (b : Buffer)

/-- `b_mark`. -/
def b_mark : POS := b.b_ring.mark

/-- `lforw`. -/
def lforw (lp : LineId) : LineId :=
  if lp = b.b_linep then b.lines.headD b.b_linep
  else (b.lines.dropWhile (· ≠ lp)).tail.headD b.b_linep

/-- `lback`. -/
def lback (lp : LineId) : LineId :=
  if lp = b.b_linep then b.lines.getLastD b.b_linep
  else (b.lines.takeWhile (· ≠ lp)).getLastD b.b_linep

/-- `firstline`. -/
def firstline : LineId := b.lforw b.b_linep

/-- `lastline`. -/
def lastline : LineId := b.lback b.b_linep

/-- Some lines forward, but not past the last line. -/
def forward : Nat → LineId → LineId
  | 0, lp => lp
  | n + 1, lp => if lp = b.lastline then lp else forward n (b.lforw lp)

/-- Some lines back, but not past the first line. -/
def backward : Nat → LineId → LineId
  | 0, lp => lp
  | n + 1, lp => if lp = b.firstline then lp else backward n (b.lback lp)

/-- How many lines there are from one line to another. -/
def distance (dot : LineId) : Nat → LineId → Nat
  | 0, _ => 0
  | f + 1, lp => if lp = dot then 0 else distance dot f (b.lforw lp) + 1

/-- Some lines forward, over the header line too. -/
def skip : Nat → LineId → LineId
  | 0, lp => lp
  | n + 1, lp => skip n (b.lforw lp)

end Buffer

/-- `EWINDOW` with what the window commands use of it. -/
structure Window extends EWINDOW where
  w_bufp : BufId
  w_toprow : Int
  w_ntrows : Int
  w_flag : BitVec 8

def WFFORCE : BitVec 8 := 0x01
def WFMOVE : BitVec 8 := 0x02
def WFHARD : BitVec 8 := 0x08
def WFMODE : BitVec 8 := 0x10

/-- `w_flag |= WFMODE | WFHARD`. -/
def Window.redraw (w : Window) : Window := { w with w_flag := w.w_flag ||| (WFMODE ||| WFHARD) }

/-- The buffers, `above` and `below` the windows on either side of `curwp`, the
nearest one first, and the height of the terminal. -/
structure Windows where
  buffer : BufId → Buffer
  bheadp : List BufId
  above : List Window
  curwp : Window
  below : List Window
  nrow : Int
  nextline : LineId
  nextbuf : BufId

namespace Windows

variable (s : Windows)

/-- The list of windows from `wheadp` on. -/
def wheadp : List Window := s.above.reverse ++ s.curwp :: s.below

/-- `curbp`. -/
def curbp : BufId := s.curwp.w_bufp

/-- Is there only one window? -/
def only : Bool := s.above.isEmpty && s.below.isEmpty

/-- Assign to a buffer. -/
def modBuf (bp : BufId) (f : Buffer → Buffer) : Windows :=
  { s with buffer := Function.update s.buffer bp (f (s.buffer bp)) }

/-- `ALLWIND`. -/
def allwind (f : Window → Window) : Windows :=
  { s with above := s.above.map f, curwp := f s.curwp, below := s.below.map f }

end Windows

/-- `addwind`: the window, and the buffers. -/
def addwind (w : Window) (n : Int) (s : Windows) : Window × Windows :=
  let b := s.buffer w.w_bufp
  let w := if b.b_nwnd = 0 then { w with w_dot := b.b_dot, w_ring := b.b_ring } else w
  (w, s.modBuf w.w_bufp fun b =>
    let b := { b with b_nwnd := schar (b.b_nwnd + n) }
    if b.b_nwnd = 0 then { b with b_dot := w.w_dot, b_ring := w.w_ring } else b)

/-! ## Window commands -/

/-- `nextwind`. -/
def nextwind (s : Windows) : Windows :=
  match s.below with
  | w :: below => { s with above := s.curwp :: s.above, curwp := w, below := below }
  | [] =>
      match s.wheadp with
      | w :: below => { s with above := [], curwp := w, below := below }
      | [] => s

/-- `prevwind`. -/
def prevwind (s : Windows) : Windows :=
  match s.above with
  | w :: above => { s with above := above, curwp := w, below := s.curwp :: s.below }
  | [] =>
      match s.wheadp.reverse with
      | w :: above => { s with above := above, curwp := w, below := [] }
      | [] => s

/-- `onlywind`. -/
def onlywind (s : Windows) : Windows × Bool :=
  let s := s.above.reverse.foldl (fun s w => (addwind w (-1) s).2) s
  let s := s.below.foldl (fun s w => (addwind w (-1) s).2) s
  let w := s.curwp
  let lp := (s.buffer w.w_bufp).backward w.w_toprow.toNat w.w_linep
  ({ s with
      above := []
      curwp := Window.redraw { w with w_toprow := 0, w_ntrows := s.nrow - 2, w_linep := lp }
      below := [] }, true)

/-- `splitwind`. -/
def splitwind (s : Windows) : Windows × Bool :=
  let w := s.curwp
  if w.w_ntrows < 3 then (s, false)
  else
    let b := s.buffer w.w_bufp
    let s := s.modBuf w.w_bufp fun b => { b with b_nwnd := schar (b.b_nwnd + 1) }
    let ntru := (w.w_ntrows - 1).tdiv 2
    let ntrl := w.w_ntrows - 1 - ntru
    let ntrd : Int := b.distance w.w_dot.p (b.lines.length + 1) w.w_linep
    if ntrd ≤ ntru then
      -- the old window is the upper one
      let lp := if ntrd = ntru then b.lforw w.w_linep else w.w_linep
      let new := { w with
        w_toprow := w.w_toprow + ntru + 1, w_ntrows := ntrl, w_linep := lp, w_flag := 0, w_savep := null }
      let cur := { w with w_ntrows := ntru, w_linep := lp }
      ({ s with curwp := cur.redraw, below := new.redraw :: s.below }, true)
    else
      let lp := b.skip (ntru + 1).toNat w.w_linep
      let new := { w with w_ntrows := ntru, w_linep := lp, w_flag := 0, w_savep := null }
      let cur := { w with
        w_toprow := w.w_toprow + (ntru + 1), w_ntrows := ntrl, w_linep := lp }
      ({ s with above := new.redraw :: s.above, curwp := cur.redraw }, true)

/-- `enlargewind` with an argument that is not negative. -/
def enlarge (n : Int) (s : Windows) : Windows × Bool :=
  let w := s.curwp
  match s.below, s.above with
  | adj :: below, _ =>
      if adj.w_ntrows ≤ n then (s, false)
      else
        let lp := (s.buffer adj.w_bufp).forward n.toNat adj.w_linep
        let adj := { adj with
          w_linep := lp, w_toprow := adj.w_toprow + n, w_ntrows := adj.w_ntrows - n }
        let cur := { w with w_ntrows := w.w_ntrows + n }
        ({ s with curwp := cur.redraw, below := adj.redraw :: below }, true)
  | [], adj :: above =>
      if adj.w_ntrows ≤ n then (s, false)
      else
        let lp := (s.buffer w.w_bufp).backward n.toNat w.w_linep
        let adj := { adj with w_ntrows := adj.w_ntrows - n }
        let cur := { w with
          w_linep := lp, w_toprow := w.w_toprow - n, w_ntrows := w.w_ntrows + n }
        ({ s with above := adj.redraw :: above, curwp := cur.redraw }, true)
  | [], [] => (s, false)

/-- `shrinkwind` with an argument that is not negative. -/
def shrink (n : Int) (s : Windows) : Windows × Bool :=
  let w := s.curwp
  match s.below, s.above with
  | adj :: below, _ =>
      if w.w_ntrows ≤ n then (s, false)
      else
        let lp := (s.buffer adj.w_bufp).backward n.toNat adj.w_linep
        let adj := { adj with
          w_linep := lp, w_toprow := adj.w_toprow - n, w_ntrows := adj.w_ntrows + n }
        let cur := { w with w_ntrows := w.w_ntrows - n }
        ({ s with curwp := cur.redraw, below := adj.redraw :: below }, true)
  | [], adj :: above =>
      if w.w_ntrows ≤ n then (s, false)
      else
        let lp := (s.buffer w.w_bufp).forward n.toNat w.w_linep
        let adj := { adj with w_ntrows := adj.w_ntrows + n }
        let cur := { w with
          w_linep := lp, w_toprow := w.w_toprow + n, w_ntrows := w.w_ntrows - n }
        ({ s with above := adj.redraw :: above, curwp := cur.redraw }, true)
  | [], [] => (s, false)

/-- `enlargewind`. -/
def enlargewind (n : Int) (s : Windows) : Windows × Bool :=
  if n < 0 then shrink (-n) s else enlarge n s

/-- `shrinkwind`. -/
def shrinkwind (n : Int) (s : Windows) : Windows × Bool :=
  if n < 0 then enlarge (-n) s else shrink n s

/-- The second loop of `balancewindows`. -/
def balance (s : Windows) (size : Int) : Int → List Window → List Window
  | _, [] => []
  | toprow, w :: ws =>
      let size' := if ws = [] then s.nrow - toprow - 2 else size
      let lp :=
        if size' < w.w_ntrows then
          (s.buffer w.w_bufp).forward (w.w_ntrows - size').toNat w.w_linep
        else w.w_linep
      Window.redraw { w with w_linep := lp, w_toprow := toprow, w_ntrows := size' } ::
        balance s size (toprow + size' + 1) ws

/-- `balancewindows`. -/
def balancewindows (s : Windows) : Windows × Bool :=
  if s.only then (s, false)
  else
    let ws := s.wheadp
    let size := (s.nrow - 1).tdiv ws.length - 1
    let ws := balance s size 0 ws
    match ws.drop s.above.length with
    | w :: below =>
        ({ s with above := (ws.take s.above.length).reverse, curwp := w, below := below }, true)
    | [] => (s, true)

/-- The loop of `zappwind` that moves the top line of the window below back. -/
def Buffer.unscroll (b : Buffer) : Nat → LineId → LineId
  | 0, lp => lp
  | i + 1, lp => if b.lback lp = b.b_linep then lp else b.unscroll i (b.lback lp)

/-- `zappwind` counts the window out. -/
def countOut (w : Window) (s : Windows) : Windows :=
  s.modBuf w.w_bufp fun b =>
    let b := { b with b_nwnd := schar (b.b_nwnd - 1) }
    if b.b_nwnd ≤ 0 then { b with b_dot := w.w_dot, b_ring := b.b_ring.setMark w.w_mark } else b

/-- `zapwind`. -/
def zapwind (s : Windows) : Windows × Bool :=
  let w := s.curwp
  match s.above, s.below with
  | pp :: above, _ =>
      let pp := { pp with w_ntrows := pp.w_ntrows + (w.w_ntrows + 1) }
      ({ countOut w s with above := above, curwp := pp.redraw }, true)
  | [], pp :: below =>
      let lp := (s.buffer pp.w_bufp).unscroll (pp.w_toprow - w.w_toprow).toNat pp.w_linep
      let pp := { pp with
        w_linep := lp, w_toprow := w.w_toprow, w_ntrows := pp.w_ntrows + (w.w_ntrows + 1) }
      ({ countOut w s with curwp := pp.redraw, below := below }, true)
  | [], [] => ({ s with curwp := { w with w_flag := WFMODE ||| WFHARD } }, false)

/-! ## Reading files -/

/-- What a file that is read turns out to be: `lines n hadnl err` has `n` lines
with a newline at the end and one more if `hadnl` is false. -/
inductive FileRead
  | openerr
  | notfound
  | lines (n : Nat) (hadnl err : Bool)

/-- Around `readin`: whether the name passes its checks, whether changes are
discarded, and the file. -/
structure ReadIo where
  named : Bool
  discard : Bool
  fname : String
  file : FileRead

/-- What `bclear` leaves of a buffer. -/
def Buffer.emptied (lp : LineId) (b : Buffer) : Buffer :=
  { b with bfchg := false, lines := [lp], b_dot := ⟨lp, 0⟩, b_ring := b.b_ring.setMark nullpos }

/-- `bclear`. -/
def bclear (bp : BufId) (discard : Bool) (s : Windows) : Windows × Bool :=
  if (s.buffer bp).bfchg && !discard then (s, false)
  else
    let lp := s.nextline
    let s := { s.modBuf bp (Buffer.emptied lp) with nextline := lp + 1 }
    (s.allwind fun w =>
      if w.w_bufp = bp then { w with
        w_linep := lp, w_dot := ⟨lp, 0⟩, w_ring := w.w_ring.setMark nullpos }
      else w, true)

/-- `readlines` in front of the empty line, and what `readin` does to that. -/
def readlines (bp : BufId) (file : FileRead) (s : Windows) : Windows × Bool :=
  match file with
  | .openerr => (s, false)
  | .notfound => (s, true)
  | .lines n hadnl err =>
      let k := if hadnl then n else n + 1
      let new := List.range' s.nextline k
      let s := s.modBuf bp fun b => { b with
        lines := if hadnl then new ++ b.lines else new ++ b.lines.dropLast }
      ({ s with nextline := s.nextline + k }, !err)

/-- The end of `readin`: the windows go to the first line. -/
def reframe (bp : BufId) (s : Windows) : Windows :=
  let lp := (s.buffer bp).firstline
  let s := s.allwind fun w =>
    if w.w_bufp = bp then Window.redraw { w with
      w_linep := lp, w_dot := ⟨lp, 0⟩, w_ring := w.w_ring.setMark nullpos }
    else w
  s.modBuf bp fun b => { b with b_dot := { b.b_dot with p := lp } }

/-- `readin` into a buffer. -/
def readin (bp : BufId) (io : ReadIo) (s : Windows) : Windows × Bool :=
  if !io.named then (s, false)
  else
    let (s, cleared) := bclear bp io.discard s
    if !cleared then (s, false)
    else
      let s := s.modBuf bp fun b => { b with bfhexl := false, bfchg := false, b_fname := io.fname }
      let (s, ok) := readlines bp io.file s
      (reframe bp s, ok)

/-! ## The start -/

/-- What `bcreate` makes, and `bfind` activates. -/
def bcreate (bname : String) (linep lp : LineId) : Buffer where
  b_linep := linep
  lines := [lp]
  b_dot := ⟨lp, 0⟩
  b_ring := clearmarks
  b_nwnd := 0
  b_undo := false
  bfchg := false
  bfhexl := false
  b_active := true
  b_fname := ""
  b_bname := bname

/-- `bfind` for a name that no buffer has: the new buffer comes first. -/
def newbuf (bname : String) (s : Windows) : Windows :=
  { s with
    buffer := Function.update s.buffer s.nextbuf (bcreate bname s.nextline (s.nextline + 1))
    bheadp := s.nextbuf :: s.bheadp
    nextline := s.nextline + 2
    nextbuf := s.nextbuf + 1 }

/-- The window that `bufinit` makes. -/
def newwind (bp : BufId) (lp : LineId) (toprow ntrows : Int) : Window where
  w_linep := lp
  w_savep := null
  w_dot := ⟨lp, 0⟩
  w_ring := clearmarks
  w_bufp := bp
  w_toprow := toprow
  w_ntrows := ntrows
  w_flag := WFMODE ||| WFHARD

/-- `bufinit` for the first buffer. -/
def bufinit (nrow : Int) (bname : String) : Windows where
  buffer := fun _ => { bcreate bname 1 2 with b_nwnd := 1 }
  bheadp := [0]
  above := []
  curwp := newwind 0 2 0 (nrow - 0 - 2)
  below := []
  nrow := nrow
  nextline := 3
  nextbuf := 1

/-- `bufinit` for the second buffer: the first window shrinks. -/
def bufinitSecond (bname : String) (s : Windows) : Windows :=
  let bp := s.nextbuf
  let s := newbuf bname s
  let toprow := s.nrow.tdiv 2
  let s := s.modBuf bp fun b => { b with b_nwnd := 1 }
  { s with
    curwp := { s.curwp with w_ntrows := toprow - 1 }
    below := [newwind bp (s.buffer bp).firstline toprow (s.nrow - toprow - 2)] }

/-- A file on the command line, and the name that its buffer gets. -/
structure FileArg where
  bname : String
  io : ReadIo

/-- The files after the second one get a buffer only. -/
def otherFiles : List FileArg → Windows → Windows
  | [], s => s
  | a :: l, s => otherFiles l (readin s.nextbuf a.io (newbuf a.bname s)).1

/-- What `main` does with the files on the command line. -/
def startup (nrow : Int) : List FileArg → Windows
  | [] => bufinit nrow "main"
  | [a] => (readin 0 a.io (bufinit nrow a.bname)).1
  | a :: a' :: l =>
      let s := (readin 0 a.io (bufinit nrow a.bname)).1
      otherFiles l (readin s.nextbuf a'.io (bufinitSecond a'.bname s)).1

end Emacs
