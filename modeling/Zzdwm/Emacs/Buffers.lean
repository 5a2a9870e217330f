import Zzdwm.Emacs.Windows
import Zzdwm.Lib.Machine

/-!
# Commands on buffers (`buffer.c`, `file.c`, `ring.c`, `undo.c`)

How a window is handed from one buffer to another, how buffers go, how they are
saved, and the undo stacks as far as being there or not.

* `usebuf`, `swbuffer`, `getfile`, `visit_file`, `killbuffer` — the routines that
  hand a window over;
* `setmark`, `swapmark` — the mark ring;
* `filesave`, `filesaveall`, `revertbuffer`, `hexlchange`, … — what looks at the
  undo stack of a buffer;
* `Command`, `step` — one command of the editor.

The buffer list that `listbuffers` pops up is left out, and so are the commands
that change the lines of a text otherwise than by reading it.
-/

namespace Emacs

/-- A read through an empty `b_undo`. -/
inductive Crash
  | noUndo
  deriving DecidableEq

/-! ## Marks -/

/-- The loop of `popmark`. -/
def MARKRING.rotated (r : MARKRING) (i : Fin RINGSIZE) : POS :=
  if h : i.val + 1 < r.m_count then r.m_ring ⟨i.val + 1, Nat.lt_of_lt_of_le h r.count_le⟩
  else if i.val + 1 = r.m_count then r.mark
  else r.m_ring i

/-- `popmark` on a ring: the mark, and the ring. -/
def MARKRING.popmark (r : MARKRING) : POS × MARKRING :=
  if r.m_count = 0 then (nullpos, r) else (r.mark, { r with m_ring := r.rotated })

/-- The loop of `pushmark`, for a ring that has `count` marks then. -/
def MARKRING.pushed (r : MARKRING) (count : Nat) (pos : POS) (i : Fin RINGSIZE) : POS :=
  if i = first then pos
  else if i.val < count then r.m_ring ⟨i.val - 1, Nat.lt_of_le_of_lt (Nat.sub_le ..) i.isLt⟩
  else r.m_ring i

/-- `pushmark` on a ring. -/
def MARKRING.pushmark (pos : POS) (r : MARKRING) : MARKRING :=
  if pos.p = null then r
  else
    { m_count := min (r.m_count + 1) RINGSIZE
      m_ring := r.pushed (min (r.m_count + 1) RINGSIZE) pos
      count_le := Nat.min_le_right .. }

namespace Windows

/-- Assign to the current window. -/
def setCur (f : Window → Window) (s : Windows) : Windows := { s with curwp := f s.curwp }

/-- The first other window that shows a buffer. -/
def showing (bp : BufId) (s : Windows) : Option Window :=
  (s.above.reverse ++ s.below).find? fun w => w.w_bufp = bp

end Windows

/-- `setmark`; with a prefix argument it jumps. -/
def setmark (f : Bool) (s : Windows) : Windows × Bool :=
  if !f then (s.setCur fun w => { w with w_ring := w.w_ring.pushmark w.w_dot }, true)
  else if s.curwp.w_mark.p = null then (s, false)
  else
    (s.setCur fun w => { w with
      w_dot := w.w_ring.popmark.1, w_ring := w.w_ring.popmark.2, w_flag := w.w_flag ||| WFMOVE }, true)

/-- `swapmark`. -/
def swapmark (s : Windows) : Windows × Bool :=
  if s.curwp.w_mark.p = null then (s, false)
  else
    (s.setCur fun w => { w with
      w_dot := w.w_mark, w_ring := w.w_ring.setMark w.w_dot, w_flag := w.w_flag ||| WFMOVE }, true)

/-- The commands that move the cursor: it gets to a line of the buffer, or to
the header line where there is no such line. -/
def movedot (i o : Nat) (s : Windows) : Windows :=
  let b := s.buffer s.curbp
  s.setCur fun w => { w with w_dot := ⟨b.lines.getD i b.b_linep, o⟩ }

/-! ## Handing a window over -/

/-- A window takes the place of another one that shows its buffer. -/
def Window.copy (v w : Window) : Window :=
  { w with w_dot := v.w_dot, w_ring := w.w_ring.setMark v.w_mark }

/-- The loop that looks for another window on the buffer. -/
def lookForOld (bp : BufId) (s : Windows) : Windows :=
  match s.showing bp with
  | some v => s.setCur (Window.copy v)
  | none => s

/-- `addwind` for the current window. -/
def addcur (n : Int) (s : Windows) : Windows :=
  let (w, t) := addwind s.curwp n s
  { t with curwp := w }

/-- `usebuf`. -/
def usebuf (bp : BufId) (s : Windows) : Windows :=
  let s := addcur (-1) s
  let s := s.setCur fun w => { w with
    w_bufp := bp, w_linep := (s.buffer bp).firstline
    w_flag := w.w_flag ||| (WFMODE ||| WFFORCE ||| WFHARD) }
  let s := addcur 1 s
  if (s.buffer bp).b_nwnd = 1 then s else lookForOld bp s

/-- What `swbuffer` and `getfile` do with the old buffer. -/
def undisplay (s : Windows) : Windows :=
  s.modBuf s.curbp fun b =>
    let b := { b with b_nwnd := schar (b.b_nwnd - 1) }
    if b.b_nwnd = 0 then
      { b with b_dot := s.curwp.w_dot, b_ring := b.b_ring.setMark s.curwp.w_mark }
    else b

/-- `swbuffer` reads the file of a buffer that is not active yet. -/
def activate (bp : BufId) (io : ReadIo) (s : Windows) : Windows :=
  let s :=
    if (s.buffer bp).b_fname = "" then s
    else
      let s := (readin bp { io with fname := (s.buffer bp).b_fname } s).1
      s.modBuf bp fun b => { b with b_dot := ⟨b.firstline, 0⟩ }
  s.modBuf bp fun b => { b with b_active := true }

/-- The end of `swbuffer`: the window gets a buffer that is active. -/
def enter (bp : BufId) (s : Windows) : Windows :=
  let b := s.buffer bp
  let s := s.setCur fun w => { w with
    w_bufp := bp, w_linep := b.b_linep
    w_flag := w.w_flag ||| (WFMODE ||| WFFORCE ||| WFHARD) }
  let s := s.modBuf bp fun b => { b with b_nwnd := schar (b.b_nwnd + 1) }
  if b.b_nwnd = 0 then
    s.setCur fun w => { w with w_dot := b.b_dot, w_ring := w.w_ring.setMark b.b_mark }
  else lookForOld bp s

/-- `swbuffer`. -/
def swbuffer (bp : BufId) (io : ReadIo) (s : Windows) : Windows :=
  let s := undisplay s
  enter bp (if (s.buffer bp).b_active then s else activate bp io s)

/-- `bfind` without creating. -/
def findbuf (bname : String) (s : Windows) : Option BufId :=
  s.bheadp.find? fun b => (s.buffer b).b_bname = bname

/-- `bfind`. -/
def bfind (bname : String) (s : Windows) : BufId × Windows :=
  match findbuf bname s with
  | some b => (b, s.modBuf b fun b => { b with b_active := true })
  | none => (s.nextbuf, newbuf bname s)

/-- The buffer of a file. -/
def filebuf (fname : String) (s : Windows) : Option BufId :=
  s.bheadp.find? fun b => (s.buffer b).b_fname = fname

/-- The end of `getfile` and `visit_file` for a file that has no buffer. -/
def newfile (bp : BufId) (io : ReadIo) (s : Windows) : Windows × Bool :=
  let s := s.setCur fun w => { w with w_bufp := bp }
  readin bp io (s.modBuf bp fun b => { b with b_nwnd := schar (b.b_nwnd + 1) })

/-- `getfile`; `name` is the buffer name that the prompts end with, `none` if they
are aborted.  An existing name is that of a buffer to be overwritten. -/
def getfile (name : Option String) (io : ReadIo) (s : Windows) : Windows × Bool :=
  if io.fname = "" then (s, false)
  else
    match filebuf io.fname s with
    | some bp => (swbuffer bp io s, true)
    | none =>
        match name with
        | none => (s, false)
        | some bname =>
            let (bp, s) := bfind bname s
            newfile bp io (undisplay s)

/-- `visit_file` for a file that has a buffer. -/
def visitOld (bp : BufId) (s : Windows) : Windows :=
  let s := addcur (-1) s
  let s := addcur 1 (s.setCur fun w => { w with w_bufp := bp })
  let s := if (s.buffer bp).b_nwnd = 1 then s else lookForOld bp s
  let b := s.buffer bp
  s.setCur fun w => Window.redraw { w with
    w_linep := b.backward (w.w_ntrows.tdiv 2).toNat w.w_dot.p }

/-- `visit_file`. -/
def visit_file (name : Option String) (io : ReadIo) (s : Windows) : Windows × Bool :=
  if io.fname = "" then (s, false)
  else
    match filebuf io.fname s with
    | some bp => (visitOld bp s, true)
    | none =>
        match name with
        | none => (s, false)
        | some bname =>
            let (bp, s) := bfind bname s
            newfile bp io (addcur (-1) s)

/-- `getscratch`. -/
def getscratch (s : Windows) : BufId × Windows :=
  match findbuf "main" s with
  | some b => (b, s.modBuf b fun b => { b with b_active := true, b_fname := "" })
  | none => (s.nextbuf, newbuf "main" s)

/-! ## Undo stacks -/

/-- `startsaveundo`. -/
def startsaveundo (s : Windows) : Windows := s.modBuf s.curbp fun b => { b with b_undo := true }

/-- What reads the undo stack of a buffer: `saveundo`, `undo`, `redo`,
`setundochanged`. -/
def useundo (bp : BufId) (s : Windows) : Except Crash Windows :=
  if (s.buffer bp).b_undo then .ok s else .error .noUndo

/-- `killundo`. -/
def killundo (bp : BufId) (s : Windows) : Except Crash Windows := do
  let s ← useundo bp s
  return s.modBuf bp fun b => { b with b_undo := false }

/-- `zotbuf`. -/
def zotbuf (bp : BufId) (discard : Bool) (s : Windows) : Except Crash (Windows × Bool) :=
  if (s.buffer bp).b_nwnd ≠ 0 then .ok (s, false)
  else
    let (s, cleared) := bclear bp discard s
    if !cleared then .ok (s, false)
    else do
      let s ← killundo bp { s with bheadp := s.bheadp.erase bp }
      return (s, true)

/-- The buffer that `killbuffer` switches to. -/
def alternate (bp : BufId) (s : Windows) : BufId × Windows :=
  match s.bheadp.find? fun b => b ≠ bp with
  | some b => (b, s)
  | none => getscratch s

/-- `killbuffer`, once the buffer is known. -/
def killbuf (bp : BufId) (discard : Bool) (io : ReadIo) (s : Windows) :
    Except Crash (Windows × Bool) :=
  zotbuf bp discard (swbuffer (alternate bp s).1 io (alternate bp s).2)

/-- `killbuffer`: a name that was typed, or the current buffer. -/
def killbuffer (name : Option String) (discard : Bool) (io : ReadIo) (s : Windows) :
    Except Crash (Windows × Bool) :=
  match name with
  | none => killbuf s.curbp discard io s
  | some bname =>
      match findbuf bname s with
      | some bp => killbuf bp discard io (s.modBuf bp fun b => { b with b_active := true })
      | none => .ok (s, true)

/-- How a save goes: the backup keeps it from being done, a last newline is added,
and it is written. -/
structure SaveOutcome where
  stops : Bool
  addnl : Bool
  written : Bool

/-- `writeout` may add an empty line to the buffer. -/
def writeout (bp : BufId) (o : SaveOutcome) (s : Windows) : Windows × Bool :=
  let s :=
    if o.addnl then
      { s.modBuf bp fun b => { b with lines := b.lines ++ [s.nextline] } with
        nextline := s.nextline + 1 }
    else s
  (s, o.written)

/-- `filesave` and `hexlsave` for the buffer that is `curbp`. -/
def filesave (bp : BufId) (o : SaveOutcome) (s : Windows) : Except Crash (Windows × Bool) :=
  let b := s.buffer bp
  if !b.bfchg then .ok (s, true)
  else if b.b_fname = "" then .ok (s, false)
  else if o.stops then .ok (s, false)
  else if b.bfhexl then
    if !o.written then .ok (s, false)
    else do
      let s ← useundo bp (s.modBuf bp fun b => { b with bfchg := false })
      return (s, true)
  else
    let (s, ok) := writeout bp o s
    let s := if ok then s.modBuf bp fun b => { b with bfchg := false } else s
    do
      let s ← useundo bp s
      return (s, ok)

/-- The loop of `filesaveall` and `quickexit`; `ask` is the answer to the prompt for
a buffer, `none` if it is aborted. -/
def saveTour (ask : BufId → Option Bool) (o : BufId → SaveOutcome) :
    List BufId → Windows → Except Crash (Windows × Bool)
  | [], s => .ok (s, true)
  | bp :: bs, s =>
      if !(s.buffer bp).bfchg || (s.buffer bp).b_fname = "" then saveTour ask o bs s
      else
        match ask bp with
        | none => .ok (s, false)
        | some false => saveTour ask o bs s
        | some true => do
            let (s, ok) ← filesave bp (o bp) s
            if !ok then return (s, false) else saveTour ask o bs s

/-- `filewrite`. -/
def filewrite (fname : String) (o : SaveOutcome) (s : Windows) : Windows × Bool :=
  if (s.buffer s.curbp).bfhexl then (s, false)
  else
    let bp := s.curbp
    let (s, ok) := writeout bp o s
    (if ok then s.modBuf bp fun b => { b with b_fname := fname, bfchg := false } else s, ok)

/-- `revertbuffer`, once the file has been found readable.  `freeundostack` looks
whether there is a stack.  An aborted prompt of `bclear` has a status that
`dorevert` takes for success. -/
def revertbuffer (aborted : Bool) (io : ReadIo) (s : Windows) : Except Crash (Windows × Bool) :=
  let bp := s.curbp
  if (s.buffer bp).b_fname = "" then .ok (s, false)
  else
    let (s, ok) := readin bp { io with fname := (s.buffer bp).b_fname } s
    if !ok && !aborted then .ok (s, false)
    else do
      let s ← useundo bp (s.modBuf bp fun b => { b with bfchg := false })
      return (s, true)

/-- What `hexlchange` does to the lines, `n` of which it replaces, and to the
windows; `o` is the column of the first byte. -/
def hexlrelay (bp : BufId) (n o : Nat) (s : Windows) : Windows :=
  if n = 0 then s
  else
    let lp := s.nextline
    let s := s.modBuf bp fun b => { b with
      lines := List.range' lp n ++ b.lines.drop n
      b_dot := { b.b_dot with p := lp }, b_ring := b.b_ring.setMark nullpos }
    let s := { s with nextline := lp + n }
    s.allwind fun w =>
      if w.w_bufp = bp then Window.redraw { w with
        w_linep := lp, w_dot := ⟨lp, o⟩, w_ring := w.w_ring.setMark nullpos }
      else w

/-- `hexlchange`: do the lines parse, and is there an empty one at the end, which
stays? -/
def hexlchangeLines (parses trailing : Bool) (o : Nat) (s : Windows) :
    Except Crash (Windows × Bool) :=
  let bp := s.curbp
  let b := s.buffer bp
  if !b.bfhexl || !parses then .ok (s, false)
  else do
    let s ← killundo bp s
    return (hexlrelay bp (if trailing then b.lines.length - 1 else b.lines.length) o s, true)

/-! ## Commands -/

/-- The buffer that `nextbuffer` uses. -/
def bufafter (s : Windows) : BufId :=
  (s.bheadp.dropWhile (· ≠ s.curbp)).tail.headD (s.bheadp.headD s.curbp)

/-- The buffer that `prevbuffer` uses. -/
def bufbefore (s : Windows) : BufId :=
  (s.bheadp.takeWhile (· ≠ s.curbp)).getLastD (s.bheadp.getLastD s.curbp)

/-- The commands. `swbuffer` stands for those that go back to a buffer they have
remembered, `edit` for those that change text in place. -/
inductive Command
  | nextwind | prevwind | onlywind | splitwind
  | enlargewind (n : Int) | shrinkwind (n : Int) | balancewindows | zapwind
  | setmark (f : Bool) | swapmark | movedot (i o : Nat)
  | usebuffer (bname : String) | nextbuffer | prevbuffer
  | swbuffer (bp : BufId) (io : ReadIo)
  | getfile (name : Option String) (io : ReadIo)
  | visit_file (name : Option String) (io : ReadIo)
  | killbuffer (name : Option String) (discard : Bool) (io : ReadIo)
  | fileread (io : ReadIo)
  | bclear (bp : BufId) (discard : Bool)
  | edit | undo (chg : Bool) | redo | unmark
  | filesave (o : SaveOutcome)
  | filewrite (fname : String) (o : SaveOutcome)
  | filesaveall (ask : BufId → Option Bool) (o : BufId → SaveOutcome)
  | quickexit (o : BufId → SaveOutcome)
  | revertbuffer (aborted : Bool) (io : ReadIo)
  | hexlchange (parses trailing : Bool) (o : Nat)

/-- The flag of the current buffer after a replay. -/
def replay (chg : Bool) (s : Windows) : Except Crash (Windows × Bool) := do
  let s ← useundo s.curbp s
  return (s.modBuf s.curbp fun b => { b with bfchg := chg }, true)

/-- What the commands do. -/
def Command.run (c : Command) (s : Windows) : Except Crash (Windows × Bool) :=
  match c with
  | .nextwind => .ok (Emacs.nextwind s, true)
  | .prevwind => .ok (Emacs.prevwind s, true)
  | .onlywind => .ok (Emacs.onlywind s)
  | .splitwind => .ok (Emacs.splitwind s)
  | .enlargewind n => .ok (Emacs.enlargewind n s)
  | .shrinkwind n => .ok (Emacs.shrinkwind n s)
  | .balancewindows => .ok (Emacs.balancewindows s)
  | .zapwind => .ok (Emacs.zapwind s)
  | .setmark f => .ok (Emacs.setmark f s)
  | .swapmark => .ok (Emacs.swapmark s)
  | .movedot i o => .ok (Emacs.movedot i o s, true)
  | .usebuffer bname =>
      let (bp, s) := bfind bname s
      .ok (usebuf bp s, true)
  | .nextbuffer => .ok (usebuf (bufafter s) s, true)
  | .prevbuffer => .ok (usebuf (bufbefore s) s, true)
  | .swbuffer bp io => if bp ∈ s.bheadp then .ok (Emacs.swbuffer bp io s, true) else .ok (s, false)
  | .getfile name io => .ok (Emacs.getfile name io s)
  | .visit_file name io => .ok (Emacs.visit_file name io s)
  | .killbuffer name discard io => Emacs.killbuffer name discard io s
  | .fileread io => .ok (readin s.curbp io s)
  | .bclear bp discard => if bp ∈ s.bheadp then .ok (Emacs.bclear bp discard s) else .ok (s, false)
  | .edit => replay true s
  | .undo chg => replay chg s
  | .redo => replay true s
  | .unmark => .ok (s.modBuf s.curbp fun b => { b with bfchg := false }, true)
  | .filesave o => Emacs.filesave s.curbp o s
  | .filewrite fname o => .ok (Emacs.filewrite fname o s)
  | .filesaveall ask o => saveTour ask o s.bheadp s
  | .quickexit o => saveTour (fun _ => some true) o s.bheadp s
  | .revertbuffer aborted io => Emacs.revertbuffer aborted io s
  | .hexlchange parses trailing o => hexlchangeLines parses trailing o s

/-- What Lisp calls without starting an undo group: `lisp_switch_to_buffer`,
`lisp_find_file` and `lisp_save_buffer`. -/
inductive Call
  | switchtobuffer (bname : String) (io : ReadIo)
  | findfile (name : Option String) (io : ReadIo)
  | savebuffer (o : SaveOutcome)

def Call.run (c : Call) (s : Windows) : Except Crash (Windows × Bool) :=
  match c with
  | .switchtobuffer bname io =>
      let (bp, s) := bfind bname s
      .ok (swbuffer bp io s, true)
  | .findfile name io => .ok (visit_file name io s)
  | .savebuffer o => filesave s.curbp o s

/-- What the editor does next: a command, from the keyboard, a macro or Lisp, or
one of the calls of a Lisp program. -/
inductive Action
  | key (c : Command)
  | call (c : Call)

/-- One action. -/
def act (e : Action) (s : Windows) : Except Crash Windows := do
  match e with
  | .key c =>
      let r ← c.run (startsaveundo s)
      return r.1
  | .call c =>
      let r ← c.run s
      return r.1

/-- The states of an editor on a terminal of some height. -/
def Runs (nrow : Int) (files : List FileArg) (ok : Action → Windows → Prop) (s : Windows) : Prop :=
  ∃ es, Machine.Run act ok (startup nrow files) es s

end Emacs
