import Zzdwm.Emacs.UndoStack

/-!
# The text primitives (`line.c`)

`linsert`, `lnewline` and `ldelete`, with the code of each that moves the
positions of all windows.  Each returns whether it succeeded.

* `insertLine`, `ldelnewline` — the branches of the source: at the header line,
  in place, and with a new line.
-/

namespace Emacs

/-- `checkreadonly`. -/
def Ed.checkreadonly (e : Ed) : Bool := !e.bfro

/-- What `linsert` is asked to insert: copies of a character, or a string. -/
inductive Insertion
  | copies (n : Nat) (c : Nat)
  | str (s : List Byte)
  deriving DecidableEq

namespace Insertion

/-- `chars`. -/
def chars : Insertion → Nat
  | copies n _ => n
  | str s => unslen s

/-- The bytes that are inserted. -/
def bytes : Insertion → List Byte
  | copies n c => (List.replicate n (uputc c)).flatten
  | str s => s

/-- The arguments of `saveundo`. -/
def saved : Insertion → Saved
  | copies n c => .UINSERT n 1 (uputc c)
  | str s => .UINSERT 1 (unslen s) s

end Insertion

/-- The three branches of `linsert` that make room, with the text filled in.  The
result is `lp2`. -/
def insertLine (dot : POS) (offset : Nat) (text : List Byte) (e : Ed) : Ed × LineId :=
  let l := e.line dot.p
  let text' := l.l_text.take offset ++ text ++ l.l_text.drop offset
  let lp2 := e.nextline
  if dot.p = e.b_linep then
    ({ e.setLine lp2 (lalloc text) with nextline := lp2 + 1, lines := e.lines ++ [lp2] }, lp2)
  else if l.l_used + text.length > l.l_size then
    ({ e.setLine lp2 (lalloc text') with
      nextline := lp2 + 1
      lines := e.lines.map fun p => if p = dot.p then lp2 else p }, lp2)
  else (e.setLine dot.p { l with l_text := text' }, dot.p)

/-- `adjustforinsert` for one position. -/
def adjustforinsert (oldpos : POS) (newlp : LineId) (nchars : Nat) (pos : POS) : POS :=
  if pos.p = oldpos.p then
    ⟨newlp, if pos.o > oldpos.o then pos.o + nchars else pos.o⟩
  else pos

/-- The update of a window at the end of `linsert`. -/
def insertWindow (dot : POS) (lp2 : LineId) (chars : Nat) (cur : Bool) (w : EWINDOW) : EWINDOW where
  w_linep := if w.w_linep = dot.p then lp2 else w.w_linep
  w_savep := if w.w_savep = dot.p then lp2 else w.w_savep
  w_dot :=
    if w.w_dot.p = dot.p then
      ⟨lp2, if cur || w.w_dot.o > dot.o then w.w_dot.o + chars else w.w_dot.o⟩
    else w.w_dot
  w_ring := w.w_ring.adjust (adjustforinsert dot lp2 chars)

/-- `linsert`. -/
def linsert (a : Insertion) (e : Ed) : Ed × Bool :=
  if !e.checkreadonly then (e, false)
  else
    let dot := e.dot
    let offset := uoffset (e.line dot.p).l_text dot.o
    let e := e.lchange.saveundo a.saved none
    if dot.p = e.b_linep ∧ offset ≠ 0 then (e, false)
    else
      let (e, lp2) := insertLine dot offset a.bytes e
      (e.allwind (insertWindow dot lp2 a.chars), true)

/-- `adjustfornewline` for one position. -/
def adjustfornewline (oldpos : POS) (newlp : LineId) (pos : POS) : POS :=
  if pos.p = oldpos.p then
    if pos.o < oldpos.o then { pos with p := newlp } else { pos with o := pos.o - oldpos.o }
  else pos

/-- The update of a window at the end of `lnewline`. -/
def newlineWindow (dot : POS) (lp2 : LineId) (w : EWINDOW) : EWINDOW where
  w_linep := if w.w_linep = dot.p then lp2 else w.w_linep
  w_savep := if w.w_savep = dot.p then lp2 else w.w_savep
  w_dot := adjustfornewline dot lp2 w.w_dot
  w_ring := w.w_ring.adjust (adjustfornewline dot lp2)

/-- Link a line in front of another one. -/
def Ed.linkBefore (lp1 lp2 : LineId) (e : Ed) : Ed :=
  { e with lines :=
      if lp1 = e.b_linep then e.lines ++ [lp2]
      else e.lines.takeWhile (· ≠ lp1) ++ lp2 :: e.lines.dropWhile (· ≠ lp1) }

/-- The new first half of a line, and what is left of the line. -/
def splitLine (dot : POS) (offset : Nat) (e : Ed) : Ed :=
  let l := e.line dot.p
  let lp2 := e.nextline
  let e := e.setLine lp2 (lalloc (l.l_text.take offset))
  let e := e.setLine dot.p { l with l_text := l.l_text.drop offset }
  { e.linkBefore dot.p lp2 with nextline := lp2 + 1 }

/-- `lnewline`. -/
def lnewline (e : Ed) : Ed × Bool :=
  if !e.checkreadonly then (e, false)
  else
    let dot := e.dot
    let offset := uoffset (e.line dot.p).l_text dot.o
    let e := e.lchange.saveundo (.UINSERT 1 1 [newline]) none
    let lp2 := e.nextline
    ((splitLine dot offset e).allwind fun _ => newlineWindow dot lp2, true)

/-- `insertwithnl`; every round passes at least one byte. -/
def insertwithnlLoop : Nat → List Byte → Ed → Ed × Bool
  | 0, _, e => (e, true)
  | f + 1, s, e =>
      if s = [] then (e, true)
      else
        let line := s.takeWhile (· ≠ newline)
        match s.dropWhile (· ≠ newline) with
        | [] => linsert (.str line) e
        | _ :: rest =>
            let (e, status) := if line = [] then (e, true) else linsert (.str line) e
            if !status then (e, false)
            else
              let (e, status) := lnewline e
              if !status then (e, false) else insertwithnlLoop f rest e

/-- `insertwithnl`. -/
def insertwithnl (s : List Byte) (e : Ed) : Ed × Bool := insertwithnlLoop (s.length + 1) s e

/-- `adjustfordelnewline` for one position.  `used` is `lp1->l_used`. -/
def adjustfordelnewline (lp1 lp2 newlp : LineId) (used : Nat) (pos : POS) : POS :=
  if pos.p = lp1 then { pos with p := newlp }
  else if pos.p = lp2 then ⟨newlp, pos.o + used⟩
  else pos

/-- The update of a window where the next line fits into the room of the current
one: the cursor and the first mark are moved over. -/
def mergeWindow (lp1 lp2 : LineId) (chars : Nat) (w : EWINDOW) : EWINDOW where
  w_linep := if w.w_linep = lp2 then lp1 else w.w_linep
  w_savep := if w.w_savep = lp2 then lp1 else w.w_savep
  w_dot := if w.w_dot.p = lp2 then ⟨lp1, w.w_dot.o + chars⟩ else w.w_dot
  w_ring :=
    { w.w_ring with m_ring := fun i =>
        let pos := w.w_ring.m_ring i
        if i.val = 0 ∧ pos.p = lp2 then ⟨lp1, pos.o + chars⟩ else pos }

/-- The update of a window where both lines go into a new one. -/
def joinWindow (lp1 lp2 lp3 : LineId) (used : Nat) (w : EWINDOW) : EWINDOW where
  w_linep := if w.w_linep = lp1 ∨ w.w_linep = lp2 then lp3 else w.w_linep
  w_savep := if w.w_savep = lp1 ∨ w.w_savep = lp2 then lp3 else w.w_savep
  w_dot := adjustfordelnewline lp1 lp2 lp3 used w.w_dot
  w_ring := w.w_ring.adjust (adjustfordelnewline lp1 lp2 lp3 used)

/-- The branch of `ldelnewline` for a next line that fits. -/
def mergeLines (lp1 lp2 : LineId) (e : Ed) : Ed :=
  let l1 := e.line lp1
  let l2 := e.line lp2
  let e := e.setLine lp1 { l1 with l_text := l1.l_text ++ l2.l_text }
  { e with lines := e.lines.erase lp2 }.allwind fun _ => mergeWindow lp1 lp2 l1.wllength

/-- The branch of `ldelnewline` with a new line for both. -/
def joinLines (lp1 lp2 : LineId) (e : Ed) : Ed :=
  let l1 := e.line lp1
  let l2 := e.line lp2
  let lp3 := e.nextline
  let e := e.setLine lp3 (lalloc (l1.l_text ++ l2.l_text))
  { e with
    nextline := lp3 + 1
    lines := (e.lines.erase lp2).map fun p => if p = lp1 then lp3 else p }.allwind
      fun _ => joinWindow lp1 lp2 lp3 l1.l_used

/-- `ldelnewline`, which always succeeds. -/
def ldelnewline (e : Ed) : Ed :=
  let lp1 := e.dot.p
  let lp2 := e.lforw lp1
  let l1 := e.line lp1
  if lp2 = e.b_linep then e
  else if (e.line lp2).l_used ≤ l1.l_size - l1.l_used then mergeLines lp1 lp2 e
  else joinLines lp1 lp2 e

/-- `adjustfordelete` for one position. -/
def adjustfordelete (oldpos : POS) (nchars : Nat) (pos : POS) : POS :=
  if pos.p = oldpos.p ∧ pos.o ≥ oldpos.o then
    { pos with o := max (pos.o - nchars) oldpos.o }
  else pos

/-- The update of a window after a deletion within a line. -/
def deleteWindow (dot : POS) (chars : Nat) (w : EWINDOW) : EWINDOW :=
  { w with
    w_dot := adjustfordelete dot chars w.w_dot
    w_ring := w.w_ring.adjust (adjustfordelete dot chars) }

/-- The body of the loop of `ldelete` for `n` characters that are still to be
deleted: the state after it, and how many have been. -/
def ldeleteStep (n : Nat) (e : Ed) : Ed × Nat :=
  let dot := e.dot
  let l := e.line dot.p
  let offset := uoffset l.l_text dot.o
  let cp1 := l.l_text.drop offset
  let all := unslen cp1
  let chars := if all > n then n else all
  let bytes := if all > n then unblen cp1 n else cp1.length
  if chars = 0 then
    ((ldelnewline e.lchange).saveundo (.UDELETE 1 [newline]) none, 1)
  else
    let e := e.lchange.saveundo (.UDELETE chars (cp1.take bytes)) none
    let e := e.setLine dot.p { l with l_text := l.l_text.take offset ++ cp1.drop bytes }
    (e.allwind fun _ => deleteWindow dot chars, chars)

/-- The loop of `ldelete`; every round deletes at least one character. -/
def ldeleteLoop : Nat → Nat → Ed → Ed × Bool
  | _, 0, e => (e, true)
  | 0, _ + 1, e => (e, true)
  | f + 1, n + 1, e =>
      if e.dot.p = e.b_linep then (e, false)
      else
        let (e, chars) := ldeleteStep (n + 1) e
        ldeleteLoop f (n + 1 - chars) e

/-- `ldelete`, with `kflag` being `FALSE`. -/
def ldelete (n : Int) (e : Ed) : Ed × Bool :=
  if n < 0 then (e, false)
  else if !e.checkreadonly then (e, false)
  else ldeleteLoop n.toNat n.toNat e

end Emacs
