import Zzdwm.Emacs.Columns
import Zzdwm.Emacs.Region
import Zzdwm.Emacs.TextUndo
import Zzdwm.Lib.Cells

/-!
# Killing a rectangle (`rectangle.c`)

A rectangle is a range of lines and a range of columns.  Killing it cuts, out of each
line, the characters that have a cell in the column range; a tab at an edge is expanded
before, so that only a part of it goes.

* `rectcutline`, `rectkill` — the cuts, by way of columns, characters and bytes;
* `expanded`, `Ed.cutLine` — what is to be left of a line;
* `rectcutline_edits` — what the cut of one line does;
* `rectkill_cuts_iff` — **the rectangle is killed** exactly if every cut takes just the
  characters that are in the range, and as many bytes as characters.
-/

namespace Emacs

open Journal (Zipper)

section Source

variable (w : Wcwidth) (tabsize : Nat)

/-- The text of a line.  If its characters are whole, no memory behind it is read. -/
def Ed.lineText (e : Ed) (lp : LineId) : LineText := ⟨(e.line lp).l_text, []⟩

/-- The loop of `wlcoloffset`, from the character `off` on, in at most `n` rounds. -/
def wlcoloffsetLoop (l : LineText) (goal : Int) : Nat → Nat → Int → Nat
  | 0, off, _ => off
  | n + 1, off, col =>
      if off < l.wllength then
        let width := cellwidth w tabsize (l.wlgetc off) col
        if col ≥ goal ∨ col + width > goal then off
        else wlcoloffsetLoop l goal n (off + 1) (col + width)
      else off

/-- `wlcoloffset`. -/
def wlcoloffset (l : LineText) (goal : Int) : Nat := wlcoloffsetLoop w tabsize l goal l.wllength 0 0

/-- The statics of `rectangle.c`: the anchor line, `NULL` when there is none, its column,
and the clipboard. -/
structure RECT where
  rect_lp : LineId
  rect_col : Int
  rect_lines : List (List Byte)

/-- `rectdrop`. -/
def RECT.rectdrop (r : RECT) : RECT := { r with rect_lp := null }

/-- The corners of a rectangle, in order. -/
structure Bounds where
  first : LineId
  last : LineId
  s_col : Int
  e_col : Int

/-- `lcmp`, which walks from `lp1` to the end of the buffer. -/
def Ed.lcmp (e : Ed) (lp1 lp2 : LineId) : Int :=
  if lp1 = lp2 then 0 else if lp2 ∈ e.lines.dropWhile (· ≠ lp1) then -1 else 1

/-- The end of `rectbounds`: the corners in order. -/
def Ed.corners (e : Ed) (corner_lp : LineId) (corner_col : Int) : Bounds :=
  let col := wlcolumn w tabsize (e.lineText e.dot.p) e.dot.o
  let s_col := if corner_col < col then corner_col else col
  let e_col := if corner_col > col then corner_col else col
  if e.lcmp corner_lp e.dot.p < 0 then ⟨corner_lp, e.dot.p, s_col, e_col⟩
  else ⟨e.dot.p, corner_lp, s_col, e_col⟩

/-- `rectbounds`.  On failure the result is the message. -/
def rectbounds (e : Ed) (r : RECT) : RECT × Except String Bounds :=
  let mark := e.curwp.w_mark
  if r.rect_lp = null ∧ mark.p = null then (r, .error "No rectangle anchor or mark")
  else
    let corner_lp := if r.rect_lp ≠ null then r.rect_lp else mark.p
    let corner_col :=
      if r.rect_lp ≠ null then r.rect_col else wlcolumn w tabsize (e.lineText mark.p) mark.o
    if corner_lp ∉ e.lines then
      if r.rect_lp ≠ null then (r.rectdrop, .error "Rectangle anchor lost")
      else (r, .error "No mark in this window")
    else if e.dot.p = e.b_linep then (r, .error "Point is past the last line")
    else (r, .ok (e.corners w tabsize corner_lp corner_col))

/-- `rectslice`. -/
def rectslice (l : LineText) (s_col e_col : Int) : List Byte :=
  let start := wlcoloffset w tabsize l s_col
  let stop := wlcoloffset w tabsize l e_col
  let stop := if stop < l.wllength ∧ wlcolumn w tabsize l stop < e_col then stop + 1 else stop
  let bytes := uoffset l.text stop - uoffset l.text start
  let pad :=
    if wlcolumn w tabsize l stop < s_col then e_col - s_col else e_col - wlcolumn w tabsize l stop
  (l.text.drop (uoffset l.text start)).take bytes ++ List.replicate pad.toNat 0x20

/-- The loop of `rectsave`, over at most `n` lines. -/
def rectsave (e : Ed) (b : Bounds) : Nat → LineId → List (List Byte)
  | 0, _ => []
  | n + 1, lp =>
      rectslice w tabsize (e.lineText lp) b.s_col b.e_col ::
        if lp = b.last then [] else rectsave e b n (e.lforw lp)

/-- `rectexpandtab`. -/
def rectexpandtab (lp : LineId) (off : Nat) (e : Ed) : Ed × Bool :=
  let width := tabWidth tabsize (wlcolumn w tabsize (e.lineText lp) off)
  let e := e.setDot ⟨lp, off⟩
  let (e, status) := ldelete 1 (e.saveundo .UMOVE (some e.dot))
  if !status then (e, false) else linsert (.copies width.toNat 0x20) e

/-- The loop of `rectcutline` over the two edges, for one of them: the line may be
another one afterwards. -/
def expandEdge (col : Int) (lp : LineId) (e : Ed) : Ed × LineId × Bool :=
  let off := wlcoloffset w tabsize (e.lineText lp) col
  if off < (e.line lp).wllength ∧ (e.lineText lp).wlgetc off = tab ∧
      wlcolumn w tabsize (e.lineText lp) off < col then
    let (e, status) := rectexpandtab w tabsize lp off e
    if !status then (e, lp, false) else (e, e.dot.p, true)
  else (e, lp, true)

/-- The part of `rectcutline` behind the loop. -/
def cutCells (lp : LineId) (s_col e_col : Int) (blank : Bool) (e : Ed) : Ed × Bool :=
  let l := e.lineText lp
  let start := wlcoloffset w tabsize l s_col
  let stop := wlcoloffset w tabsize l e_col
  let stop := if stop < l.wllength ∧ wlcolumn w tabsize l stop < e_col then stop + 1 else stop
  if start ≥ stop then (e, true)
  else
    let bytes := uoffset l.text stop - uoffset l.text start
    let cells := wlcolumn w tabsize l stop - wlcolumn w tabsize l start
    let e := e.setDot ⟨lp, start⟩
    let (e, status) := ldelete bytes (e.saveundo .UMOVE (some e.dot))
    if !status then (e, false)
    else if blank then linsert (.copies cells.toNat 0x20) e
    else (e, true)

/-- `rectcutline`. -/
def rectcutline (lp : LineId) (s_col e_col : Int) (blank : Bool) (e : Ed) : Ed × Bool :=
  match expandEdge w tabsize s_col lp e with
  | (e, _, false) => (e, false)
  | (e, lp, true) =>
      match expandEdge w tabsize e_col lp e with
      | (e, _, false) => (e, false)
      | (e, lp, true) => cutCells w tabsize lp s_col e_col blank e

/-- The loop of `rectkill`, over at most `n` lines.  `next` has been read before the cut,
and there is no result if it is a line that the cut has freed. -/
def rectkillLoop (b : Bounds) : Nat → LineId → Ed → Option (Ed × Bool)
  | 0, _, _ => none
  | n + 1, lp, e =>
      if lp ∉ e.lines then none
      else
        let next := e.lforw lp
        let (e, status) := rectcutline w tabsize lp b.s_col b.e_col false e
        if !status then some (e, false)
        else if lp = b.last then some (e, true)
        else rectkillLoop b n next e

/-- The result of a command: the state, the message, if there is one, and the status. -/
structure Outcome where
  ed : Ed
  rect : RECT
  message : Option String
  status : Bool

/-- `rectkill`. -/
def rectkill (e : Ed) (r : RECT) : Option Outcome :=
  match rectbounds w tabsize e r with
  | (r, .error message) => some ⟨e, r, some message, false⟩
  | (r, .ok b) =>
      let r := { r with rect_lines := rectsave w tabsize e b e.lines.length b.first }
      let above := e.lback b.first
      match rectkillLoop w tabsize b e.lines.length b.first e with
      | none => none
      | some (e, false) => some ⟨e, r, none, false⟩
      | some (e, true) =>
          let p := e.lforw above
          let count := r.rect_lines.length
          some ⟨e.setDot ⟨p, wlcoloffset w tabsize (e.lineText p) b.s_col⟩, r.rectdrop,
            some s!"[Rectangle of {count} lines killed]", true⟩

end Source

/-! ## What is to be left -/

section Spec

variable (w : Wcwidth) (tabsize : Nat)

/-- The code of a character. -/
def code (c : UChar) : Nat := (ugetc c).1

/-- How many cells a character takes at a column. -/
def charCells (c : UChar) (col : Int) : Int := cellwidth w tabsize (code c) col

/-- A line with the tab expanded that the column `goal` is inside of. -/
def expandAt (goal : Int) : Int → List UChar → List UChar
  | _, [] => []
  | col, c :: cs =>
      let next := col + charCells w tabsize c col
      if col ≥ goal then c :: cs
      else if next > goal then
        if code c = tab then List.replicate (next - col).toNat [0x20] ++ cs else c :: cs
      else c :: expandAt goal next cs

variable (s t : Int)

/-- A line with the tabs expanded that are at the edges of a column range. -/
def expanded (cs : List UChar) : List UChar := expandAt w tabsize t 0 (expandAt w tabsize s 0 cs)

/-- A line without the characters that have a cell in a column range. -/
def cutLine (cs : List UChar) : List UChar :=
  Cells.outside (charCells w tabsize) s t 0 (expanded w tabsize s t cs)

/-- The characters in front of the left edge. -/
def kept (xs : List UChar) : List UChar := xs.take (Cells.offset (charCells w tabsize) s 0 xs)

/-- The characters from the left edge on. -/
def fromEdge (xs : List UChar) : List UChar := xs.drop (Cells.offset (charCells w tabsize) s 0 xs)

/-- The column where these start. -/
def edgeColumn (xs : List UChar) : Int := Cells.column (charCells w tabsize) 0 (kept w tabsize s xs)

/-- How many of them there are up to the right edge. -/
def cutCount (xs : List UChar) : Nat :=
  Cells.reach (charCells w tabsize) t (edgeColumn w tabsize s xs) (fromEdge w tabsize s xs)

/-- The characters from the left edge to the right one. -/
def cutChars (xs : List UChar) : List UChar :=
  (fromEdge w tabsize s xs).take (cutCount w tabsize s t xs)

/-- The characters behind the right edge. -/
def behind (xs : List UChar) : List UChar :=
  (fromEdge w tabsize s xs).drop (cutCount w tabsize s t xs)

/-- The cut of a line takes just what is in the column range: what it takes is inside,
nothing behind it is, and it has as many bytes as characters, unless nothing follows that
could be deleted. -/
structure CutFits (atEnd : Prop) (xs : List UChar) : Prop where
  inside : Cells.outside (charCells w tabsize) s t (edgeColumn w tabsize s xs)
    (cutChars w tabsize s t xs) = []
  outside : Cells.outside (charCells w tabsize) s t
      (Cells.column (charCells w tabsize) (edgeColumn w tabsize s xs) (cutChars w tabsize s t xs))
      (behind w tabsize s t xs) = behind w tabsize s t xs
  bytes : (cutChars w tabsize s t xs).flatten.length = (cutChars w tabsize s t xs).length ∨
    atEnd ∧ behind w tabsize s t xs = []

end Spec

/-! ## Characters and columns -/

theorem bits_append {c r : List Byte} {i : Nat} (hi : i < c.length) (mask shift : Nat) :
    bits (c ++ r) i mask shift = bits c i mask shift := by
  unfold bits
  rw [List.getD_eq_getElem?_getD, List.getD_eq_getElem?_getD, List.getElem?_append_left hi]

/-- A whole character is read without what follows it. -/
theorem ugetc_append {c : UChar} (hc : IsUChar c) (r : List Byte) :
    ugetc (c ++ r) = (code c, c.length) := by
  cases c with
  | nil => exact absurd rfl hc.ne_nil
  | cons b t =>
    have hlen := hc.uclen_eq
    have hfirst : ∀ r : List Byte, (b :: t ++ r).getD 0 0 = b := fun _ => rfl
    have hself := hfirst []
    rw [List.append_nil] at hself
    refine Prod.ext ?_ ((ugetc_length _).trans ((congrArg uclen (hfirst r)).trans hlen))
    have hbits : ∀ i < uclen b, ∀ mask shift,
        bits (b :: t ++ r) i mask shift = bits (b :: t) i mask shift := by
      intro i hi mask shift
      rw [hlen] at hi
      exact bits_append hi mask shift
    unfold code ugetc
    rw [hfirst, hself]
    dsimp only
    unfold uclen at hbits
    grind

/-- The codes of the characters of a line. -/
theorem chars_flatten {cs : List UChar} (hcs : AllUChars cs) :
    LineText.chars ⟨cs.flatten, []⟩ = cs.map code := by
  have hdecode : ∀ n, cs.flatten.length ≤ n →
      decode n cs.flatten cs.flatten.length = cs.map code := by
    induction cs with
    | nil =>
      intro n _
      cases n <;> rfl
    | cons c cs ih =>
      intro n hn
      have hc := hcs c List.mem_cons_self
      have hpos := List.length_pos_iff.mpr hc.ne_nil
      rw [List.flatten_cons, List.length_append] at hn ⊢
      cases n with
      | zero => omega
      | succ n =>
        rw [decode, if_neg (by omega), ugetc_append hc, List.drop_left, Nat.add_sub_cancel_left,
          List.map_cons, ih (fun d hd => hcs d (List.mem_cons_of_mem _ hd)) n (by omega)]
  unfold LineText.chars LineText.memory
  dsimp only
  rw [List.append_nil]
  exact hdecode _ (Nat.le_refl _)

section Columns

variable {w : Wcwidth} {tabsize : Nat} {l : LineText} {cs : List UChar}

/-- Columns by way of codes. -/
theorem column_eq_foldl (col : Int) (cs : List UChar) :
    Cells.column (charCells w tabsize) col cs = (cs.map code).foldl (cursorStep w tabsize) col := by
  induction cs generalizing col with
  | nil => rfl
  | cons c cs ih => rw [Cells.column, ih, List.map_cons, List.foldl_cons, cursorStep_eq, charCells]

/-- `wlcolumn` is the column behind as many characters. -/
theorem wlcolumn_cells (hl : l.chars = cs.map code) {o : Nat} (ho : o ≤ cs.length) :
    wlcolumn w tabsize l o = Cells.column (charCells w tabsize) 0 (cs.take o) := by
  have hlen : o ≤ l.wllength := by
    rw [← l.length_chars, hl, List.length_map]
    exact ho
  rw [wlcolumn_eq w tabsize l o hlen, cursorColumn_eq w tabsize l o hlen, hl, ← List.map_take,
    column_eq_foldl]

theorem wlcoloffsetLoop_cells (hl : l.chars = cs.map code) (goal : Int) (n off : Nat) (col : Int)
    (hn : cs.length - off ≤ n) :
    wlcoloffsetLoop w tabsize l goal n off col =
      off + Cells.offset (charCells w tabsize) goal col (cs.drop off) := by
  have hlen : l.wllength = cs.length := by rw [← l.length_chars, hl, List.length_map]
  induction n generalizing off col with
  | zero =>
    rw [wlcoloffsetLoop, List.drop_eq_nil_of_le (by omega), Cells.offset, Nat.add_zero]
  | succ n ih =>
    rw [wlcoloffsetLoop, hlen]
    by_cases hoff : off < cs.length
    · have hget : l.wlgetc off = code cs[off] := by
        rw [l.wlgetc_eq (by rw [l.length_chars, hlen]; exact hoff)]
        simp only [hl, List.getElem_map]
      rw [if_pos hoff, hget, List.drop_eq_getElem_cons hoff, Cells.offset]
      dsimp only
      rw [ih (off + 1) _ (by omega)]
      unfold charCells
      split
      · rfl
      · omega
    · rw [if_neg hoff, List.drop_eq_nil_of_le (by omega), Cells.offset, Nat.add_zero]

/-- `wlcoloffset` is the search for a column. -/
theorem wlcoloffset_cells (hl : l.chars = cs.map code) (goal : Int) :
    wlcoloffset w tabsize l goal = Cells.offset (charCells w tabsize) goal 0 cs := by
  have hlen : l.wllength = cs.length := by rw [← l.length_chars, hl, List.length_map]
  unfold wlcoloffset
  rw [wlcoloffsetLoop_cells hl goal _ 0 0 (by omega), Nat.zero_add, List.drop_zero]

end Columns

/-! ## Edits of one line -/

/-- The line `q`, with the characters `cs`, is where a line was, and the others are as
before. -/
structure Edited (e e' : Ed) (as bs : List LineId) (q : LineId) (cs : List UChar) : Prop where
  sound : Sound e'
  lines : e'.lines = as ++ q :: bs
  others : ∀ r ∈ as ++ bs, e'.line r = e.line r
  chars : e'.chars q = cs
  header : e'.b_linep = e.b_linep
  bfro : e'.bfro = e.bfro

section Edits

variable {e e' e'' : Ed} {as bs : List LineId} {p q r : LineId} {cs ds es : List UChar} {o : Nat}
  {z : Zipper UChar}

theorem Edited.refl (h : Sound e) (hl : e.lines = as ++ p :: bs) : Edited e e as bs p (e.chars p) :=
  ⟨h, hl, fun _ _ => rfl, rfl, rfl, rfl⟩

theorem Edited.trans (h : Edited e e' as bs q cs) (h' : Edited e' e'' as bs r ds) :
    Edited e e'' as bs r ds where
  sound := h'.sound
  lines := h'.lines
  others := fun x hx => (h'.others x hx).trans (h.others x hx)
  chars := h'.chars
  header := h'.header.trans h.header
  bfro := h'.bfro.trans h.bfro

theorem Edited.row_congr (h : Edited e e' as bs q cs) :
    as.flatMap e'.row = as.flatMap e.row ∧ bs.flatMap e'.row = bs.flatMap e.row :=
  ⟨flatMap_row_congr fun x hx => h.others x (List.mem_append_left _ hx),
    flatMap_row_congr fun x hx => h.others x (List.mem_append_right _ hx)⟩

theorem Edited.symbols (h : Edited e e' as bs q cs) :
    e'.symbols = as.flatMap e.row ++ (cs ++ nl :: bs.flatMap e.row) := by
  obtain ⟨has, hbs⟩ := h.row_congr
  rw [Ed.symbols, h.lines, List.flatMap_append, List.flatMap_cons, Ed.row, h.chars, has, hbs,
    List.append_assoc]
  rfl

theorem Replaces.edited (h : Replaces e e' as bs q cs o) (hs : Sound e)
    (hl : e.lines = as ++ e.dot.p :: bs) (hq : Placed e e' q) (hcs : Inline cs)
    (ho : o ≤ cs.length) (hbfro : e'.bfro = e.bfro) : Edited e e' as bs q cs where
  sound := (h.shows_placed hs hl hq hcs ho).sound
  lines := h.lines
  others := h.others
  chars := Ed.chars_eq h.text hcs
  header := h.header.1
  bfro := hbfro

/-- Put the cursor somewhere, and save that. -/
def Ed.moved (e : Ed) (pos : POS) : Ed := (e.setDot pos).saveundo .UMOVE (some (e.setDot pos).dot)

/-- Moving the cursor is no edit. -/
theorem Sound.moved (h : Sound e) (hl : e.lines = as ++ p :: bs) (ho : o ≤ (e.chars p).length) :
    Shows (e.moved ⟨p, o⟩)
      ⟨as.flatMap e.row ++ (e.chars p).take o, (e.chars p).drop o ++ nl :: bs.flatMap e.row⟩ ∧
      (e.moved ⟨p, o⟩).dot = ⟨p, o⟩ ∧ Edited e (e.moved ⟨p, o⟩) as bs p (e.chars p) := by
  have hshows := (h.shows_at hl ho).saveundo .UMOVE (some (e.setDot ⟨p, o⟩).dot)
  refine ⟨hshows, saveundo_dot _ _ _, hshows.sound, ?_, fun r _ => ?_, ?_, ?_, ?_⟩
  · exact (saveundo_lines _ _ _).trans hl
  · exact congrFun (saveundo_line _ _ _) r
  · exact congrFun (saveundo_chars _ _ _) p
  · exact saveundo_b_linep _ _ _
  · exact saveundo_bfro _ _ _

theorem Inline.remove (h : Inline (ds ++ (cs ++ es))) : Inline (ds ++ es) := by
  have hsub : (ds ++ es).Sublist (ds ++ (cs ++ es)) :=
    (List.Sublist.refl ds).append (List.sublist_append_right cs es)
  exact ⟨fun d hd => h.whole d (hsub.subset hd), fun hm => h.noBreak (hsub.subset hm)⟩

/-- Deleting some characters within a line. -/
theorem ldelete_edits (h : Sound e) (hro : e.bfro = false) (hl : e.lines = as ++ p :: bs)
    (hcs : e.chars p = ds ++ (cs ++ es)) {n : Int} (hn : n = cs.length) :
    ∃ e', ldelete n (e.moved ⟨p, ds.length⟩) = (e', true) ∧ e'.dot = ⟨p, ds.length⟩ ∧
      Edited e e' as bs p (ds ++ es) ∧ ∃ z, Shows e' z := by
  subst hn
  have hin : Inline (e.chars p) := (h.chars (by rw [hl]; simp)).1
  obtain ⟨hshows, hdot, hedit⟩ := h.moved (o := ds.length) hl (by
    rw [hcs, List.length_append]
    exact Nat.le_add_right _ _)
  have hro' := hedit.bfro.trans hro
  have hl' : (e.moved ⟨p, ds.length⟩).lines = as ++ (e.moved ⟨p, ds.length⟩).dot.p :: bs := by
    rw [hdot]
    exact hedit.lines
  have hchars : (e.moved ⟨p, ds.length⟩).chars (e.moved ⟨p, ds.length⟩).dot.p = ds ++ (cs ++ es) := by
    rw [hdot]
    exact hedit.chars.trans hcs
  have hrest : (e.moved ⟨p, ds.length⟩).rest = cs ++ es := by
    rw [Ed.rest, hchars, hdot, List.drop_left]
  obtain ⟨hshows', htrue⟩ := ldelete_shows hshows hro' cs.length
  obtain ⟨hrep, hplaced⟩ := ldelete_replaces hshows hro' hl' (k := cs.length) (by
    rw [hrest, List.length_append]
    exact Nat.le_add_right _ _)
  rw [hrest, hchars, hdot, List.take_left, List.drop_left] at hrep
  have hdel := hrep.edited hshows.sound hl' (by rw [hdot] at hplaced; exact hplaced) (hcs ▸ hin).remove
    (by rw [List.length_append]; exact Nat.le_add_right _ _) (ldelete_bfro _ _)
  exact ⟨_, Prod.ext rfl htrue, hrep.dot, hedit.trans hdel, _, hshows'⟩

theorem uputc_space : uputc 0x20 = [0x20] := by decide

theorem spells_spaces (n : Nat) : (Insertion.copies n 0x20).Spells (List.replicate n [0x20]) :=
  uputc_space ▸ spells_copies n (by decide) (by decide)

/-- Inserting characters at the cursor. -/
theorem linsert_edits (h : Shows e z) (hro : e.bfro = false) (hl : e.lines = as ++ p :: bs)
    (hdot : e.dot = ⟨p, ds.length⟩) (hcs : e.chars p = ds ++ es) {a : Insertion} (ha : a.Spells cs) :
    ∃ e' q, linsert a e = (e', true) ∧ e'.dot = ⟨q, ds.length + cs.length⟩ ∧
      Edited e e' as bs q (ds ++ (cs ++ es)) ∧ ∃ z, Shows e' z := by
  have hl' : e.lines = as ++ e.dot.p :: bs := by rw [hdot, hl]
  obtain ⟨hshows, htrue⟩ := linsert_shows h hro ha
  obtain ⟨q, hrep, hplaced⟩ := linsert_replaces h hro hl' ha
  obtain ⟨hin, ho, -, -⟩ := h.inserted ha.inline
  have hresult : e.inserted cs = ds ++ (cs ++ es) := by
    rw [Ed.inserted, hdot, hcs, List.take_left, List.drop_left, List.append_assoc]
  have hedit := hrep.edited h.sound hl' hplaced hin ho (linsert_bfro _ _)
  exact ⟨_, q, Prod.ext rfl htrue, by rw [hrep.dot, hdot], hresult ▸ hedit, _, hshows⟩

/-! ## Expanding a tab -/

variable {w : Wcwidth} {tabsize : Nat} {goal col : Int} {c : UChar}

theorem expandAt_split (ho : Cells.offset (charCells w tabsize) goal col (ds ++ c :: es) = ds.length) :
    expandAt w tabsize goal col (ds ++ c :: es) =
      if code c = tab ∧ Cells.column (charCells w tabsize) col ds < goal then
        ds ++ (List.replicate (charCells w tabsize c (Cells.column (charCells w tabsize) col ds)).toNat [0x20]
          ++ es)
      else ds ++ c :: es := by
  induction ds generalizing col with
  | nil =>
    rw [List.nil_append, Cells.offset, List.length_nil] at ho
    rw [List.nil_append, expandAt, Cells.column, List.nil_append]
    by_cases hcol : col ≥ goal
    · rw [if_pos hcol, if_neg fun h => Int.not_lt.mpr hcol h.2]
    · have hnext : col + charCells w tabsize c col > goal := by
        by_contra hnot
        rw [if_neg fun h => h.elim hcol hnot] at ho
        cases ho
      have hwidth : col + charCells w tabsize c col - col = charCells w tabsize c col := by omega
      rw [if_neg hcol, if_pos hnext, hwidth]
      by_cases htab : code c = tab
      · rw [if_pos htab, if_pos ⟨htab, Int.not_le.mp hcol⟩]
      · rw [if_neg htab, if_neg fun h => htab h.1]
  | cons d ds ih =>
    rw [List.cons_append, Cells.offset, List.length_cons] at ho
    split at ho
    · cases ho
    · rename_i hstop
      rw [List.cons_append, expandAt, if_neg fun h => hstop (.inl h), if_neg fun h => hstop (.inr h),
        ih (Nat.succ.inj ho), Cells.column]
      split <;> rfl

/-- Where the search finds nothing, nothing is expanded. -/
theorem expandAt_end (ho : Cells.offset (charCells w tabsize) goal col cs = cs.length) :
    expandAt w tabsize goal col cs = cs := by
  induction cs generalizing col with
  | nil => rfl
  | cons c cs ih =>
    rw [Cells.offset, List.length_cons] at ho
    split at ho
    · cases ho
    · rename_i hstop
      rw [expandAt, if_neg fun h => hstop (.inl h), if_neg fun h => hstop (.inr h),
        ih (Nat.succ.inj ho)]

/-- The text of a line of whole characters. -/
theorem Sound.lineText_chars (h : Sound e) (hp : p ∈ e.lines) :
    (e.lineText p).chars = (e.chars p).map code := by
  obtain ⟨hin, htext⟩ := h.chars hp
  unfold Ed.lineText
  rw [htext]
  exact chars_flatten hin.whole

variable (w tabsize) in
/-- **`rectexpandtab`** puts spaces in the place of a character. -/
theorem rectexpandtab_edits (h : Sound e) (hro : e.bfro = false) (hl : e.lines = as ++ p :: bs)
    (hcs : e.chars p = ds ++ c :: es) :
    ∃ e' q, rectexpandtab w tabsize p ds.length e = (e', true) ∧ e'.dot.p = q ∧
      Edited e e' as bs q (ds ++ (List.replicate
        (tabWidth tabsize (Cells.column (charCells w tabsize) 0 ds)).toNat [0x20] ++ es)) := by
  have hcol : wlcolumn w tabsize (e.lineText p) ds.length = Cells.column (charCells w tabsize) 0 ds := by
    have ho : ds.length ≤ (e.chars p).length := by
      rw [hcs, List.length_append]
      exact Nat.le_add_right _ _
    rw [wlcolumn_cells (h.lineText_chars (by rw [hl]; simp)) ho, hcs, List.take_left]
  have hone : e.chars p = ds ++ ([c] ++ es) := hcs
  obtain ⟨e1, hdelete, hdot, hdel, z, hshows⟩ := ldelete_edits (n := 1) h hro hl hone rfl
  obtain ⟨e2, q, hinsert, hq, hins, -⟩ := linsert_edits hshows (hdel.bfro.trans hro) hdel.lines hdot
    hdel.chars (spells_spaces (tabWidth tabsize (Cells.column (charCells w tabsize) 0 ds)).toNat)
  refine ⟨e2, q, ?_, by rw [hq], hdel.trans hins⟩
  unfold rectexpandtab
  rw [hcol]
  show (match ldelete 1 (e.moved ⟨p, ds.length⟩) with
    | (e, status) => if !status then (e, false) else linsert _ e) = _
  rw [hdelete]
  exact hinsert

variable (w tabsize) in
/-- The loop of `rectcutline` expands a tab that the edge is inside of, and leaves any other
line alone. -/
theorem expandEdge_cases (h : Sound e) (hp : p ∈ e.lines) (goal : Int) :
    expandEdge w tabsize goal p e = (e, p, true) ∧
      expandAt w tabsize goal 0 (e.chars p) = e.chars p ∨
    ∃ ds c es, e.chars p = ds ++ c :: es ∧ code c = tab ∧
      expandAt w tabsize goal 0 (e.chars p) = ds ++ (List.replicate
        (tabWidth tabsize (Cells.column (charCells w tabsize) 0 ds)).toNat [0x20] ++ es) ∧
      expandEdge w tabsize goal p e =
        let (e, status) := rectexpandtab w tabsize p ds.length e
        if !status then (e, p, false) else (e, e.dot.p, true) := by
  have hchars := h.lineText_chars hp
  have hlen : (e.line p).wllength = (e.chars p).length := wllength_eq e p (h.inline p hp)
  unfold expandEdge
  rw [wlcoloffset_cells hchars, hlen]
  by_cases hoff : Cells.offset (charCells w tabsize) goal 0 (e.chars p) < (e.chars p).length
  · obtain ⟨ds, c, es, hcs, hds⟩ : ∃ ds c es, e.chars p = ds ++ c :: es ∧
        Cells.offset (charCells w tabsize) goal 0 (e.chars p) = ds.length := by
      refine ⟨_, _, _, (List.take_append_drop _ _).symm.trans (congrArg _
        (List.drop_eq_getElem_cons hoff)), ?_⟩
      rw [List.length_take, Nat.min_eq_left (Nat.le_of_lt hoff)]
    have hget : (e.lineText p).wlgetc ds.length = code c := by
      have hlt : ds.length < (e.lineText p).chars.length := by
        rw [hchars, List.length_map, hcs, List.length_append, List.length_cons]
        omega
      rw [(e.lineText p).wlgetc_eq hlt]
      simp only [hchars, hcs, List.getElem_map, List.getElem_append_right (Nat.le_refl _),
        Nat.sub_self, List.getElem_cons_zero]
    have hcol : wlcolumn w tabsize (e.lineText p) ds.length =
        Cells.column (charCells w tabsize) 0 ds := by
      rw [wlcolumn_cells hchars (by rw [← hds]; exact Nat.le_of_lt hoff), hcs, List.take_left]
    have hoffset : Cells.offset (charCells w tabsize) goal 0 (ds ++ c :: es) = ds.length := by
      rw [← hcs]
      exact hds
    have hexpand := expandAt_split hoffset
    rw [hds]
    dsimp only
    rw [hds] at hoff
    rw [hget, hcol]
    by_cases htab : code c = tab ∧ Cells.column (charCells w tabsize) 0 ds < goal
    · have hwidth : charCells w tabsize c (Cells.column (charCells w tabsize) 0 ds) =
          tabWidth tabsize (Cells.column (charCells w tabsize) 0 ds) := if_pos htab.1
      rw [if_pos ⟨hoff, htab⟩]
      refine .inr ⟨ds, c, es, hcs, htab.1, ?_, rfl⟩
      rw [hcs, hexpand, if_pos htab, hwidth]
    · rw [if_neg fun hand => htab hand.2]
      refine .inl ⟨rfl, ?_⟩
      rw [hcs, hexpand, if_neg htab]
  · have hend : Cells.offset (charCells w tabsize) goal 0 (e.chars p) = (e.chars p).length :=
      Nat.le_antisymm Cells.offset_le (Nat.le_of_not_lt hoff)
    rw [if_neg fun h => hoff h.1]
    exact .inl ⟨rfl, expandAt_end hend⟩

variable (w tabsize) in
/-- **An edge** is expanded. -/
theorem expandEdge_edits (h : Sound e) (hro : e.bfro = false) (hl : e.lines = as ++ p :: bs)
    (goal : Int) :
    ∃ e' q, expandEdge w tabsize goal p e = (e', q, true) ∧ (e.dot.p = p → e'.dot.p = q) ∧
      Edited e e' as bs q (expandAt w tabsize goal 0 (e.chars p)) := by
  rcases expandEdge_cases w tabsize h (p := p) (by rw [hl]; simp) goal with
    ⟨hrun, hsame⟩ | ⟨ds, c, es, hcs, -, hexpand, hrun⟩
  · rw [hrun, hsame]
    exact ⟨e, p, rfl, id, Edited.refl h hl⟩
  · obtain ⟨e', q, htab, hq, hedit⟩ := rectexpandtab_edits w tabsize h hro hl hcs
    rw [hrun, hexpand, htab]
    exact ⟨e', q, by rw [← hq]; rfl, fun _ => hq, hedit⟩

/-! ## The cut -/

variable {s t : Int}

variable (w tabsize s) in
theorem kept_append (xs : List UChar) : kept w tabsize s xs ++ fromEdge w tabsize s xs = xs :=
  List.take_append_drop _ _

variable (w tabsize s) in
theorem length_kept (xs : List UChar) :
    (kept w tabsize s xs).length = Cells.offset (charCells w tabsize) s 0 xs := by
  rw [kept, List.length_take, Nat.min_eq_left Cells.offset_le]

variable (w tabsize s t) in
theorem length_cutChars (xs : List UChar) :
    (cutChars w tabsize s t xs).length = cutCount w tabsize s t xs := by
  have hle : cutCount w tabsize s t xs ≤ (fromEdge w tabsize s xs).length := Cells.reach_le
  rw [cutChars, List.length_take, Nat.min_eq_left hle]

/-- The bytes that `rectcutline` counts. -/
def cutBytes (w : Wcwidth) (tabsize : Nat) (s t : Int) (xs : List UChar) : Nat :=
  (cutChars w tabsize s t xs).flatten.length

/-- The cells that `rectcutline` counts. -/
def cutWidth (w : Wcwidth) (tabsize : Nat) (s t : Int) (xs : List UChar) : Int :=
  Cells.column (charCells w tabsize) (edgeColumn w tabsize s xs) (cutChars w tabsize s t xs) -
    edgeColumn w tabsize s xs

variable (w tabsize s t) in
/-- The part of `rectcutline` behind the loop: it deletes as many characters as the
characters to be cut have bytes, and may put as many blanks there as these have cells. -/
theorem cutCells_eq (h : Sound e) (hp : p ∈ e.lines) (hst : s ≤ t) (blank : Bool) :
    cutCells w tabsize p s t blank e =
      if cutCount w tabsize s t (e.chars p) = 0 then (e, true)
      else
        let (e', status) := ldelete (cutBytes w tabsize s t (e.chars p))
          (e.moved ⟨p, (kept w tabsize s (e.chars p)).length⟩)
        if !status then (e', false)
        else if blank then
          linsert (.copies (cutWidth w tabsize s t (e.chars p)).toNat 0x20) e'
        else (e', true) := by
  have hchars := h.lineText_chars hp
  have hlen : (e.lineText p).wllength = (e.chars p).length := wllength_eq e p (h.inline p hp)
  obtain ⟨hin, htext⟩ := h.chars hp
  have hstop : (if Cells.offset (charCells w tabsize) t 0 (e.chars p) < (e.chars p).length ∧
      wlcolumn w tabsize (e.lineText p) (Cells.offset (charCells w tabsize) t 0 (e.chars p)) < t then
        Cells.offset (charCells w tabsize) t 0 (e.chars p) + 1
      else Cells.offset (charCells w tabsize) t 0 (e.chars p)) =
      (kept w tabsize s (e.chars p)).length + cutCount w tabsize s t (e.chars p) := by
    rw [wlcolumn_cells hchars Cells.offset_le, length_kept]
    exact Cells.reach_eq.symm.trans (Cells.reach_from hst)
  have hcut : (e.chars p).take ((kept w tabsize s (e.chars p)).length +
      cutCount w tabsize s t (e.chars p)) =
      kept w tabsize s (e.chars p) ++ cutChars w tabsize s t (e.chars p) := by
    rw [length_kept, List.take_add]
    rfl
  have hkept : (e.chars p).take (kept w tabsize s (e.chars p)).length =
      kept w tabsize s (e.chars p) := by
    rw [length_kept]
    rfl
  have hbytes : uoffset (e.line p).l_text
      ((kept w tabsize s (e.chars p)).length + cutCount w tabsize s t (e.chars p)) -
        uoffset (e.line p).l_text (kept w tabsize s (e.chars p)).length =
      cutBytes w tabsize s t (e.chars p) := by
    rw [htext, uoffset_flatten hin.whole, uoffset_flatten hin.whole, hcut, hkept,
      List.flatten_append, List.length_append, Nat.add_sub_cancel_left]
    rfl
  have hstart : (kept w tabsize s (e.chars p)).length ≤ (e.chars p).length := by
    rw [length_kept]
    exact Cells.offset_le
  have hend : (kept w tabsize s (e.chars p)).length + cutCount w tabsize s t (e.chars p) ≤
      (e.chars p).length := by
    have hall := congrArg List.length (kept_append w tabsize s (e.chars p))
    have hle : cutCount w tabsize s t (e.chars p) ≤ (fromEdge w tabsize s (e.chars p)).length :=
      Cells.reach_le
    rw [List.length_append] at hall
    omega
  have hwidth : wlcolumn w tabsize (e.lineText p)
      ((kept w tabsize s (e.chars p)).length + cutCount w tabsize s t (e.chars p)) -
        wlcolumn w tabsize (e.lineText p) (kept w tabsize s (e.chars p)).length =
      cutWidth w tabsize s t (e.chars p) := by
    rw [wlcolumn_cells hchars hend, wlcolumn_cells hchars hstart, hcut, hkept, Cells.column_append]
    rfl
  have htexts : (e.lineText p).text = (e.line p).l_text := rfl
  unfold cutCells
  dsimp only
  rw [wlcoloffset_cells hchars, wlcoloffset_cells hchars, hlen, hstop, ← length_kept, htexts,
    hbytes, hwidth]
  by_cases hnone : cutCount w tabsize s t (e.chars p) = 0
  · rw [if_pos hnone, if_pos (by omega)]
  · rw [if_neg hnone, if_neg (by omega)]
    rfl

variable (w tabsize s t) in
/-- What is cut without blanks. -/
theorem cutCells_run (h : Sound e) (hp : p ∈ e.lines) (hst : s ≤ t) :
    (cutCount w tabsize s t (e.chars p) = 0 → cutCells w tabsize p s t false e = (e, true)) ∧
    (cutCount w tabsize s t (e.chars p) ≠ 0 → ∀ e',
      ldelete (cutBytes w tabsize s t (e.chars p))
        (e.moved ⟨p, (kept w tabsize s (e.chars p)).length⟩) = (e', true) →
      cutCells w tabsize p s t false e = (e', true)) := by
  rw [cutCells_eq w tabsize s t h hp hst]
  refine ⟨fun hnone => if_pos hnone, fun hsome e' hrun => ?_⟩
  rw [if_neg hsome, hrun]
  rfl

variable (w tabsize s t) in
/-- A cut within the line. -/
theorem cutCells_edits (h : Sound e) (hro : e.bfro = false) (hl : e.lines = as ++ p :: bs)
    (hst : s ≤ t)
    (hfits : cutBytes w tabsize s t (e.chars p) ≤ (fromEdge w tabsize s (e.chars p)).length) :
    ∃ e', cutCells w tabsize p s t false e = (e', true) ∧
      Edited e e' as bs p (kept w tabsize s (e.chars p) ++
        (fromEdge w tabsize s (e.chars p)).drop (cutBytes w tabsize s t (e.chars p))) := by
  obtain ⟨hnone, hsome⟩ := cutCells_run w tabsize s t h
    (by rw [hl]; simp : p ∈ e.lines) hst
  by_cases hcount : cutCount w tabsize s t (e.chars p) = 0
  · have hbytes : cutBytes w tabsize s t (e.chars p) = 0 := by
      rw [cutBytes, cutChars, hcount]
      rfl
    refine ⟨e, hnone hcount, ?_⟩
    rw [hbytes, List.drop_zero, kept_append]
    exact Edited.refl h hl
  · have hlen : ((fromEdge w tabsize s (e.chars p)).take
        (cutBytes w tabsize s t (e.chars p))).length = cutBytes w tabsize s t (e.chars p) := by
      rw [List.length_take, Nat.min_eq_left hfits]
    have hcs : e.chars p = kept w tabsize s (e.chars p) ++
        ((fromEdge w tabsize s (e.chars p)).take (cutBytes w tabsize s t (e.chars p)) ++
          (fromEdge w tabsize s (e.chars p)).drop (cutBytes w tabsize s t (e.chars p))) := by
      rw [List.take_append_drop, kept_append]
    obtain ⟨e', hrun, -, hedit, -⟩ := ldelete_edits h hro hl hcs (congrArg Nat.cast hlen.symm)
    exact ⟨e', hsome hcount e' hrun, hedit⟩

variable (w tabsize s t) in
/-- A cut goes on into the lines below, up to the last newline. -/
theorem cutCells_symbols (h : Sound e) (hro : e.bfro = false) (hl : e.lines = as ++ p :: bs)
    (hst : s ≤ t) :
    ∃ e', cutCells w tabsize p s t false e = (e', true) ∧ Sound e' ∧
      e'.symbols = as.flatMap e.row ++ (kept w tabsize s (e.chars p) ++
        (fromEdge w tabsize s (e.chars p) ++ nl :: bs.flatMap e.row).drop
          (min (cutBytes w tabsize s t (e.chars p))
            ((fromEdge w tabsize s (e.chars p)).length + (bs.flatMap e.row).length))) := by
  obtain ⟨hnone, hsome⟩ := cutCells_run w tabsize s t h
    (by rw [hl]; simp : p ∈ e.lines) hst
  by_cases hcount : cutCount w tabsize s t (e.chars p) = 0
  · have hbytes : cutBytes w tabsize s t (e.chars p) = 0 := by
      rw [cutBytes, cutChars, hcount]
      rfl
    refine ⟨e, hnone hcount, h, ?_⟩
    rw [hbytes, Nat.zero_min, List.drop_zero,
      ← List.append_assoc (kept w tabsize s (e.chars p)), kept_append]
    exact (Edited.refl h hl).symbols
  · have hkept : (e.chars p).take (kept w tabsize s (e.chars p)).length =
        kept w tabsize s (e.chars p) := by
      rw [length_kept]
      rfl
    have hdrop : (e.chars p).drop (kept w tabsize s (e.chars p)).length =
        fromEdge w tabsize s (e.chars p) := by
      rw [length_kept]
      rfl
    obtain ⟨hshows, -, hedit⟩ := h.moved (o := (kept w tabsize s (e.chars p)).length) hl (by
      rw [length_kept]
      exact Cells.offset_le)
    obtain ⟨hshows', htrue⟩ := ldelete_shows hshows (hedit.bfro.trans hro)
      (cutBytes w tabsize s t (e.chars p))
    refine ⟨_, hsome hcount _ (Prod.ext rfl htrue), hshows'.sound, ?_⟩
    rw [← hshows'.text, hkept, hdrop, Zipper.text, Zipper.delete]
    dsimp only
    rw [List.length_append, List.length_cons, ← Nat.add_assoc, Nat.add_sub_cancel, List.append_assoc]

/-- A line that has been taken out of the buffer, and whose address is not handed out
again. -/
def Gone (r : LineId) (e : Ed) : Prop := r ∉ e.lines ∧ r < e.nextline

theorem ldelnewline_gone (h : Gone r e) : Gone r (ldelnewline e) := by
  obtain ⟨hmem, hlt⟩ := h
  unfold ldelnewline
  dsimp only
  split
  · exact ⟨hmem, hlt⟩
  · split
    · exact ⟨fun hr => hmem (List.mem_of_mem_erase hr), hlt⟩
    · refine ⟨fun hr => ?_, Nat.lt_succ_of_lt hlt⟩
      obtain ⟨x, hx, hxr⟩ := List.mem_map.mp hr
      split at hxr
      · exact Nat.ne_of_lt hlt hxr.symm
      · exact hmem (hxr ▸ List.mem_of_mem_erase hx)

theorem Gone.saveundo (h : Gone r e) (k : Saved) (pos : Option POS) : Gone r (e.saveundo k pos) := by
  unfold Gone
  rwa [saveundo_lines, saveundo_nextline]

theorem ldeleteStep_gone (n : Nat) (h : Gone r e) : Gone r (ldeleteStep n e).1 := by
  have hl : Gone r e.lchange := h
  have hjoin : ∀ k, Gone r ((ldelnewline e.lchange).saveundo k none) := fun k =>
    (ldelnewline_gone hl).saveundo k none
  have hcut : ∀ k l f, Gone r (((e.lchange.saveundo k none).setLine e.dot.p l).allwind f) :=
    fun k l f => hl.saveundo k none
  unfold ldeleteStep
  dsimp only
  split_ifs
  · exact hjoin _
  · exact hcut _ _ _
  · exact hjoin _
  · exact hcut _ _ _

theorem ldeleteLoop_gone (f n : Nat) (h : Gone r e) : Gone r (ldeleteLoop f n e).1 := by
  induction f generalizing n e with
  | zero => cases n <;> exact h
  | succ f ih =>
    cases n with
    | zero => exact h
    | succ n =>
      rw [ldeleteLoop]
      split
      · exact h
      · exact ih _ (ldeleteStep_gone _ h)

/-- Joining frees the next line. -/
theorem ldelnewline_next (h : Shows e z) (hl : e.lines = as ++ e.dot.p :: r :: bs) :
    Gone r (ldelnewline e) := by
  have hr : r ∈ e.lines := by
    rw [hl]
    simp
  have hlt : r < e.nextline := h.sound.fresh r (List.mem_cons_of_mem _ hr)
  have herase : r ∉ e.lines.erase r := fun hmem =>
    absurd rfl (h.sound.nodup.mem_erase_iff.mp hmem).1
  have hhead : r ≠ e.b_linep := fun heq => h.sound.header (heq ▸ hr)
  unfold ldelnewline
  dsimp only
  rw [h.lforw hl, List.headD_cons, if_neg hhead]
  split
  · exact ⟨herase, hlt⟩
  · refine ⟨fun hmem => ?_, Nat.lt_succ_of_lt hlt⟩
    obtain ⟨x, hx, hxr⟩ := List.mem_map.mp hmem
    split at hxr
    · exact Nat.ne_of_lt hlt hxr.symm
    · exact herase (hxr ▸ hx)

/-- **Deleting more than the rest of a line frees the next one.** -/
theorem ldeleteLoop_next (h : Shows e z) (hl : e.lines = as ++ e.dot.p :: r :: bs) {f n : Nat}
    (hf : n ≤ f) (hn : e.rest.length < n) : Gone r (ldeleteLoop f n e).1 := by
  induction f generalizing n e z with
  | zero => omega
  | succ f ih =>
    cases n with
    | zero => omega
    | succ n =>
      have hround : ldeleteLoop (f + 1) (n + 1) e =
          ldeleteLoop f (n + 1 - (ldeleteStep (n + 1) e).2) (ldeleteStep (n + 1) e).1 := by
        rw [ldeleteLoop, if_neg h.ne_header]
      rw [hround]
      obtain ⟨hshows, hcount⟩ := ldeleteStep_shows (n := n + 1) h (Nat.succ_pos n)
      have hstep := congrArg Prod.fst (ldeleteStep_eq (n := n + 1) h (Nat.succ_pos n))
      dsimp only at hstep
      by_cases hnil : e.rest = []
      · -- the newline goes, and the line with it
        rw [if_pos hnil] at hstep
        have hgone : Gone r (ldeleteStep (n + 1) e).1 := by
          rw [hstep]
          exact (ldelnewline_next h.lchange hl).saveundo _ _
        exact ldeleteLoop_gone _ _ hgone
      · -- the rest of the line goes first
        rw [if_neg hnil] at hstep
        have hdel : e.deleted (n + 1) = e.rest := by
          rw [Ed.deleted, if_neg hnil, List.take_of_length_le (Nat.le_of_lt hn)]
        obtain ⟨hrep, -⟩ := deleteLine_replaces
          (h.lchange.saveundo (.UDELETE (e.deleted (n + 1)).length (e.deleted (n + 1)).flatten) none)
          (saved_lines hl _ _) (e.deleted (n + 1)).length
        rw [← hstep] at hrep
        have hdot := hrep.dot
        rw [saveundo_dot] at hdot
        have hlines := hrep.lines
        have hpos := List.length_pos_iff.mpr hnil
        have hrest : (ldeleteStep (n + 1) e).1.rest = [] := by
          have hchars := Ed.chars_eq hrep.text
            ((h.lchange.saveundo (.UDELETE (e.deleted (n + 1)).length
              (e.deleted (n + 1)).flatten) none).remaining _).1
          rw [saveundo_rest, saveundo_chars, saveundo_dot, hdel] at hchars
          have hout : e.lchange.rest = e.rest := rfl
          rw [hout, List.drop_length, List.append_nil] at hchars
          rw [Ed.rest, hdot]
          refine List.drop_eq_nil_of_le ?_
          show ((ldeleteStep (n + 1) e).1.chars e.lchange.dot.p).length ≤ _
          rw [hchars]
          exact List.length_take_le _ _
        refine ih hshows ?_ ?_ ?_
        · rw [hlines, hdot, saveundo_dot]
        · rw [hcount, hdel]
          omega
        · rw [hcount, hdel, hrest, List.length_nil]
          omega

/-- An insertion may take a new line, but no old one. -/
theorem insertLine_gone {dot : POS} {offset : Nat} {text : List Byte} (h : Gone r e) :
    Gone r (insertLine dot offset text e).1 := by
  obtain ⟨hmem, hlt⟩ := h
  have hne : r ≠ e.nextline := Nat.ne_of_lt hlt
  unfold insertLine
  dsimp only
  split_ifs
  · refine ⟨fun hin => ?_, Nat.lt_succ_of_lt hlt⟩
    rcases List.mem_append.mp hin with hin | hin
    · exact hmem hin
    · exact hne (List.mem_singleton.mp hin)
  · refine ⟨fun hin => ?_, Nat.lt_succ_of_lt hlt⟩
    obtain ⟨q, hq, hqp⟩ := List.mem_map.mp hin
    split at hqp
    · exact hne hqp.symm
    · exact hmem (hqp ▸ hq)
  · exact ⟨hmem, hlt⟩

theorem linsert_gone (a : Insertion) (h : Gone r e) : Gone r (linsert a e).1 := by
  have hsaved : Gone r (e.lchange.saveundo a.saved none) := Gone.saveundo (e := e.lchange) h _ _
  unfold linsert
  dsimp only
  split_ifs
  · exact h
  · exact hsaved
  · exact insertLine_gone hsaved

theorem ldelete_gone (n : Int) (h : Gone r e) : Gone r (ldelete n e).1 := by
  unfold ldelete
  split_ifs
  · exact h
  · exact h
  · exact ldeleteLoop_gone _ _ h

/-- A cut that goes on into the next line frees that line. -/
theorem cutCells_gone (h : Sound e) (hro : e.bfro = false) (hl : e.lines = as ++ p :: r :: bs)
    (hst : s ≤ t) (blank : Bool)
    (hbig : (fromEdge w tabsize s (e.chars p)).length < cutBytes w tabsize s t (e.chars p)) :
    Gone r (cutCells w tabsize p s t blank e).1 := by
  have hcount : cutCount w tabsize s t (e.chars p) ≠ 0 := by
    intro hzero
    rw [cutBytes, cutChars, hzero] at hbig
    exact Nat.not_lt_zero _ hbig
  obtain ⟨hshows, hdot, hedit⟩ := h.moved (o := (kept w tabsize s (e.chars p)).length) hl (by
    rw [length_kept]
    exact Cells.offset_le)
  have hro' := hedit.bfro.trans hro
  have hwrite : (!(e.moved ⟨p, (kept w tabsize s (e.chars p)).length⟩).checkreadonly) = false := by
    simp [Ed.checkreadonly, hro']
  have hlines : (e.moved ⟨p, (kept w tabsize s (e.chars p)).length⟩).lines =
      as ++ (e.moved ⟨p, (kept w tabsize s (e.chars p)).length⟩).dot.p :: r :: bs := by
    rw [hdot]
    exact hedit.lines
  have hrest : (e.moved ⟨p, (kept w tabsize s (e.chars p)).length⟩).rest =
      fromEdge w tabsize s (e.chars p) := by
    rw [Ed.rest, hdot]
    show ((e.moved _).chars p).drop _ = _
    rw [hedit.chars, length_kept]
    rfl
  have hgone : Gone r (ldelete (cutBytes w tabsize s t (e.chars p))
      (e.moved ⟨p, (kept w tabsize s (e.chars p)).length⟩)).1 := by
    unfold ldelete
    rw [if_neg (by omega), hwrite, if_neg Bool.false_ne_true, Int.toNat_natCast]
    exact ldeleteLoop_next hshows hlines (Nat.le_refl _) (by rw [hrest]; exact hbig)
  rw [cutCells_eq w tabsize s t h (by rw [hl]; simp) hst, if_neg hcount]
  generalize ldelete _ _ = result at hgone ⊢
  obtain ⟨e', status⟩ := result
  dsimp only at hgone ⊢
  split_ifs
  · exact hgone
  · exact linsert_gone _ hgone
  · exact hgone

variable (w tabsize s t) in
/-- **`rectcutline`** expands the edges, and cuts. -/
theorem rectcutline_run (h : Sound e) (hro : e.bfro = false) (hl : e.lines = as ++ p :: bs) :
    ∃ e' q, (∀ blank, rectcutline w tabsize p s t blank e = cutCells w tabsize q s t blank e') ∧
      (e.dot.p = p → e'.dot.p = q) ∧ Edited e e' as bs q (expanded w tabsize s t (e.chars p)) := by
  obtain ⟨e1, q1, hrun1, hdot1, hedit1⟩ := expandEdge_edits w tabsize h hro hl s
  obtain ⟨e2, q2, hrun2, hdot2, hedit2⟩ := expandEdge_edits w tabsize hedit1.sound
    (hedit1.bfro.trans hro) hedit1.lines t
  refine ⟨e2, q2, ?_, fun hdot => hdot2 (hdot1 hdot), ?_⟩
  · intro blank
    unfold rectcutline
    rw [hrun1]
    dsimp only
    rw [hrun2]
  · rw [hedit1.chars] at hedit2
    exact hedit1.trans hedit2

/-! ## The lines of the rectangle -/

theorem charCells_sign (htab : 0 < tabsize) (c : UChar) (col col' : Int)
    (h : 0 < charCells w tabsize c col) : 0 < charCells w tabsize c col' := by
  unfold charCells cellwidth at h ⊢
  split
  · exact tabWidth_pos htab col'
  · rename_i htab'
    rwa [if_neg htab'] at h

theorem cutLine_eq (cs : List UChar) : cutLine w tabsize s t cs =
    kept w tabsize s (expanded w tabsize s t cs) ++
      Cells.outside (charCells w tabsize) s t (edgeColumn w tabsize s (expanded w tabsize s t cs))
        (fromEdge w tabsize s (expanded w tabsize s t cs)) := by
  unfold cutLine edgeColumn
  conv_lhs => rw [← kept_append w tabsize s (expanded w tabsize s t cs)]
  rw [Cells.outside_append, kept, Cells.outside_take_offset]

/-- A cut in the text leaves what is to be left exactly if it takes the characters from
one edge to the other, and just these have a cell in the range. -/
theorem drop_eq_iff (htab : 0 < tabsize) {xs : List UChar} {k : Nat}
    (hn : cutCount w tabsize s t xs ≤ k) (hk : k ≤ (fromEdge w tabsize s xs).length) :
    (fromEdge w tabsize s xs).drop k =
      Cells.outside (charCells w tabsize) s t (edgeColumn w tabsize s xs) (fromEdge w tabsize s xs) ↔
    k = cutCount w tabsize s t xs ∧
      Cells.outside (charCells w tabsize) s t (edgeColumn w tabsize s xs)
        (cutChars w tabsize s t xs) = [] ∧
      Cells.outside (charCells w tabsize) s t
        (Cells.column (charCells w tabsize) (edgeColumn w tabsize s xs) (cutChars w tabsize s t xs))
        (behind w tabsize s t xs) = behind w tabsize s t xs := by
  have hstart : Cells.offset (charCells w tabsize) s (edgeColumn w tabsize s xs)
      (fromEdge w tabsize s xs) = 0 := Cells.offset_drop
  refine (Cells.drop_eq_outside_iff (charCells_sign htab) hstart hn hk).trans ?_
  constructor
  · rintro ⟨rfl, hin, hout⟩
    exact ⟨rfl, hin, hout⟩
  · rintro ⟨rfl, hin, hout⟩
    exact ⟨rfl, hin, hout⟩

variable (w tabsize s t) in
theorem cutCount_le (xs : List UChar) :
    cutCount w tabsize s t xs ≤ (fromEdge w tabsize s xs).length := Cells.reach_le

variable (w tabsize s t) in
theorem cutCount_le_bytes {xs : List UChar} (h : AllUChars xs) :
    cutCount w tabsize s t xs ≤ cutBytes w tabsize s t xs := by
  rw [← length_cutChars]
  exact ((h.drop _).take _).length_le

/-- A cut that stays within its line. -/
theorem cut_within_iff (htab : 0 < tabsize) {xs : List UChar} (hxs : AllUChars xs) (atEnd : Prop)
    (hfits : cutBytes w tabsize s t xs ≤ (fromEdge w tabsize s xs).length) :
    (fromEdge w tabsize s xs).drop (cutBytes w tabsize s t xs) =
      Cells.outside (charCells w tabsize) s t (edgeColumn w tabsize s xs) (fromEdge w tabsize s xs) ↔
    CutFits w tabsize s t atEnd xs := by
  rw [drop_eq_iff htab (cutCount_le_bytes w tabsize s t hxs) hfits]
  constructor
  · rintro ⟨hbytes, hin, hout⟩
    exact ⟨hin, hout, .inl (hbytes.trans (length_cutChars w tabsize s t xs).symm)⟩
  · rintro ⟨hin, hout, hbytes | ⟨-, hnil⟩⟩
    · exact ⟨hbytes.trans (length_cutChars w tabsize s t xs), hin, hout⟩
    · have hle := List.drop_eq_nil_iff.mp hnil
      exact ⟨Nat.le_antisymm (Nat.le_trans hfits hle) (cutCount_le_bytes w tabsize s t hxs), hin, hout⟩

/-- The cut of the last line of the rectangle may go on into the lines below. -/
theorem cut_last_iff (htab : 0 < tabsize) {xs : List UChar} (hxs : AllUChars xs) (e : Ed)
    (bs : List LineId) :
    (fromEdge w tabsize s xs ++ nl :: bs.flatMap e.row).drop
        (min (cutBytes w tabsize s t xs)
          ((fromEdge w tabsize s xs).length + (bs.flatMap e.row).length)) =
      Cells.outside (charCells w tabsize) s t (edgeColumn w tabsize s xs) (fromEdge w tabsize s xs) ++
        nl :: bs.flatMap e.row ↔
    CutFits w tabsize s t (bs = []) xs := by
  have hcount := cutCount_le w tabsize s t xs
  have hbytes := cutCount_le_bytes w tabsize s t hxs
  by_cases hk : min (cutBytes w tabsize s t xs)
      ((fromEdge w tabsize s xs).length + (bs.flatMap e.row).length) ≤
        (fromEdge w tabsize s xs).length
  · rw [List.drop_append_of_le_length hk, List.append_cancel_right_eq,
      drop_eq_iff htab (by omega) hk]
    constructor
    · rintro ⟨hmin, hin, hout⟩
      refine ⟨hin, hout, ?_⟩
      rw [length_cutChars]
      by_cases hle : cutBytes w tabsize s t xs ≤
          (fromEdge w tabsize s xs).length + (bs.flatMap e.row).length
      · exact .inl (by rw [Nat.min_eq_left hle] at hmin; exact hmin)
      · have hnone : (bs.flatMap e.row).length = 0 := by omega
        refine .inr ⟨?_, List.drop_eq_nil_of_le (by omega)⟩
        cases bs with
        | nil => rfl
        | cons q bs =>
          rw [List.flatMap_cons, Ed.row, List.length_append, List.length_append,
            List.length_singleton] at hnone
          omega
    · rintro ⟨hin, hout, hfit | ⟨rfl, hnil⟩⟩
      · rw [length_cutChars] at hfit
        have hfit' : cutBytes w tabsize s t xs = cutCount w tabsize s t xs := hfit
        exact ⟨by omega, hin, hout⟩
      · have hle : (fromEdge w tabsize s xs).length ≤ cutCount w tabsize s t xs :=
          List.drop_eq_nil_iff.mp hnil
        refine ⟨?_, hin, hout⟩
        rw [List.flatMap_nil, List.length_nil]
        omega
  · constructor
    · intro heq
      have hlen := congrArg List.length heq
      rw [List.length_drop, List.length_append, List.length_append, List.length_cons] at hlen
      omega
    · rintro ⟨-, -, hfit | ⟨rfl, hnil⟩⟩
      · rw [length_cutChars] at hfit
        have hfit' : cutBytes w tabsize s t xs = cutCount w tabsize s t xs := hfit
        omega
      · rw [List.flatMap_nil, List.length_nil] at hk
        omega

/-- The lines that a killed rectangle leaves: those above it, what is to be left of its
own ones, and those below it. -/
def linesLeft (w : Wcwidth) (tabsize : Nat) (s t : Int) (e : Ed) (as ms bs : List LineId) :
    List (List UChar) :=
  as.map e.chars ++ (ms.map fun p => cutLine w tabsize s t (e.chars p)) ++ bs.map e.chars

variable (w tabsize s t) in
/-- What is to be left of a line has no newline in it. -/
theorem cutLine_noBreak (h : Sound e) (hro : e.bfro = false) (hp : p ∈ e.lines) :
    Inline (expanded w tabsize s t (e.chars p)) ∧ nl ∉ cutLine w tabsize s t (e.chars p) := by
  obtain ⟨as, bs, hl⟩ := List.append_of_mem hp
  obtain ⟨e', q, -, -, hedit⟩ := rectcutline_run w tabsize s t h hro hl
  have hin := (hedit.sound.chars (p := q) (by rw [hedit.lines]; simp)).1
  rw [hedit.chars] at hin
  exact ⟨hin, fun hmem => hin.noBreak (Cells.outside_sublist.subset hmem)⟩

variable (w tabsize s t) in
theorem linesLeft_noBreak (h : Sound e) (hro : e.bfro = false) {ms : List LineId}
    (hl : e.lines = as ++ ms ++ bs) : ∀ l ∈ linesLeft w tabsize s t e as ms bs, nl ∉ l := by
  intro l hmem
  rcases List.mem_append.mp hmem with hmem | hmem
  · rcases List.mem_append.mp hmem with hmem | hmem
    · obtain ⟨q, hq, rfl⟩ := List.mem_map.mp hmem
      exact (h.chars (by rw [hl]; simp [hq])).1.noBreak
    · obtain ⟨q, hq, rfl⟩ := List.mem_map.mp hmem
      exact (cutLine_noBreak w tabsize s t h hro (by rw [hl]; simp [hq])).2
  · obtain ⟨q, hq, rfl⟩ := List.mem_map.mp hmem
    exact (h.chars (by rw [hl]; simp [hq])).1.noBreak

theorem linesLeft_flatMap (e : Ed) (ms : List LineId) :
    (linesLeft w tabsize s t e as ms bs).flatMap (· ++ [nl]) = as.flatMap e.row ++
      ((ms.map fun p => cutLine w tabsize s t (e.chars p)).flatMap (· ++ [nl]) ++
        bs.flatMap e.row) := by
  have hrows : ∀ ls : List LineId, (ls.map e.chars).flatMap (· ++ [nl]) = ls.flatMap e.row := by
    intro ls
    rw [List.flatMap_map]
    rfl
  rw [linesLeft, List.flatMap_append, List.flatMap_append, hrows, hrows, List.append_assoc]

variable {b : Bounds}

/-- Where the next line has been freed there is no result. -/
theorem rectkillLoop_freed (n : Nat) (h : r ∉ e.lines) : rectkillLoop w tabsize b n r e = none := by
  cases n with
  | zero => rfl
  | succ n => rw [rectkillLoop, if_pos h]

/-- A round of the loop of `rectkill`. -/
theorem rectkillLoop_round (h : Sound e) (hl : e.lines = as ++ p :: bs) (n : Nat)
    (hrun : rectcutline w tabsize p b.s_col b.e_col false e = (e', true)) :
    rectkillLoop w tabsize b (n + 1) p e =
      if p = b.last then some (e', true) else rectkillLoop w tabsize b n (bs.headD e.b_linep) e' := by
  have hp : p ∈ e.lines := by
    rw [hl]
    simp
  obtain ⟨has, -, -⟩ := h.around hl
  have hne : p ≠ e.b_linep := fun heq => h.header (heq ▸ hp)
  have hnext : e.lforw p = bs.headD e.b_linep := by
    show Circular.next e.b_linep e.lines p = _
    rw [hl, Circular.next_append has hne]
  rw [rectkillLoop, if_neg (not_not.mpr hp), hnext, hrun]
  rfl

/-- **The lines above are left alone**, whatever the cuts do. -/
theorem rectkillLoop_above {n : Nat} {status : Bool} (hst : b.s_col ≤ b.e_col) (h : Sound e)
    (hro : e.bfro = false) (hl : e.lines = as ++ p :: bs) (hlast : b.last ∈ p :: bs)
    (hrun : rectkillLoop w tabsize b n p e = some (e', status)) :
    Sound e' ∧ ∃ x, e'.symbols = as.flatMap e.row ++ x := by
  induction n generalizing e as p bs with
  | zero => cases hrun
  | succ n ih =>
    obtain ⟨e1, q, hcut, -, hedit⟩ := rectcutline_run w tabsize b.s_col b.e_col h hro hl
    have hro1 := hedit.bfro.trans hro
    obtain ⟨e2, hcells, hsound, hsymbols⟩ := cutCells_symbols w tabsize b.s_col b.e_col
      hedit.sound hro1 hedit.lines hst
    rw [rectkillLoop_round h hl n ((hcut false).trans hcells)] at hrun
    split at hrun
    · obtain ⟨rfl, rfl⟩ := Prod.mk.inj (Option.some.inj hrun)
      rw [hedit.row_congr.1] at hsymbols
      exact ⟨hsound, _, hsymbols⟩
    · rename_i hne
      cases bs with
      | nil => exact absurd (List.mem_singleton.mp hlast).symm hne
      | cons r bs =>
        rw [List.headD_cons] at hrun
        by_cases hfits : cutBytes w tabsize b.s_col b.e_col (e1.chars q) ≤
            (fromEdge w tabsize b.s_col (e1.chars q)).length
        · obtain ⟨e3, hcells', hedit'⟩ := cutCells_edits w tabsize b.s_col b.e_col hedit.sound hro1
            hedit.lines hst hfits
          obtain ⟨rfl, -⟩ := Prod.mk.inj (hcells.symm.trans hcells')
          have hall := hedit.trans hedit'
          have hlines : e2.lines = (as ++ [q]) ++ r :: bs := by
            rw [hedit'.lines, List.append_assoc]
            rfl
          obtain ⟨hsound', x, hx⟩ := ih hedit'.sound (hedit'.bfro.trans hro1) hlines
            ((List.mem_cons.mp hlast).resolve_left fun heq => hne heq.symm) hrun
          refine ⟨hsound', e2.row q ++ x, ?_⟩
          rw [hx, List.flatMap_append, List.flatMap_singleton, hall.row_congr.1, List.append_assoc]
        · have hgone := cutCells_gone (r := r) hedit.sound hro1 hedit.lines hst false
            (Nat.lt_of_not_le hfits)
          rw [hcells] at hgone
          rw [rectkillLoop_freed n hgone.1] at hrun
          cases hrun

/-- The last line of the rectangle. -/
theorem rectkillLoop_last (htab : 0 < tabsize) (hst : b.s_col ≤ b.e_col) (n : Nat) (h : Sound e)
    (hro : e.bfro = false) (hl : e.lines = as ++ p :: bs) (hlast : p = b.last) :
    (∃ e', rectkillLoop w tabsize b (n + 1) p e = some (e', true) ∧
      e'.lines.map e'.chars = linesLeft w tabsize b.s_col b.e_col e as [p] bs) ↔
    CutFits w tabsize b.s_col b.e_col (bs = [])
      (expanded w tabsize b.s_col b.e_col (e.chars p)) := by
  obtain ⟨e1, q, hcut, -, hedit⟩ := rectcutline_run w tabsize b.s_col b.e_col h hro hl
  obtain ⟨e2, hcells, hsound, hsymbols⟩ := cutCells_symbols w tabsize b.s_col b.e_col
    hedit.sound (hedit.bfro.trans hro) hedit.lines hst
  have hp : p ∈ e.lines := by
    rw [hl]
    simp
  have hin := (cutLine_noBreak w tabsize b.s_col b.e_col h hro hp).1
  have hleft := linesLeft_noBreak w tabsize b.s_col b.e_col h hro
    (by rw [hl]; simp : e.lines = as ++ [p] ++ bs)
  have hresult : rectkillLoop w tabsize b (n + 1) p e = some (e2, true) := by
    rw [rectkillLoop_round h hl n ((hcut false).trans hcells), if_pos hlast]
  have hlines : e2.lines.map e2.chars = linesLeft w tabsize b.s_col b.e_col e as [p] bs ↔
      CutFits w tabsize b.s_col b.e_col (bs = []) (expanded w tabsize b.s_col b.e_col (e.chars p)) := by
    rw [← hsound.symbols_eq_iff hleft, hsymbols, linesLeft_flatMap, hedit.row_congr.1,
      hedit.row_congr.2, hedit.chars, List.append_cancel_left_eq, List.map_singleton,
      List.flatMap_singleton, cutLine_eq, List.append_assoc, List.append_assoc,
      List.append_cancel_left_eq]
    exact cut_last_iff htab hin.whole e bs
  rw [hresult, ← hlines]
  refine ⟨fun ⟨e', heq, hmap⟩ => ?_, fun hmap => ⟨e2, rfl, hmap⟩⟩
  obtain ⟨rfl, -⟩ := Prod.mk.inj (Option.some.inj heq)
  exact hmap

/-- Another line of the rectangle: its cut must fit, and the rest is as if the rectangle
started on the next line. -/
theorem rectkillLoop_next (htab : 0 < tabsize) (hst : b.s_col ≤ b.e_col) (n : Nat) (h : Sound e)
    (hro : e.bfro = false) {ms : List LineId} (hl : e.lines = as ++ p :: (r :: ms ++ bs))
    (hne : p ≠ b.last) (hlast : b.last ∈ r :: ms) :
    (¬ CutFits w tabsize b.s_col b.e_col False (expanded w tabsize b.s_col b.e_col (e.chars p)) ∧
      ¬ ∃ e', rectkillLoop w tabsize b (n + 1) p e = some (e', true) ∧
        e'.lines.map e'.chars = linesLeft w tabsize b.s_col b.e_col e as (p :: r :: ms) bs) ∨
    (CutFits w tabsize b.s_col b.e_col False (expanded w tabsize b.s_col b.e_col (e.chars p)) ∧
      ∃ e' q, rectkillLoop w tabsize b (n + 1) p e = rectkillLoop w tabsize b n r e' ∧
        Edited e e' as (r :: ms ++ bs) q (cutLine w tabsize b.s_col b.e_col (e.chars p))) := by
  obtain ⟨e1, q, hcut, -, hedit⟩ := rectcutline_run w tabsize b.s_col b.e_col h hro hl
  have hro1 := hedit.bfro.trans hro
  have hp : p ∈ e.lines := by
    rw [hl]
    simp
  obtain ⟨hin, hbreak⟩ := cutLine_noBreak w tabsize b.s_col b.e_col h hro hp
  by_cases hfits : cutBytes w tabsize b.s_col b.e_col (e1.chars q) ≤
      (fromEdge w tabsize b.s_col (e1.chars q)).length
  · obtain ⟨e2, hcells, hedit'⟩ := cutCells_edits w tabsize b.s_col b.e_col hedit.sound hro1
      hedit.lines hst hfits
    have hall := hedit.trans hedit'
    have hround := rectkillLoop_round h hl n ((hcut false).trans hcells)
    rw [if_neg hne, List.cons_append, List.headD_cons] at hround
    rw [hedit.chars] at hfits hall
    have hiff := cut_within_iff htab hin.whole False hfits
    by_cases hfit : CutFits w tabsize b.s_col b.e_col False
        (expanded w tabsize b.s_col b.e_col (e.chars p))
    · refine .inr ⟨hfit, e2, q, hround, ?_⟩
      rwa [hiff.mpr hfit, ← cutLine_eq] at hall
    · -- the line is wrong, and stays wrong
      refine .inl ⟨hfit, ?_⟩
      rintro ⟨e', hrun, hmap⟩
      rw [hround] at hrun
      have hlines : e2.lines = (as ++ [q]) ++ r :: (ms ++ bs) := by
        rw [hall.lines, List.append_assoc]
        rfl
      obtain ⟨hsound, x, hx⟩ := rectkillLoop_above hst hall.sound (hedit'.bfro.trans hro1) hlines
        (List.mem_cons.mpr ((List.mem_cons.mp hlast).imp_right (List.mem_append_left _))) hrun
      have hleft := linesLeft_noBreak w tabsize b.s_col b.e_col h hro
        (by rw [hl]; simp : e.lines = as ++ (p :: r :: ms) ++ bs)
      have htext := (hsound.symbols_eq_iff hleft).mpr hmap
      have hq := (hall.sound.chars (p := q) (by rw [hlines]; simp)).1.noBreak
      rw [hx, linesLeft_flatMap, List.flatMap_append, List.flatMap_singleton, hall.row_congr.1,
        List.append_assoc, List.append_cancel_left_eq, Ed.row, List.map_cons, List.flatMap_cons,
        List.append_assoc, List.append_assoc, List.append_assoc] at htext
      have hsame := ((append_nl_inj hq hbreak).mp htext).1
      rw [hall.chars, cutLine_eq, List.append_cancel_left_eq] at hsame
      exact hfit (hiff.mp hsame)
  · refine .inl ⟨fun hfit => ?_, ?_⟩
    · rw [hedit.chars] at hfits
      rcases hfit.bytes with hbytes | ⟨hfalse, -⟩
      · have hcount := cutCount_le w tabsize b.s_col b.e_col
          (expanded w tabsize b.s_col b.e_col (e.chars p))
        rw [← length_cutChars] at hcount
        exact hfits (Nat.le_trans (Nat.le_of_eq hbytes) hcount)
      · exact hfalse
    · -- the next line is freed, and then used
      have hgone := cutCells_gone (r := r) hedit.sound hro1 hedit.lines hst false
        (Nat.lt_of_not_le hfits)
      obtain ⟨e2, hcells, -, -⟩ := cutCells_symbols w tabsize b.s_col b.e_col hedit.sound hro1
        hedit.lines hst
      rw [hcells] at hgone
      rw [rectkillLoop_round h hl n ((hcut false).trans hcells), if_neg hne, List.cons_append,
        List.headD_cons, rectkillLoop_freed n hgone.1]
      rintro ⟨e', hrun, -⟩
      cases hrun

/-- **The loop of `rectkill`** leaves what is to be left exactly if every cut fits. -/
theorem rectkillLoop_iff (htab : 0 < tabsize) (hst : b.s_col ≤ b.e_col) {ms : List LineId} {n : Nat}
    (h : Sound e) (hro : e.bfro = false) (hl : e.lines = as ++ p :: (ms ++ bs))
    (hn : ms.length < n) (hlast : (p :: ms).getLast (List.cons_ne_nil p ms) = b.last) :
    (∃ e', rectkillLoop w tabsize b n p e = some (e', true) ∧
      e'.lines.map e'.chars = linesLeft w tabsize b.s_col b.e_col e as (p :: ms) bs) ↔
    ∀ q ∈ p :: ms, CutFits w tabsize b.s_col b.e_col (q = b.last ∧ bs = [])
      (expanded w tabsize b.s_col b.e_col (e.chars q)) := by
  obtain ⟨n, rfl⟩ : ∃ m, n = m + 1 := ⟨n - 1, by omega⟩
  induction ms generalizing e as p n with
  | nil =>
    have hlast : p = b.last := hlast
    rw [List.nil_append] at hl
    rw [rectkillLoop_last htab hst n h hro hl hlast, List.forall_mem_singleton]
    refine ⟨fun hfit => ⟨hfit.inside, hfit.outside, ?_⟩, fun hfit => ⟨hfit.inside, hfit.outside, ?_⟩⟩
    · exact hfit.bytes.imp_right fun hand => ⟨⟨hlast, hand.1⟩, hand.2⟩
    · exact hfit.bytes.imp_right fun hand => ⟨hand.1.2, hand.2⟩
  | cons r ms ih =>
    have hlast : (r :: ms).getLast (List.cons_ne_nil r ms) = b.last := hlast
    have hmem : b.last ∈ r :: ms := hlast ▸ List.getLast_mem _
    have hne : p ≠ b.last := by
      intro heq
      obtain ⟨-, hp, -⟩ := h.around hl
      exact hp (heq ▸ List.mem_append_left _ hmem)
    have hdrop : CutFits w tabsize b.s_col b.e_col (p = b.last ∧ bs = [])
        (expanded w tabsize b.s_col b.e_col (e.chars p)) ↔
        CutFits w tabsize b.s_col b.e_col False (expanded w tabsize b.s_col b.e_col (e.chars p)) :=
      ⟨fun hfit => ⟨hfit.inside, hfit.outside, hfit.bytes.imp_right fun hand =>
          ⟨hne hand.1.1, hand.2⟩⟩,
        fun hfit => ⟨hfit.inside, hfit.outside, hfit.bytes.imp_right fun hand => hand.1.elim⟩⟩
    rw [List.forall_mem_cons, hdrop]
    rcases rectkillLoop_next (w := w) htab hst n h hro hl hne hmem with
      ⟨hfit, hnot⟩ | ⟨hfit, e', q, hrun, hedit⟩
    · exact ⟨fun hkill => absurd hkill hnot, fun hall => absurd hall.1 hfit⟩
    · obtain ⟨m, rfl⟩ : ∃ m, n = m + 1 := ⟨n - 1, by simp at hn; omega⟩
      have hlines : e'.lines = (as ++ [q]) ++ r :: (ms ++ bs) := by
        rw [hedit.lines, List.append_assoc]
        rfl
      have hrest := ih hedit.sound (hedit.bfro.trans hro) hlines hlast m (by simp at hn; omega)
      have hsame : ∀ x ∈ as ++ (r :: ms ++ bs), e'.chars x = e.chars x := by
        intro x hx
        rw [Ed.chars, Ed.chars, hedit.others x hx]
      have hleft : linesLeft w tabsize b.s_col b.e_col e' (as ++ [q]) (r :: ms) bs =
          linesLeft w tabsize b.s_col b.e_col e as (p :: r :: ms) bs := by
        have has : as.map e'.chars = as.map e.chars :=
          List.map_congr_left fun x hx => hsame x (List.mem_append_left _ hx)
        have hbs : bs.map e'.chars = bs.map e.chars := List.map_congr_left fun x hx =>
          hsame x (List.mem_append_right _ (List.mem_append_right _ hx))
        have hms : (r :: ms).map (fun x => cutLine w tabsize b.s_col b.e_col (e'.chars x)) =
            (r :: ms).map fun x => cutLine w tabsize b.s_col b.e_col (e.chars x) :=
          List.map_congr_left fun x hx => congrArg _
            (hsame x (List.mem_append_right _ (List.mem_append_left _ hx)))
        rw [linesLeft, linesLeft, List.map_append, has, hbs, hms, List.map_singleton, hedit.chars,
          List.append_assoc (as.map e.chars), List.map_cons (l := r :: ms), List.singleton_append]
      rw [hrun, ← hleft, hrest]
      refine ⟨fun hall => ⟨hfit, fun x hx => ?_⟩, fun hall x hx => ?_⟩
      · rw [← hsame x (List.mem_append_right _ (List.mem_append_left _ hx))]
        exact hall x hx
      · rw [hsame x (List.mem_append_right _ (List.mem_append_left _ hx))]
        exact hall.2 x hx

end Edits

/-! ## The command -/

section Command

variable (w : Wcwidth) (tabsize : Nat)

/-- The lines above a rectangle. -/
def Bounds.above (b : Bounds) (e : Ed) : List LineId := e.lines.takeWhile (· ≠ b.first)

/-- The lines of a rectangle. -/
def Bounds.lines (b : Bounds) (e : Ed) : List LineId :=
  (e.lines.dropWhile (· ≠ b.first)).takeWhile (· ≠ b.last) ++ [b.last]

/-- The lines below a rectangle. -/
def Bounds.below (b : Bounds) (e : Ed) : List LineId := (e.lines.dropWhile (· ≠ b.last)).tail

/-- The command succeeds; each line of the rectangle is without the characters that have a
cell in the column range, after a tab at an edge was expanded, and the other lines are as
before. -/
def KillsRectangle (e : Ed) (b : Bounds) (result : Option Outcome) : Prop :=
  ∃ out, result = some out ∧ out.status = true ∧ out.ed.lines.map out.ed.chars =
    linesLeft w tabsize b.s_col b.e_col e (b.above e) (b.lines e) (b.below e)

variable {w tabsize} {e : Ed} {b : Bounds} {as bs ms : List LineId}

theorem Bounds.parts (h : Sound e) (hl : e.lines = as ++ b.first :: (ms ++ bs))
    (hlast : (b.first :: ms).getLast (List.cons_ne_nil _ ms) = b.last) :
    b.above e = as ∧ b.lines e = b.first :: ms ∧ b.below e = bs := by
  obtain ⟨has, -, -⟩ := h.around hl
  have hsplit : b.first :: ms = (b.first :: ms).dropLast ++ [b.last] := by
    rw [← hlast, List.dropLast_append_getLast]
  have hl' : e.lines = (as ++ (b.first :: ms).dropLast) ++ b.last :: bs := by
    rw [hl, ← List.cons_append, hsplit, List.append_assoc, List.append_assoc, List.singleton_append,
      ← hsplit]
  obtain ⟨hlas, -, -⟩ := h.around hl'
  have hmid : b.last ∉ (b.first :: ms).dropLast := fun hmem => hlas (List.mem_append_right _ hmem)
  refine ⟨?_, ?_, ?_⟩
  · rw [Bounds.above, hl, Circular.takeWhile_ne_append has]
  · rw [Bounds.lines, hl, Circular.dropWhile_ne_append has, ← List.cons_append, hsplit,
      List.append_assoc, List.singleton_append, ← hsplit, Circular.takeWhile_ne_append hmid, ← hsplit]
  · rw [Bounds.below, hl', Circular.dropWhile_ne_append hlas, List.tail_cons]

/-- The corners of a rectangle are in order. -/
theorem corners_parts {p : LineId} {col : Int} (h : Sound e) (hp : p ∈ e.lines)
    (hdot : e.dot.p ∈ e.lines) (hb : b = e.corners w tabsize p col) :
    b.s_col ≤ b.e_col ∧ ∃ as ms bs, e.lines = as ++ b.first :: (ms ++ bs) ∧
      (b.first :: ms).getLast (List.cons_ne_nil _ ms) = b.last := by
  have hcols : b.s_col ≤ b.e_col := by
    rw [hb]
    unfold Ed.corners
    dsimp only
    split <;> dsimp only <;> split <;> split <;> omega
  refine ⟨hcols, ?_⟩
  obtain ⟨as, bs, hl⟩ := List.append_of_mem hp
  obtain ⟨has, -, -⟩ := h.around hl
  have hfrom : e.lines.dropWhile (· ≠ p) = p :: bs := by rw [hl, Circular.dropWhile_ne_append has]
  unfold Ed.corners Ed.lcmp at hb
  dsimp only at hb
  rw [hfrom] at hb
  by_cases hsame : p = e.dot.p
  · rw [if_pos hsame, if_neg (by decide)] at hb
    subst hb
    exact ⟨as, [], bs, by rw [← hsame]; exact hl, hsame.symm⟩
  · rw [if_neg hsame] at hb
    by_cases hafter : e.dot.p ∈ p :: bs
    · -- the corner is above the cursor
      rw [if_pos hafter, if_pos (by decide)] at hb
      obtain ⟨ms, cs, hbs⟩ := List.append_of_mem
        ((List.mem_cons.mp hafter).resolve_left fun heq => hsame heq.symm)
      subst hb
      refine ⟨as, ms ++ [e.dot.p], cs, by simp [hl, hbs], ?_⟩
      simp
    · rw [if_neg hafter, if_neg (by decide)] at hb
      have hbefore : e.dot.p ∈ as := by
        rw [hl] at hdot
        exact (List.mem_append.mp hdot).resolve_right hafter
      obtain ⟨cs, ms, has'⟩ := List.append_of_mem hbefore
      subst hb
      refine ⟨cs, ms ++ [p], bs, by simp [hl, has'], ?_⟩
      simp

theorem rectbounds_ok {r r' : RECT} (hb : rectbounds w tabsize e r = (r', .ok b)) :
    e.dot.p ≠ e.b_linep ∧ r' = r ∧ ∃ p ∈ e.lines, ∃ col, b = e.corners w tabsize p col := by
  unfold rectbounds at hb
  dsimp only at hb
  generalize (if r.rect_lp ≠ null then r.rect_lp else e.curwp.w_mark.p) = lp at hb
  generalize (if r.rect_lp ≠ null then r.rect_col
    else wlcolumn w tabsize (e.lineText e.curwp.w_mark.p) e.curwp.w_mark.o) = col at hb
  split at hb
  · cases hb
  · by_cases hmem : lp ∉ e.lines
    · rw [if_pos hmem] at hb
      split at hb <;> cases hb
    · rw [if_neg hmem] at hb
      split at hb
      · cases hb
      · rename_i hdot
        cases hb
        exact ⟨hdot, rfl, lp, not_not.mp hmem, col, rfl⟩

/-- **A rectangle is killed** exactly if the cut of each of its lines, the tabs at its
edges being expanded, takes all characters from edge to edge, these are the ones that have
a cell in the column range, and they have one byte each, unless the cut goes to the end of
the buffer. -/
theorem rectkill_cuts_iff (w : Wcwidth) (tabsize : Nat) (htab : 0 < tabsize) (e : Ed)
    (r r' : RECT) (b : Bounds) (h : Sound e) (hro : e.bfro = false)
    (hdot : e.dot.p ∈ e.lines ∨ e.dot.p = e.b_linep)
    (hb : rectbounds w tabsize e r = (r', .ok b)) :
    KillsRectangle w tabsize e b (rectkill w tabsize e r) ↔
    ∀ p ∈ b.lines e, CutFits w tabsize b.s_col b.e_col (p = b.last ∧ b.below e = [])
      (expanded w tabsize b.s_col b.e_col (e.chars p)) := by
  obtain ⟨hne, rfl, p, hp, col, hcorners⟩ := rectbounds_ok hb
  obtain ⟨hst, as, ms, bs, hl, hlast⟩ := corners_parts h hp (hdot.resolve_right hne) hcorners
  obtain ⟨habove, hlines, hbelow⟩ := Bounds.parts h hl hlast
  have hn : ms.length < e.lines.length := by
    rw [hl, List.length_append, List.length_cons, List.length_append]
    omega
  rw [hlines, hbelow, ← rectkillLoop_iff htab hst h hro hl hn hlast]
  unfold KillsRectangle rectkill
  rw [hb, habove, hlines, hbelow]
  dsimp only
  generalize rectkillLoop w tabsize b e.lines.length b.first e = result
  constructor
  · rintro ⟨out, hout, hstatus, hleft⟩
    rcases result with _ | ⟨e', _ | _⟩
    · cases hout
    · obtain rfl := Option.some.inj hout
      cases hstatus
    · obtain rfl := Option.some.inj hout
      exact ⟨e', rfl, hleft⟩
  · rintro ⟨e', rfl, hleft⟩
    exact ⟨_, rfl, rfl, hleft⟩

/-- A line with a tab, and a line of letters; the mark is in front of the tab, and the
cursor at column 3 of the other line. -/
def tabLines : Ed := Ed.holding [[97, 9, 98], [119, 120, 121, 122]] ⟨3, 3⟩ ⟨2, 1⟩

/-- A tab that is partly in the rectangle is no trouble. -/
theorem rectkill_cuts_tabLines :
    KillsRectangle someWidths 8 tabLines ⟨2, 3, 1, 3⟩
      (rectkill someWidths 8 tabLines ⟨null, 0, []⟩) := by
  have hsound : Sound tabLines := by
    refine Ed.sound_holding fun s hs => ?_
    have hletters : ∀ cs : List UChar, (∀ c ∈ cs, IsUChar c) → nl ∉ cs →
        ∃ ds, Inline ds ∧ cs.flatten = ds.flatten := fun cs hall hnl => ⟨cs, ⟨hall, hnl⟩, rfl⟩
    rcases List.mem_cons.mp hs with rfl | hs
    · exact hletters [[97], [9], [98]] (by decide) (by decide)
    · obtain rfl := List.mem_singleton.mp hs
      exact hletters [[119], [120], [121], [122]] (by decide) (by decide)
  refine (rectkill_cuts_iff someWidths 8 (by decide) tabLines ⟨null, 0, []⟩ ⟨null, 0, []⟩
    ⟨2, 3, 1, 3⟩ hsound rfl (.inl (by decide)) (by rfl)).mpr ?_
  have hlines : Bounds.lines ⟨2, 3, 1, 3⟩ tabLines = [2, 3] := by decide
  rw [hlines]
  intro p hp
  rcases List.mem_cons.mp hp with rfl | hp
  · exact ⟨by decide, by decide, .inl (by decide)⟩
  · obtain rfl := List.mem_singleton.mp hp
    exact ⟨by decide, by decide, .inl (by decide)⟩

/-- A line of one é, and another line; the mark is in front of the é and the cursor behind
it. -/
def accentLines : Ed := Ed.holding [[0xc3, 0xa9], [98]] ⟨2, 1⟩ ⟨2, 0⟩

/-- **Killing an é joins its line with the next one**: the two bytes of the é are deleted
as two characters, the é and the newline. -/
theorem rectkill_joins_lines :
    ¬ KillsRectangle someWidths 8 accentLines ⟨2, 2, 0, 1⟩
      (rectkill someWidths 8 accentLines ⟨null, 0, []⟩) := by
  rintro ⟨out, hout, -, hleft⟩
  have hrun : (rectkill someWidths 8 accentLines ⟨null, 0, []⟩).map
      (fun out => out.ed.lines.map out.ed.chars) = some [[[98]]] := by decide
  have hwant : linesLeft someWidths 8 0 1 accentLines (Bounds.above ⟨2, 2, 0, 1⟩ accentLines)
      (Bounds.lines ⟨2, 2, 0, 1⟩ accentLines) (Bounds.below ⟨2, 2, 0, 1⟩ accentLines) =
      [[], [[98]]] := by decide
  rw [hout, Option.map_some, hleft, hwant] at hrun
  exact absurd hrun (by decide)

end Command

end Emacs
