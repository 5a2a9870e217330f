import Zzdwm.Emacs.Utf8

/-!
# Columns of a line (`utf8.c`, `line.c`, `display.c`)

Five loops say at which column a character of a line is: the one of `update` for
the cursor, `wlcolumn`, `selection_column`, `line_display_width`, and the drawing
of the line itself.  Each decodes the line on its own, and has its own cases for
tabs, control characters and widths.

* `ugetc`, `decode` — the characters of a line, whatever its bytes are;
* `walk_eq_foldl`, `wlcolumn_eq_foldl` — each loop folds over the characters;
* `columns_agree_iff` — **the loops agree** on a line exactly if it has no control
  character but tabs, and no character that the C library gives a negative width.
-/

namespace Emacs

/-- The code of `'\t'`. -/
def tab : Nat := 9

/-- `wcwidth` of the C library, with what is documented about it: it is -1 for what
cannot be printed, 0 for the null character and for what combines. -/
structure Wcwidth where
  wcwidth : Nat → Int
  range : ∀ c, -1 ≤ wcwidth c ∧ wcwidth c ≤ 2
  printable : ∀ c, 0x20 ≤ c → c < 0x7f → wcwidth c = 1
  control : ∀ c, c < 0x20 ∨ c = 0x7f → wcwidth c ≤ 0

/-- `uwidth`. -/
def Wcwidth.uwidth (w : Wcwidth) (c : Nat) : Int := w.wcwidth c

/-- `CISCTRL`. -/
def cisctrl (c : Nat) : Bool := c < 0x80 && (c < 0x20 || c == 0x7f)

/-- The bits of a byte below its mark. -/
def bits (s : List Byte) (i mask shift : Nat) : Nat := ((s.getD i 0).toNat &&& mask) <<< shift

/-- `ugetc (s, 0, &len)`.  The bytes after the first one are taken as they are. -/
def ugetc (s : List Byte) : Nat × Nat :=
  let c := s.getD 0 0
  if c < 0x80 then (c.toNat, 1)
  else if c ≥ 0xc0 ∧ c ≤ 0xdf then (bits s 0 0x1f 6 + bits s 1 0x3f 0, 2)
  else if c ≥ 0xe0 ∧ c ≤ 0xef then (bits s 0 0x0f 12 + bits s 1 0x3f 6 + bits s 2 0x3f 0, 3)
  else if c ≥ 0xf0 ∧ c ≤ 0xf7 then
    (bits s 0 0x07 18 + bits s 1 0x3f 12 + bits s 2 0x3f 6 + bits s 3 0x3f 0, 4)
  else if c ≥ 0xf8 ∧ c ≤ 0xfb then
    (bits s 0 0x03 24 + bits s 1 0x3f 18 + bits s 2 0x3f 12 + bits s 3 0x3f 6 + bits s 4 0x3f 0, 5)
  else if c ≥ 0xfc ∧ c ≤ 0xfd then
    (bits s 0 0x01 30 + bits s 1 0x3f 24 + bits s 2 0x3f 18 + bits s 3 0x3f 12 + bits s 4 0x3f 6 +
      bits s 5 0x3f 0, 6)
  else (c.toNat, 1)

/-- The text of a line, and the memory behind it: a character that the end of the
line cuts short is read from both. -/
structure LineText where
  text : List Byte
  behind : List Byte

namespace LineText

variable (l : LineText)

def memory : List Byte := l.text ++ l.behind

/-- `wllength`. -/
def wllength : Nat := unslen l.text

/-- `wlgetc`. -/
def wlgetc (n : Nat) : Nat := (ugetc (l.memory.drop (uoffset l.memory n))).1

end LineText

/-! ## The loops -/

section Loops

variable {S : Type} (step : S → Nat → S)

/-- The loop `while (s < end) { c = ugetc (s, 0, &len); s += len; ... }`, in at most
`n` rounds; `left` is `end - s`. -/
def walk : Nat → List Byte → Nat → S → S
  | 0, _, _, st => st
  | n + 1, s, left, st =>
      if left = 0 then st
      else walk n (s.drop (ugetc s).2) (left - (ugetc s).2) (step st (ugetc s).1)

end Loops

section Widths

variable (w : Wcwidth) (tabsize : Nat)

/-- `tabsize - col % tabsize`. -/
def tabWidth (col : Int) : Int := tabsize - col.tmod tabsize

/-- The body of the loop of `update` that finds the column of the cursor. -/
def cursorStep (curcol : Int) (c : Nat) : Int :=
  if c = tab then curcol + tabWidth tabsize curcol
  else if c < 0x80 ∧ cisctrl c then curcol + 2
  else curcol + w.uwidth c

/-- `curcol` in `update`, for a cursor at the offset `o`. -/
def cursorColumn (l : LineText) (o : Nat) : Int :=
  let left := uoffset l.memory o
  walk (cursorStep w tabsize) left l.memory left 0

/-- The body of the loops of `selection_column` and `line_display_width`. -/
def displayStep (column : Int) (c : Nat) : Int :=
  if c = tab then column + tabWidth tabsize column else column + w.uwidth c

/-- `selection_column`; the offset bounds the number of rounds. -/
def selectionColumn (l : LineText) (o : Nat) : Int :=
  walk (displayStep w tabsize) o l.memory l.text.length 0

/-- `line_display_width`. -/
def lineDisplayWidth (l : LineText) : Int :=
  walk (displayStep w tabsize) l.text.length l.memory l.text.length 0

/-- `cellwidth`. -/
def cellwidth (c : Nat) (col : Int) : Int :=
  if c = tab then tabWidth tabsize col else if cisctrl c then 2 else w.uwidth c

/-- The loop of `wlcolumn`, from the character `i` on, in at most `n` rounds. -/
def wlcolumnLoop (l : LineText) : Nat → Nat → Int → Int
  | 0, _, col => col
  | n + 1, i, col =>
      if i < l.wllength then
        wlcolumnLoop l n (i + 1) (col + cellwidth w tabsize (l.wlgetc i) col)
      else col

/-- `wlcolumn`. -/
def wlcolumn (l : LineText) (offset : Nat) : Int := wlcolumnLoop w tabsize l offset 0 0

/-- Where a row of the screen shows the text of a line: `leftmargin`, `leftcol` and
`ncol`. -/
structure Viewport where
  leftmargin : Int
  leftcol : Int
  ncol : Int

/-- `vttextcol`. -/
def Viewport.vttextcol (v : Viewport) (col : Int) : Int := v.leftmargin + col - v.leftcol

/-- `vttextend`. -/
def Viewport.vttextend (v : Viewport) : Int := v.leftcol + v.ncol - v.leftmargin

/-- `vtcol`, and the row that is drawn. -/
structure Row where
  vtcol : Int
  vttext : Int → Nat

/-- Put a cell, if it is not to the left of the view, and go one column on. -/
def Row.putCell (v : Viewport) (c : Nat) (r : Row) : Row where
  vtcol := r.vtcol + 1
  vttext :=
    if r.vtcol ≥ v.leftcol then Function.update r.vttext (v.vttextcol r.vtcol) c else r.vttext

/-- `vtput_display_char`. -/
def vtputDisplayChar (v : Viewport) (c : Nat) (r : Row) : Row :=
  let width := w.uwidth c
  if width = 0 then r
  else
    let r := r.putCell v c
    if width = 2 ∧ r.vtcol < v.vttextend then r.putCell v 0 else r

/-- The dollar sign at the right edge. -/
def Row.overflow (v : Viewport) (r : Row) : Row :=
  { r with vttext := Function.update r.vttext (v.ncol - 1) 36 }

/-- `vtputc` of a character that is neither a tab nor a control character. -/
def vtputPlain (v : Viewport) (c : Nat) (r : Row) : Row :=
  if r.vtcol ≥ v.vttextend then r.overflow v else vtputDisplayChar w v c r

/-- `vtputs (spaces, n)`, which returns at the right edge. -/
def vtputSpaces (v : Viewport) : Nat → Row → Row
  | 0, r => r
  | n + 1, r =>
      if r.vtcol ≥ v.vttextend then r.overflow v
      else vtputSpaces v n (vtputDisplayChar w v 32 r)

/-- The body of the loop of `vtputs`, which is `vtputc_color` as well.  At the right
edge `vtputs` returns; going on would change nothing more. -/
def vtputStep (v : Viewport) (r : Row) (c : Nat) : Row :=
  if r.vtcol ≥ v.vttextend then r.overflow v
  else if c = tab then vtputSpaces w v (tabWidth tabsize r.vtcol).toNat r
  else if c < 0x80 ∧ cisctrl c then vtputPlain w v (c ^^^ 0x40) (vtputPlain w v 94 r)
  else vtputDisplayChar w v c r

/-- The row when the first `o` characters of a line have been drawn. -/
def vtputs (v : Viewport) (l : LineText) (o : Nat) (row : Int → Nat) : Row :=
  walk (vtputStep w tabsize v) o l.memory l.text.length ⟨0, row⟩

/-- The column at which the drawing of a line puts the character at an offset, unless
that is to the right of the view. -/
def drawnColumn (v : Viewport) (l : LineText) (o : Nat) : Option Int :=
  let r := vtputs w tabsize v l o fun _ => 32
  if r.vtcol ≥ v.vttextend then none else some r.vtcol

/-- The five loops agree about the character at an offset. -/
structure Agrees (l : LineText) (o : Nat) : Prop where
  wlcolumn : wlcolumn w tabsize l o = cursorColumn w tabsize l o
  selection : selectionColumn w tabsize l o = cursorColumn w tabsize l o
  width : o = l.wllength → lineDisplayWidth w tabsize l = cursorColumn w tabsize l o
  drawn : ∀ v col, drawnColumn w tabsize v l o = some col → col = cursorColumn w tabsize l o

end Widths

/-! ## The characters of a line -/

/-- The characters of `left` bytes, at most `n` of them. -/
def decode : Nat → List Byte → Nat → List Nat
  | 0, _, _ => []
  | n + 1, s, left =>
      if left = 0 then []
      else (ugetc s).1 :: decode n (s.drop (ugetc s).2) (left - (ugetc s).2)

/-- The characters of a line. -/
def LineText.chars (l : LineText) : List Nat := decode l.text.length l.memory l.text.length

/-- `ugetc` and `uclen` agree about lengths. -/
theorem ugetc_length (s : List Byte) : (ugetc s).2 = uclen (s.getD 0 0) := by
  unfold ugetc uclen
  simp only [apply_ite Prod.snd]

theorem uclen_pos (b : Byte) : 0 < uclen b := by
  unfold uclen
  repeat' split
  all_goals decide

/-- **Every loop folds over the characters.** -/
theorem walk_eq_foldl {S : Type} (step : S → Nat → S) (n : Nat) (s : List Byte) (left : Nat) (st : S) :
    walk step n s left st = (decode n s left).foldl step st := by
  induction n generalizing s left st with
  | zero => rfl
  | succ n ih =>
    rw [walk, decode]
    split
    · rfl
    · rw [ih, List.foldl_cons]

/-- Fewer rounds decode a prefix. -/
theorem decode_take (n m : Nat) (s : List Byte) (left : Nat) (h : n ≤ m) :
    decode n s left = (decode m s left).take n := by
  induction n generalizing m s left with
  | zero => rfl
  | succ n ih =>
    obtain ⟨m, rfl⟩ : ∃ k, m = k + 1 := ⟨m - 1, by omega⟩
    rw [decode, decode]
    split
    · rfl
    · rw [List.take_succ_cons, ih m _ _ (by omega)]

/-- As many rounds as there are bytes decode everything. -/
theorem decode_enough (n m : Nat) (s : List Byte) (left : Nat) (hn : left ≤ n) (hm : left ≤ m) :
    decode n s left = decode m s left := by
  induction n generalizing m s left with
  | zero =>
    obtain rfl : left = 0 := by omega
    cases m <;> rfl
  | succ n ih =>
    cases m with
    | zero =>
      obtain rfl : left = 0 := by omega
      rfl
    | succ m =>
      have hpos := uclen_pos (s.getD 0 0)
      rw [← ugetc_length] at hpos
      rw [decode, decode]
      split
      · rfl
      · rw [ih m _ _ (by omega) (by omega)]

theorem unslenLoop_le (n : Nat) (t : List Byte) : unslenLoop n t ≤ t.length := by
  induction n generalizing t with
  | zero => exact Nat.zero_le _
  | succ n ih =>
    cases t with
    | nil => exact Nat.le_refl _
    | cons b t =>
      have hpos := uclen_pos b
      have hrest := ih ((b :: t).drop (uclen b))
      rw [List.length_drop] at hrest
      rw [unslenLoop]
      rw [List.length_cons] at hrest ⊢
      omega

/-- There are no more characters than bytes. -/
theorem unslen_le_length (t : List Byte) : unslen t ≤ t.length := unslenLoop_le _ t

/-- There are as many characters as `unslen` counts. -/
theorem decode_length (n : Nat) (t r : List Byte) :
    (decode n (t ++ r) t.length).length = unslenLoop n t := by
  induction n generalizing t with
  | zero => rfl
  | succ n ih =>
    cases t with
    | nil => rfl
    | cons b t =>
      rw [decode, unslenLoop, if_neg (by simp), List.length_cons, ugetc_length]
      have hhead : (b :: t ++ r).getD 0 0 = b := rfl
      rw [hhead]
      congr 1
      by_cases hle : uclen b ≤ (b :: t).length
      · rw [List.drop_append_of_le_length hle, ← List.length_drop, ih]
      · have hzero : (b :: t).length - uclen b = 0 := by omega
        have hnil : (b :: t).drop (uclen b) = [] := List.drop_eq_nil_of_le (by omega)
        rw [hzero, hnil]
        cases n <;> rfl

/-- Walking to a character and decoding it finds it. -/
theorem ugetc_uoffset (i n : Nat) (s : List Byte) (left : Nat) (hleft : left ≤ s.length)
    (hi : i < (decode n s left).length) :
    (ugetc (s.drop (uoffset s i))).1 = (decode n s left)[i] := by
  induction i generalizing n s left with
  | zero =>
    cases n with
    | zero => cases hi
    | succ n =>
      simp only [decode] at hi ⊢
      split at hi
      · cases hi
      · rename_i hne
        simp [uoffset, hne]
  | succ i ih =>
    cases n with
    | zero => cases hi
    | succ n =>
      simp only [decode] at hi ⊢
      split at hi
      · cases hi
      · rename_i hne
        cases s with
        | nil => exact absurd (Nat.le_zero.mp hleft) hne
        | cons b s =>
          have hlen : (ugetc (b :: s)).2 = uclen b := ugetc_length _
          rw [hlen] at hi
          simp only [hne, if_false, List.getElem_cons_succ, hlen]
          rw [uoffset, ← List.drop_drop]
          refine ih n _ _ ?_ (by simpa using hi)
          rw [List.length_drop]
          omega

/-- The bytes in front of a character are those of the characters before it. -/
theorem decode_uoffset (o n : Nat) (s : List Byte) (left : Nat) (hleft : left ≤ s.length)
    (ho : o ≤ (decode n s left).length) :
    decode (uoffset s o) s (uoffset s o) = (decode n s left).take o := by
  induction o generalizing n s left with
  | zero => cases s <;> rfl
  | succ o ih =>
    cases n with
    | zero => cases ho
    | succ n =>
      simp only [decode] at ho ⊢
      split at ho
      · cases ho
      · rename_i hne
        cases s with
        | nil => exact absurd (Nat.le_zero.mp hleft) hne
        | cons b s =>
          have hlen : (ugetc (b :: s)).2 = uclen b := ugetc_length _
          have hpos := uclen_pos b
          rw [hlen] at ho
          rw [if_neg hne, List.take_succ_cons, hlen, uoffset]
          obtain ⟨k, hk⟩ : ∃ k, uclen b + uoffset ((b :: s).drop (uclen b)) o = k + 1 :=
            ⟨uclen b + uoffset ((b :: s).drop (uclen b)) o - 1, by omega⟩
          rw [hk, decode, if_neg (Nat.succ_ne_zero k), hlen, ← hk, Nat.add_sub_cancel_left,
            decode_enough k (uoffset ((b :: s).drop (uclen b)) o) _ _ (by omega) (Nat.le_refl _)]
          congr 1
          refine ih n _ _ ?_ (by simpa using ho)
          rw [List.length_drop]
          omega

namespace LineText

variable (l : LineText)

theorem length_chars : l.chars.length = l.wllength := decode_length _ l.text l.behind

theorem text_le_memory : l.text.length ≤ l.memory.length := by
  rw [memory, List.length_append]
  exact Nat.le_add_right _ _

theorem wlgetc_eq {i : Nat} (hi : i < l.chars.length) : l.wlgetc i = l.chars[i] :=
  ugetc_uoffset i _ _ _ l.text_le_memory hi

end LineText

section Folds

variable (w : Wcwidth) (tabsize : Nat) (l : LineText) (o : Nat)

/-- At most `o` rounds take the first `o` characters. -/
theorem walk_chars {S : Type} (step : S → Nat → S) (st : S) :
    walk step o l.memory l.text.length st = (l.chars.take o).foldl step st := by
  rw [walk_eq_foldl]
  rcases Nat.le_total o l.text.length with hle | hle
  · rw [decode_take o _ _ _ hle]
    rfl
  · have hlen : l.chars.length ≤ o := by
      rw [l.length_chars]
      exact Nat.le_trans (unslen_le_length l.text) hle
    rw [decode_enough o l.text.length _ _ hle (Nat.le_refl _), List.take_of_length_le hlen]
    rfl

theorem cursorColumn_eq (ho : o ≤ l.wllength) :
    cursorColumn w tabsize l o = (l.chars.take o).foldl (cursorStep w tabsize) 0 := by
  rw [← l.length_chars] at ho
  unfold cursorColumn
  rw [walk_eq_foldl, decode_uoffset o _ _ _ l.text_le_memory ho]
  rfl

/-- `cellwidth` is what `update` adds. -/
theorem cursorStep_eq (col : Int) (c : Nat) :
    cursorStep w tabsize col c = col + cellwidth w tabsize c col := by
  unfold cursorStep cellwidth cisctrl
  grind

theorem wlcolumnLoop_eq (n i : Nat) (col : Int) :
    wlcolumnLoop w tabsize l n i col =
      ((l.chars.drop i).take n).foldl (cursorStep w tabsize) col := by
  induction n generalizing i col with
  | zero => rfl
  | succ n ih =>
    rw [wlcolumnLoop]
    split
    · rename_i hi
      rw [← l.length_chars] at hi
      rw [ih, l.wlgetc_eq hi, List.drop_eq_getElem_cons hi, List.take_succ_cons, List.foldl_cons,
        cursorStep_eq]
    · rename_i hi
      rw [← l.length_chars] at hi
      rw [List.drop_eq_nil_of_le (by omega)]
      rfl

/-- **`wlcolumn` and the cursor always agree.** -/
theorem wlcolumn_eq (ho : o ≤ l.wllength) :
    wlcolumn w tabsize l o = cursorColumn w tabsize l o := by
  rw [cursorColumn_eq w tabsize l o ho, wlcolumn, wlcolumnLoop_eq]
  rfl

theorem selectionColumn_eq :
    selectionColumn w tabsize l o = (l.chars.take o).foldl (displayStep w tabsize) 0 :=
  walk_chars l o (displayStep w tabsize) 0

theorem lineDisplayWidth_eq :
    lineDisplayWidth w tabsize l = l.chars.foldl (displayStep w tabsize) 0 := by
  unfold lineDisplayWidth
  rw [walk_eq_foldl]
  rfl

theorem vtputs_eq (v : Viewport) (row : Int → Nat) :
    vtputs w tabsize v l o row = (l.chars.take o).foldl (vtputStep w tabsize v) ⟨0, row⟩ :=
  walk_chars l o (vtputStep w tabsize v) ⟨0, row⟩

end Folds

/-! ## Where they agree -/

/-- A tab, or a character that is shown as itself: no control character, and none
that the C library gives a negative width. -/
def Wcwidth.Plain (w : Wcwidth) (c : Nat) : Prop := c = tab ∨ cisctrl c = false ∧ 0 ≤ w.uwidth c

section Agreement

variable {w : Wcwidth} {tabsize : Nat} {v : Viewport} {r : Row} {col : Int} {c : Nat} {cs : List Nat}

theorem tabWidth_pos (htab : 0 < tabsize) (col : Int) : 0 < tabWidth tabsize col := by
  unfold tabWidth
  have hlt : col.tmod tabsize < tabsize := Int.tmod_lt_of_pos col (by omega)
  omega

/-- The other loops add the same for a plain character. -/
theorem displayStep_eq (hc : w.Plain c) : displayStep w tabsize col c = cursorStep w tabsize col c := by
  unfold displayStep cursorStep
  rcases hc with rfl | ⟨hctrl, -⟩
  · rfl
  · simp [hctrl]

theorem foldl_displayStep_eq (hcs : ∀ c ∈ cs, w.Plain c) :
    cs.foldl (displayStep w tabsize) col = cs.foldl (cursorStep w tabsize) col := by
  induction cs generalizing col with
  | nil => rfl
  | cons c cs ih =>
    rw [List.foldl_cons, List.foldl_cons, displayStep_eq (hcs c List.mem_cons_self),
      ih fun d hd => hcs d (List.mem_cons_of_mem _ hd)]

/-- The drawing is at a column, or it has reached the right edge before it. -/
def Tracks (v : Viewport) (r : Row) (col : Int) : Prop :=
  r.vtcol ≤ col ∧ (r.vtcol = col ∨ v.vttextend ≤ r.vtcol)

/-- A space is one cell. -/
theorem vtcol_space (r : Row) : (vtputDisplayChar w v 32 r).vtcol = r.vtcol + 1 := by
  have hwidth : w.uwidth 32 = 1 := w.printable 32 (by decide) (by decide)
  unfold vtputDisplayChar
  simp [hwidth, Row.putCell]

/-- Spaces are drawn up to the right edge. -/
theorem tracks_spaces (n : Nat) (h : Tracks v r col) : Tracks v (vtputSpaces w v n r) (col + n) := by
  induction n generalizing r col with
  | zero =>
    rw [Int.natCast_zero, Int.add_zero]
    exact h
  | succ n ih =>
    rw [vtputSpaces]
    split
    · rename_i hedge
      refine ⟨?_, .inr hedge⟩
      show r.vtcol ≤ col + (n + 1 : Nat)
      have hle := h.1
      omega
    · rename_i hedge
      have hcol : r.vtcol = col := h.2.resolve_right hedge
      have hstep : Tracks v (vtputDisplayChar w v 32 r) (col + 1) := by
        have hspace : (vtputDisplayChar w v 32 r).vtcol = col + 1 := by rw [vtcol_space, hcol]
        exact ⟨Int.le_of_eq hspace, .inl hspace⟩
      have hrest := ih hstep
      rwa [show col + 1 + (n : Int) = col + (n + 1 : Nat) by omega] at hrest

/-- **Drawing a plain character** moves as the cursor does. -/
theorem tracks_step (htab : 0 < tabsize) (hc : w.Plain c) (h : Tracks v r col) :
    Tracks v (vtputStep w tabsize v r c) (cursorStep w tabsize col c) := by
  have hpos := tabWidth_pos htab col
  obtain ⟨hle, hor⟩ := h
  unfold vtputStep
  split
  · rename_i hedge
    refine ⟨?_, .inr hedge⟩
    show r.vtcol ≤ _
    unfold cursorStep
    rcases hc with rfl | ⟨hctrl, hwidth⟩
    · rw [if_pos rfl]
      omega
    · split
      · omega
      · rw [if_neg (by simp [hctrl])]
        omega
  · rename_i hedge
    have heq : r.vtcol = col := hor.resolve_right hedge
    rcases hc with rfl | ⟨hctrl, hwidth⟩
    · rw [if_pos rfl, heq]
      have hspaces := tracks_spaces (w := w) (tabWidth tabsize col).toNat ⟨hle, hor⟩
      rw [Int.toNat_of_nonneg (Int.le_of_lt hpos)] at hspaces
      unfold cursorStep
      rwa [if_pos rfl]
    · have hne : c ≠ tab := by
        rintro rfl
        cases hctrl
      have hnot : ¬ (c < 0x80 ∧ cisctrl c = true) := by simp [hctrl]
      have hrange := (w.range c).2
      unfold cursorStep
      rw [if_neg hne, if_neg hnot, if_neg hne, if_neg hnot]
      unfold vtputDisplayChar Tracks
      dsimp only
      by_cases hzero : w.uwidth c = 0
      · rw [if_pos hzero, hzero]
        omega
      · rw [if_neg hzero]
        have hput : (r.putCell v c).vtcol = col + 1 := by
          show r.vtcol + 1 = col + 1
          rw [heq]
        by_cases htwo : w.uwidth c = 2 ∧ (r.putCell v c).vtcol < v.vttextend
        · rw [if_pos htwo, htwo.1]
          have hput' : ((r.putCell v c).putCell v 0).vtcol = col + 2 := by
            show (r.putCell v c).vtcol + 1 = col + 2
            omega
          omega
        · rw [if_neg htwo, hput]
          have hu : w.uwidth c ≤ 2 := hrange
          omega

theorem tracks_foldl (htab : 0 < tabsize) (hcs : ∀ c ∈ cs, w.Plain c)
    (h : Tracks v r col) :
    Tracks v (cs.foldl (vtputStep w tabsize v) r) (cs.foldl (cursorStep w tabsize) col) := by
  induction cs generalizing r col with
  | nil => exact h
  | cons c cs ih =>
    have hc := hcs c List.mem_cons_self
    exact ih (fun d hd => hcs d (List.mem_cons_of_mem _ hd)) (tracks_step htab hc h)

variable {l : LineText} {o : Nat}

/-- Where the characters in front of it are plain, the loops agree about an offset. -/
theorem agrees_of_plain (htab : 0 < tabsize) (ho : o ≤ l.wllength)
    (hplain : ∀ c ∈ l.chars.take o, w.Plain c) : Agrees w tabsize l o where
  wlcolumn := wlcolumn_eq w tabsize l o ho
  selection := by
    rw [selectionColumn_eq, cursorColumn_eq w tabsize l o ho, foldl_displayStep_eq hplain]
  width := by
    intro hend
    have hall : l.chars.take o = l.chars := List.take_of_length_le (Nat.le_of_eq (by rw [l.length_chars, hend]))
    rw [lineDisplayWidth_eq, cursorColumn_eq w tabsize l o ho, ← foldl_displayStep_eq hplain, hall]
  drawn := by
    intro v col hdrawn
    have htracks : Tracks v (vtputs w tabsize v l o fun _ => 32) (cursorColumn w tabsize l o) := by
      rw [vtputs_eq, cursorColumn_eq w tabsize l o ho]
      exact tracks_foldl htab hplain ⟨Int.le_refl 0, .inl rfl⟩
    unfold drawnColumn at hdrawn
    dsimp only at hdrawn
    split at hdrawn
    · cases hdrawn
    · rename_i hedge
      rw [← Option.some.inj hdrawn]
      exact htracks.2.resolve_right hedge

/-- A character that is not plain tells the loops apart. -/
theorem plain_of_agrees (htab : 0 < tabsize) (ho : o < l.chars.length)
    (hplain : ∀ c ∈ l.chars.take o, w.Plain c) (h : Agrees w tabsize l (o + 1)) :
    w.Plain l.chars[o] := by
  have hle : o + 1 ≤ l.wllength := by rwa [← l.length_chars]
  have htake : l.chars.take (o + 1) = l.chars.take o ++ [l.chars[o]] := by
    rw [List.take_add_one, List.getElem?_eq_getElem ho]
    rfl
  have hsel := h.selection
  rw [selectionColumn_eq, cursorColumn_eq w tabsize l _ hle, htake, List.foldl_append,
    List.foldl_append, foldl_displayStep_eq hplain] at hsel
  generalize hc : l.chars[o] = c at *
  generalize hx : (l.chars.take o).foldl (cursorStep w tabsize) 0 = col at *
  by_contra hbad
  have hne : c ≠ tab := fun heq => hbad (.inl heq)
  by_cases hctrl : cisctrl c = true
  · -- a control character: the cursor moves two columns, the selection none
    have hlow : c < 0x80 ∧ (c < 0x20 ∨ c = 0x7f) := by
      unfold cisctrl at hctrl
      simpa using hctrl
    have hwidth := w.control c hlow.2
    have hcur : cursorStep w tabsize col c = col + 2 := by
      unfold cursorStep
      rw [if_neg hne, if_pos ⟨hlow.1, hctrl⟩]
    have hdis : displayStep w tabsize col c = col + w.uwidth c := if_neg hne
    have hu : w.uwidth c ≤ 0 := hwidth
    simp only [List.foldl_cons, List.foldl_nil] at hsel
    omega
  · -- a negative width: the cursor goes back, the drawing goes on
    have hneg : w.uwidth c < 0 := by
      by_contra hge
      exact hbad (.inr ⟨by simpa using hctrl, by omega⟩)
    have hcur : cursorStep w tabsize col c = col + w.uwidth c := by
      unfold cursorStep
      rw [if_neg hne, if_neg fun hand => hctrl hand.2]
    have htracks : Tracks ⟨0, 0, col + 2⟩ (vtputs w tabsize ⟨0, 0, col + 2⟩ l o fun _ => 32) col := by
      rw [vtputs_eq, ← hx]
      exact tracks_foldl htab hplain ⟨Int.le_refl 0, .inl rfl⟩
    have hend : Viewport.vttextend ⟨0, 0, col + 2⟩ = col + 2 := by
      show 0 + (col + 2) - 0 = col + 2
      omega
    have hat : (vtputs w tabsize ⟨0, 0, col + 2⟩ l o fun _ => 32).vtcol = col := by
      have hle := htracks.1
      refine htracks.2.resolve_right ?_
      rw [hend]
      omega
    have hdrawn : drawnColumn w tabsize ⟨0, 0, col + 2⟩ l (o + 1) = some (col + 1) := by
      have hnext : (vtputs w tabsize ⟨0, 0, col + 2⟩ l (o + 1) fun _ => 32).vtcol = col + 1 := by
        rw [vtputs_eq, htake, List.foldl_append, ← vtputs_eq]
        simp only [List.foldl_cons, List.foldl_nil]
        unfold vtputStep
        rw [if_neg (by rw [hat, hend]; omega), if_neg hne, if_neg fun hand => hctrl hand.2]
        unfold vtputDisplayChar
        rw [if_neg (by omega)]
        dsimp only
        rw [if_neg fun hand => by omega]
        show (vtputs w tabsize ⟨0, 0, col + 2⟩ l o fun _ => 32).vtcol + 1 = col + 1
        rw [hat]
      unfold drawnColumn
      dsimp only
      rw [hnext, if_neg (by rw [hend]; omega)]
    have hagree := h.drawn _ _ hdrawn
    rw [cursorColumn_eq w tabsize l _ hle, htake, List.foldl_append, hx] at hagree
    simp only [List.foldl_cons, List.foldl_nil] at hagree
    omega

end Agreement

/-- **The five loops agree about every offset of a line** exactly if all of its
characters are plain. -/
theorem columns_agree_iff (w : Wcwidth) (tabsize : Nat) (htab : 0 < tabsize) (l : LineText) :
    (∀ o ≤ l.wllength, Agrees w tabsize l o) ↔ ∀ c ∈ l.chars, w.Plain c := by
  constructor
  · intro hagree
    have hpart : ∀ o ≤ l.chars.length, ∀ c ∈ l.chars.take o, w.Plain c := by
      intro o ho
      induction o with
      | zero => intro c hc; cases hc
      | succ o ih =>
        have hplain := ih (by omega)
        have hlast := plain_of_agrees htab ho hplain (hagree (o + 1) (by rwa [← l.length_chars]))
        intro c hc
        rw [List.take_add_one, List.getElem?_eq_getElem ho, List.mem_append] at hc
        rcases hc with hc | hc
        · exact hplain c hc
        · obtain rfl : c = l.chars[o] := by simpa using hc
          exact hlast
    have hall := hpart l.chars.length (Nat.le_refl _)
    rwa [List.take_length] at hall
  · intro hplain o ho
    exact agrees_of_plain htab ho fun c hc => hplain c (List.mem_of_mem_take hc)

/-- The widths of some characters: nothing can be printed below the space and from
DEL to the end of the C1 controls, the combining marks are empty, and the Hangul
letters are wide. -/
def someWidths : Wcwidth where
  wcwidth c :=
    if c = 0 then 0
    else if c < 0x20 ∨ 0x7f ≤ c ∧ c < 0xa0 then -1
    else if 0x300 ≤ c ∧ c ≤ 0x36f then 0
    else if 0x1100 ≤ c ∧ c ≤ 0x115f then 2
    else 1
  range := by
    intro c
    repeat' split
    all_goals decide
  printable := by
    intro c hlo hhi
    grind
  control := by
    intro c hc
    grind

/-- Tabs, wide letters and combining marks are no trouble: a, é as two characters, a
tab and the wide ᄀ. -/
theorem columns_agree_wide :
    Agrees someWidths 8 ⟨[0x61, 0x65, 0xcc, 0x81, 0x09, 0xe1, 0x84, 0x80], []⟩ 5 := by
  have hchars : ∀ c ∈ LineText.chars ⟨[0x61, 0x65, 0xcc, 0x81, 0x09, 0xe1, 0x84, 0x80], []⟩,
      someWidths.Plain c := by
    intro c hc
    have hlist : LineText.chars ⟨[0x61, 0x65, 0xcc, 0x81, 0x09, 0xe1, 0x84, 0x80], []⟩ =
        [0x61, 0x65, 0x301, tab, 0x1100] := by decide
    rw [hlist] at hc
    have hall : c = 0x61 ∨ c = 0x65 ∨ c = 0x301 ∨ c = tab ∨ c = 0x1100 := by simpa using hc
    rcases hall with rfl | rfl | rfl | rfl | rfl
    · exact .inr ⟨by decide, by decide⟩
    · exact .inr ⟨by decide, by decide⟩
    · exact .inr ⟨by decide, by decide⟩
    · exact .inl rfl
    · exact .inr ⟨by decide, by decide⟩
  exact (columns_agree_iff someWidths 8 (by decide) _).mpr hchars 5 (by decide)

/-- **A control character and a C1 character tell the loops apart**: the selection
takes ^A for -1 columns where the cursor takes it for two, and the cursor takes
U+0085 for -1 columns where it is drawn in one cell. -/
theorem columns_disagree :
    ¬ Agrees someWidths 8 ⟨[0x01], []⟩ 1 ∧ ¬ Agrees someWidths 8 ⟨[0xc2, 0x85], []⟩ 1 := by
  constructor
  · intro h
    exact absurd h.selection (by decide)
  · intro h
    exact absurd (h.drawn ⟨0, 0, 80⟩ 1 (by decide)) (by decide)

end Emacs
