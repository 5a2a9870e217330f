import Mathlib
import Zzdwm.Emacs.Rectangle

/-!
# Columns and offsets of a line (`line.c`)

`wlcolumn` gives the column of a character, and `wlcoloffset` the character at a column.

* `wlcolumn_chars`, `wlcoloffset_chars` — the two loops on the characters of the line;
* `column_maps_iff` — **they are inverse to each other**, as far as they can be, exactly on the
  lines without a character of negative width.
-/

namespace Emacs

section Source

variable (w : Wcwidth) (tabsize : Nat) (l : LineText)

/-- `wlcolumn` adds up the cells of the characters in front of the offset. -/
theorem wlcolumn_chars (o : Nat) :
    wlcolumn w tabsize l o = Cells.column (cellwidth w tabsize) 0 (l.chars.take o) := by
  have hfold : ∀ (cs : List Nat) (col : Int),
      cs.foldl (cursorStep w tabsize) col = Cells.column (cellwidth w tabsize) col cs := by
    intro cs
    induction cs with
    | nil => exact fun _ => rfl
    | cons c cs ih =>
        intro col
        rw [List.foldl_cons, ih, cursorStep_eq]
        rfl
  rw [wlcolumn, wlcolumnLoop_eq, List.drop_zero, hfold]

theorem wlcoloffsetLoop_chars (goal : Int) (n off : Nat) (col : Int)
    (hn : off + n = l.wllength) :
    wlcoloffsetLoop w tabsize l goal n off col =
      off + Cells.offset (cellwidth w tabsize) goal col (l.chars.drop off) := by
  induction n generalizing off col with
  | zero =>
      have hend : l.chars.drop off = [] :=
        List.drop_eq_nil_of_le (by rw [l.length_chars]; omega)
      rw [hend]
      rfl
  | succ n ih =>
      have hlt : off < l.chars.length := by
        rw [l.length_chars]
        omega
      rw [wlcoloffsetLoop, if_pos (by omega), List.drop_eq_getElem_cons hlt, Cells.offset,
        l.wlgetc_eq hlt]
      dsimp only
      split
      · rfl
      · rw [ih (off + 1) _ (by omega)]
        omega

/-- `wlcoloffset` is the search for a column among the characters. -/
theorem wlcoloffset_chars (goal : Int) :
    wlcoloffset w tabsize l goal = Cells.offset (cellwidth w tabsize) goal 0 l.chars := by
  rw [wlcoloffset, wlcoloffsetLoop_chars w tabsize l goal _ 0 0 (Nat.zero_add _), Nat.zero_add,
    List.drop_zero]

/-- `wlcolumn` and `wlcoloffset` as maps between the offsets and the columns of a line. -/
structure ColumnMaps : Prop where
  monotone : ∀ o o', o ≤ o' → o' ≤ l.wllength → wlcolumn w tabsize l o ≤ wlcolumn w tabsize l o'
  least : ∀ o ≤ l.wllength,
    IsLeast {o' | wlcolumn w tabsize l o' = wlcolumn w tabsize l o}
      (wlcoloffset w tabsize l (wlcolumn w tabsize l o))
  cell : ∀ c, 0 ≤ c → c < wlcolumn w tabsize l l.wllength →
    let off := wlcoloffset w tabsize l c
    off < l.wllength ∧ wlcolumn w tabsize l off ≤ c ∧
      (c < wlcolumn w tabsize l (off + 1) ∨
        c = wlcolumn w tabsize l off ∧ cellwidth w tabsize (l.wlgetc off) c = 0)

/-- What the C library gives a negative width is not on the line; control characters do not get
their width from it. -/
def NoNegative : Prop := ∀ i < l.wllength, cisctrl (l.wlgetc i) ∨ 0 ≤ w.uwidth (l.wlgetc i)

end Source

variable {w : Wcwidth} {tabsize : Nat} {l : LineText}

theorem NoNegative.cellwidth_nonneg (htab : 0 < tabsize) (h : NoNegative w l) :
    ∀ c ∈ l.chars, ∀ col, 0 ≤ cellwidth w tabsize c col := by
  intro c hc col
  obtain ⟨i, hi, rfl⟩ := List.getElem_of_mem hc
  have hwidth := h i (l.length_chars ▸ hi)
  rw [l.wlgetc_eq hi] at hwidth
  unfold cellwidth
  split
  · exact Int.le_of_lt (tabWidth_pos htab col)
  · rcases hwidth with hctrl | hpos
    · rw [if_pos hctrl]
      decide
    · split
      · decide
      · exact hpos

/-- A character of negative width takes the column back. -/
theorem ColumnMaps.noNegative (h : ColumnMaps w tabsize l) : NoNegative w l := by
  intro i hi
  by_contra hnot
  push Not at hnot
  obtain ⟨hctrl, hneg⟩ := hnot
  have hlt : i < l.chars.length := l.length_chars.symm ▸ hi
  have hstep := Cells.column_take_succ (cellwidth w tabsize) 0 hlt
  have htab : l.wlgetc i ≠ tab := by
    intro htab
    rw [htab] at hctrl
    exact hctrl (by decide)
  have hcell : ∀ col, cellwidth w tabsize (l.wlgetc i) col = w.uwidth (l.wlgetc i) := by
    intro col
    rw [cellwidth, if_neg htab, if_neg hctrl]
  have hle := h.monotone i (i + 1) (Nat.le_succ i) hi
  rw [wlcolumn_chars, wlcolumn_chars, hstep, ← l.wlgetc_eq hlt, hcell] at hle
  omega

/-- **`wlcolumn` and `wlcoloffset` are inverse to each other**: columns grow with the offset, the
search for a column finds the first character there, and each cell of the line is that of the
character found, or the character starts there and takes none.  They are exactly on the lines
without a character of negative width. -/
theorem column_maps_iff (w : Wcwidth) {tabsize : Nat} (htab : 0 < tabsize) (l : LineText) :
    ColumnMaps w tabsize l ↔ NoNegative w l := by
  refine ⟨ColumnMaps.noNegative, ?_⟩
  intro h
  have hpos := h.cellwidth_nonneg htab
  constructor
  · intro o o' hle _
    rw [wlcolumn_chars, wlcolumn_chars]
    exact Cells.column_take_le hpos hle
  · intro o ho
    rw [← l.length_chars] at ho
    obtain ⟨hcolumn, hbefore⟩ := Cells.offset_column 0 hpos ho
    rw [wlcoloffset_chars, wlcolumn_chars]
    constructor
    · rw [Set.mem_setOf_eq, wlcolumn_chars]
      exact hcolumn
    · intro k hk
      rw [Set.mem_setOf_eq, wlcolumn_chars] at hk
      by_contra hlt
      exact hbefore k (Nat.lt_of_not_le hlt) hk
  · intro c hc hend
    rw [wlcolumn_chars, ← l.length_chars, List.take_length] at hend
    obtain ⟨hlt, hle, hcell⟩ := Cells.offset_cell hpos hc hend
    dsimp only
    rw [wlcoloffset_chars, wlcolumn_chars, wlcolumn_chars, l.wlgetc_eq hlt, ← l.length_chars]
    exact ⟨hlt, hle, hcell⟩

/-- A tab, a wide letter and an empty mark do no harm. -/
theorem column_maps_wide : ColumnMaps someWidths 8
    ⟨[0x61, 0x65, 0xcc, 0x81, 0x09, 0xe1, 0x84, 0x80], []⟩ := by
  refine (column_maps_iff someWidths (by decide) _).mpr ?_
  have hall : ∀ i < 5, cisctrl (LineText.wlgetc
      ⟨[0x61, 0x65, 0xcc, 0x81, 0x09, 0xe1, 0x84, 0x80], []⟩ i) ∨
      0 ≤ someWidths.uwidth (LineText.wlgetc
        ⟨[0x61, 0x65, 0xcc, 0x81, 0x09, 0xe1, 0x84, 0x80], []⟩ i) := by decide
  exact hall

/-- U+0080 takes the column back behind the start of the line. -/
theorem column_goes_back : ¬ ∀ (w : Wcwidth) (tabsize : Nat) (l : LineText), 0 < tabsize →
    ColumnMaps w tabsize l := by
  intro h
  have hmaps := h someWidths 8 ⟨[0xc2, 0x80], []⟩ (by decide)
  exact absurd (hmaps.monotone 0 1 (by decide) (by decide)) (by decide)

end Emacs
