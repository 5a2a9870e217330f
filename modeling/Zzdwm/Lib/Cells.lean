import Mathlib

/-!
# The columns of a line

The elements of a line take cells, one after the other.  How many cells an element
takes may depend on the column where it starts, as it does for a tab, and there may be
none, or less.

* `outside` — a line without the elements that have a cell in a range of columns;
* `offset`, `reach` — the searches for the two edges of the range;
* `drop_eq_outside_iff` — **cutting a number of elements from the left edge on leaves
  what is outside** exactly if the elements up to the right edge are cut, all of them are
  in the range, and none behind them is.
-/

namespace Cells

variable {A : Type} (width : A → Int → Int)

/-- The column behind some elements. -/
def column : Int → List A → Int
  | col, [] => col
  | col, a :: as => column (col + width a col) as

/-- How many elements end at the column `goal` or in front of it; the search stops at
the first one that does not. -/
def offset (goal : Int) : Int → List A → Nat
  | _, [] => 0
  | col, a :: as =>
      if col ≥ goal ∨ col + width a col > goal then 0
      else offset goal (col + width a col) as + 1

/-- How many elements start in front of the column `goal`; the search stops at the first
one that does not, or that ends behind it. -/
def reach (goal : Int) : Int → List A → Nat
  | _, [] => 0
  | col, a :: as =>
      if col ≥ goal then 0
      else if col + width a col > goal then 1
      else reach goal (col + width a col) as + 1

/-- Some cell of an element at the column `col` is in the range from `lo` to `hi`. -/
def Meets (lo hi col : Int) (a : A) : Prop := max col lo < min (col + width a col) hi

instance (lo hi col : Int) (a : A) : Decidable (Meets width lo hi col a) :=
  inferInstanceAs (Decidable (_ < _))

/-- A line without the elements that have a cell in the range. -/
def outside (lo hi : Int) : Int → List A → List A
  | _, [] => []
  | col, a :: as =>
      let rest := outside lo hi (col + width a col) as
      if Meets width lo hi col a then rest else a :: rest

/-- The elements that have a cell in the range. -/
def inside (lo hi : Int) : Int → List A → List A
  | _, [] => []
  | col, a :: as =>
      let rest := inside lo hi (col + width a col) as
      if Meets width lo hi col a then a :: rest else rest

variable {width} {lo hi goal col : Int} {a : A} {as bs : List A}

theorem meets_iff : Meets width lo hi col a ↔
    0 < width a col ∧ col < hi ∧ lo < col + width a col ∧ lo < hi := by
  unfold Meets
  omega

theorem column_append : column width col (as ++ bs) = column width (column width col as) bs := by
  induction as generalizing col with
  | nil => rfl
  | cons a as ih => exact ih

theorem outside_append : outside width lo hi col (as ++ bs) =
    outside width lo hi col as ++ outside width lo hi (column width col as) bs := by
  induction as generalizing col with
  | nil => rfl
  | cons a as ih =>
    rw [List.cons_append, outside, outside, column]
    rw [ih]
    split
    · rfl
    · rw [List.cons_append]

theorem outside_sublist : (outside width lo hi col as).Sublist as := by
  induction as generalizing col with
  | nil => exact List.Sublist.refl _
  | cons a as ih =>
    rw [outside]
    split
    · exact ih.cons a
    · exact ih.cons_cons a

/-- Nothing has a cell in an empty range. -/
theorem outside_empty (h : hi ≤ lo) : outside width lo hi col as = as := by
  induction as generalizing col with
  | nil => rfl
  | cons a as ih =>
    rw [outside, if_neg fun hmeets => Int.not_lt.mpr h (meets_iff.mp hmeets).2.2.2, ih]

/-- What starts at the right edge or behind it is outside. -/
theorem outside_behind (lo : Int) (h : hi ≤ col) (hpos : ∀ a ∈ as, ∀ c, 0 ≤ width a c) :
    outside width lo hi col as = as ∧ hi ≤ column width col as := by
  induction as generalizing col with
  | nil => exact ⟨rfl, h⟩
  | cons a as ih =>
    have ha := hpos a List.mem_cons_self col
    have hle : hi ≤ col + width a col := by omega
    obtain ⟨hrest, hcol⟩ := ih hle
      fun b hb => hpos b (List.mem_cons_of_mem _ hb)
    refine ⟨?_, hcol⟩
    rw [outside, if_neg fun hmeets => Int.not_lt.mpr h (meets_iff.mp hmeets).2.1, hrest]

/-- An element is inside or outside. -/
theorem perm_inside_outside (lo hi col : Int) (as : List A) :
    List.Perm as (inside width lo hi col as ++ outside width lo hi col as) := by
  induction as generalizing col with
  | nil => exact List.Perm.nil
  | cons a as ih =>
    rw [inside, outside]
    split
    · exact (ih _).cons a
    · exact ((ih _).cons a).trans List.perm_middle.symm

/-- What is inside has cells. -/
theorem inside_pos (ha : a ∈ inside width lo hi col as) : ∃ c, 0 < width a c := by
  induction as generalizing col with
  | nil => cases ha
  | cons b as ih =>
    rw [inside] at ha
    split at ha
    · rename_i hmeets
      rcases List.mem_cons.mp ha with rfl | ha
      · exact ⟨col, (meets_iff.mp hmeets).1⟩
      · exact ih ha
    · exact ih ha

/-! ## The two edges -/

theorem offset_le : offset width goal col as ≤ as.length := by
  induction as generalizing col with
  | nil => exact Nat.le_refl _
  | cons a as ih =>
    rw [offset]
    split
    · exact Nat.zero_le _
    · exact Nat.succ_le_succ ih

theorem reach_le : reach width goal col as ≤ as.length := by
  induction as generalizing col with
  | nil => exact Nat.le_refl _
  | cons a as ih =>
    rw [reach]
    split
    · exact Nat.zero_le _
    · split
      · exact Nat.succ_le_succ (Nat.zero_le _)
      · exact Nat.succ_le_succ ih

/-- The search for the right edge is that for its column, and one step more if that
column is inside an element. -/
theorem reach_eq : reach width goal col as =
    let n := offset width goal col as
    if n < as.length ∧ column width col (as.take n) < goal then n + 1 else n := by
  induction as generalizing col with
  | nil => rfl
  | cons a as ih =>
    dsimp only
    by_cases hcol : col ≥ goal
    · have hoffset : offset width goal col (a :: as) = 0 := by
        rw [offset, if_pos (.inl hcol)]
      rw [hoffset, reach, if_pos hcol, List.take_zero, column,
        if_neg fun h => Int.not_lt.mpr hcol h.2]
    · by_cases hnext : col + width a col > goal
      · have hoffset : offset width goal col (a :: as) = 0 := by
          rw [offset, if_pos (.inr hnext)]
        rw [hoffset, reach, if_neg hcol, if_pos hnext, List.take_zero, column,
          if_pos ⟨Nat.succ_pos _, Int.not_le.mp hcol⟩]
      · have hoffset : offset width goal col (a :: as) =
            offset width goal (col + width a col) as + 1 := by
          rw [offset, if_neg fun h => h.elim hcol hnext]
        rw [hoffset, reach, if_neg hcol, if_neg hnext, ih, List.take_succ_cons, column,
          List.length_cons]
        dsimp only
        by_cases hlast : offset width goal (col + width a col) as < as.length ∧
            column width (col + width a col)
              (as.take (offset width goal (col + width a col) as)) < goal
        · rw [if_pos hlast, if_pos ⟨Nat.succ_lt_succ hlast.1, hlast.2⟩]
        · rw [if_neg hlast, if_neg fun h => hlast ⟨Nat.lt_of_succ_lt_succ h.1, h.2⟩]

/-- What is in front of the left edge is outside. -/
theorem outside_take_offset :
    outside width lo hi col (as.take (offset width lo col as)) =
      as.take (offset width lo col as) := by
  induction as generalizing col with
  | nil => rfl
  | cons a as ih =>
    rw [offset]
    split
    · rfl
    · rename_i hstop
      have hmeets : ¬ Meets width lo hi col a := by
        rw [meets_iff]
        omega
      rw [List.take_succ_cons, outside, if_neg hmeets, ih]

/-- The search is at its end where it stops. -/
theorem offset_drop : offset width lo (column width col (as.take (offset width lo col as)))
    (as.drop (offset width lo col as)) = 0 := by
  induction as generalizing col with
  | nil => rfl
  | cons a as ih =>
    by_cases hstop : col ≥ lo ∨ col + width a col > lo
    · rw [offset, if_pos hstop, List.take_zero, List.drop_zero, column, offset, if_pos hstop]
    · rw [offset, if_neg hstop, List.take_succ_cons, List.drop_succ_cons, column]
      exact ih

/-- The right edge is searched from the left one on. -/
theorem reach_from (hle : lo ≤ hi) : reach width hi col as =
    offset width lo col as + reach width hi (column width col (as.take (offset width lo col as)))
      (as.drop (offset width lo col as)) := by
  induction as generalizing col with
  | nil => rfl
  | cons a as ih =>
    by_cases hstop : col ≥ lo ∨ col + width a col > lo
    · rw [offset, if_pos hstop, List.take_zero, List.drop_zero, column, Nat.zero_add]
    · rw [offset, if_neg hstop, List.take_succ_cons, List.drop_succ_cons, column, reach,
        if_neg (by omega), if_neg (by omega), ih]
      omega

/-- What follows the right edge starts there, or behind it. -/
theorem reach_column (width : A → Int → Int) (hi col : Int) (as : List A) :
    as.drop (reach width hi col as) = [] ∨
    hi ≤ column width col (as.take (reach width hi col as)) := by
  induction as generalizing col with
  | nil => exact .inl rfl
  | cons a as ih =>
    rw [reach]
    split
    · rename_i hcol
      exact .inr hcol
    · split
      · rename_i hnext
        exact .inr (Int.le_of_lt hnext)
      · exact ih _

/-! ## Cutting -/

section Cutting

variable (hsign : ∀ a c c', 0 < width a c → 0 < width a c')

/-- Elements behind the right edge cannot be made up for by later ones. -/
theorem nil_of_eq_append (hpos : ∀ a ∈ as, ∀ c, 0 < width a c) (hcol : hi ≤ col)
    (h : bs = as ++ outside width lo hi col bs) : as = [] := by
  by_contra hne
  -- what is left out of `bs` is of the same form, and shorter
  induction hn : bs.length using Nat.strongRecOn generalizing bs col with
  | _ n ih =>
    obtain ⟨hsame, hnext⟩ := outside_behind lo hcol
      fun a ha c => Int.le_of_lt (hpos a ha c)
    have hrest : outside width lo hi col bs =
        as ++ outside width lo hi (column width col as) (outside width lo hi col bs) := by
      conv_lhs => rw [h, outside_append, hsame]
    have hlen := congrArg List.length h
    have has := List.length_pos_iff.mpr hne
    rw [List.length_append] at hlen
    exact ih _ (by omega) hnext hrest rfl

/-- If elements with cells can be cut at the left edge, they are the ones inside. -/
theorem cut_inside {cs : List A} (hpos : ∀ a ∈ cs, ∀ c, 0 < width a c)
    (hstart : ∀ a ds, cs = a :: ds → lo < col + width a col)
    (h : bs = outside width lo hi col (cs ++ bs)) :
    outside width lo hi col cs = [] ∧ outside width lo hi (column width col cs) bs = bs := by
  induction cs generalizing col with
  | nil => exact ⟨rfl, h.symm⟩
  | cons a cs ih =>
    have ha := hpos a List.mem_cons_self col
    have hlo := hstart a cs rfl
    by_cases hmeets : Meets width lo hi col a
    · rw [List.cons_append, outside, if_pos hmeets] at h
      rw [outside, if_pos hmeets, column]
      refine ih (fun b hb => hpos b (List.mem_cons_of_mem _ hb)) (fun b ds heq => ?_) h
      have hb := hpos b (heq ▸ List.mem_cons_of_mem _ List.mem_cons_self) (col + width a col)
      omega
    · exfalso
      have hout : hi ≤ lo ∨ hi ≤ col := by
        rw [meets_iff] at hmeets
        omega
      rcases hout with hempty | hcol
      · rw [outside_empty hempty] at h
        have hlen := congrArg List.length h
        rw [List.length_append, List.length_cons] at hlen
        omega
      · obtain ⟨hsame, hnext⟩ := outside_behind lo hcol
          fun b hb c => Int.le_of_lt (hpos b hb c)
        rw [outside_append, hsame] at h
        exact List.cons_ne_nil _ _ (nil_of_eq_append hpos hnext h)

include hsign in
/-- **A cut at the left edge leaves what is outside** exactly if it goes to the right
edge, all that it takes is inside, and nothing behind it is. -/
theorem drop_eq_outside_iff {n : Nat} (hstart : offset width lo col as = 0)
    (hn : reach width hi col as ≤ n) (hlen : n ≤ as.length) :
    as.drop n = outside width lo hi col as ↔ n = reach width hi col as ∧
      outside width lo hi col (as.take n) = [] ∧
      outside width lo hi (column width col (as.take n)) (as.drop n) = as.drop n := by
  constructor
  · intro h
    -- what is cut is, in some order, what is inside, and has cells
    have hperm : List.Perm (as.take n) (inside width lo hi col as) := by
      have hall : List.Perm as (inside width lo hi col as ++ outside width lo hi col as) :=
        perm_inside_outside lo hi col as
      rw [← h] at hall
      conv at hall => lhs; rw [← List.take_append_drop n as]
      exact (List.perm_append_right_iff _).mp hall
    have hpos : ∀ a ∈ as.take n, ∀ c, 0 < width a c := by
      intro a ha c
      obtain ⟨c', hc'⟩ := inside_pos (hperm.mem_iff.mp ha)
      exact hsign a c' c hc'
    have hfirst : ∀ a ds, as.take n = a :: ds → lo < col + width a col := by
      intro a ds heq
      have ha := hpos a (heq ▸ List.mem_cons_self) col
      cases as with
      | nil => simp at heq
      | cons b as =>
        cases n with
        | zero => simp at heq
        | succ n =>
          rw [List.take_succ_cons] at heq
          obtain ⟨rfl, -⟩ := List.cons.inj heq
          rw [offset] at hstart
          split at hstart
          · rename_i hstop
            omega
          · cases hstart
    have hcut : as.drop n = outside width lo hi col (as.take n ++ as.drop n) := by
      rw [List.take_append_drop]
      exact h
    obtain ⟨hin, hout⟩ := cut_inside hpos hfirst hcut
    refine ⟨Nat.le_antisymm (Nat.le_of_not_lt fun hlt => ?_) hn, hin, hout⟩
    -- an element behind the right edge would have been cut
    obtain ⟨m, rfl⟩ : ∃ m, n = reach width hi col as + (m + 1) :=
      ⟨n - reach width hi col as - 1, by omega⟩
    rw [List.take_add, outside_append] at hin
    have htail := (List.append_eq_nil_iff.mp hin).2
    rcases reach_column width hi col as with hnil | hcol
    · have hle := List.drop_eq_nil_iff.mp hnil
      omega
    · obtain ⟨hsame, -⟩ := outside_behind lo hcol fun a ha c => Int.le_of_lt
        (hpos a (by rw [List.take_add]; exact List.mem_append_right _ ha) c)
      rw [hsame] at htail
      have hnil := congrArg List.length htail
      rw [List.length_take, List.length_drop, List.length_nil] at hnil
      omega
  · rintro ⟨-, hin, hout⟩
    conv_rhs => rw [← List.take_append_drop n as, outside_append, hin, List.nil_append, hout]

end Cutting

/-! ## Columns and offsets -/

section Maps

variable {A : Type} {width : A → Int → Int} {col goal : Int} {as : List A}

theorem column_take_succ (width : A → Int → Int) (col : Int) {n : Nat} (hn : n < as.length) :
    column width col (as.take (n + 1)) =
      column width col (as.take n) + width as[n] (column width col (as.take n)) := by
  rw [List.take_succ_eq_append_getElem hn, column_append]
  rfl

/-- Elements that do not go back. -/
theorem column_take_le (hpos : ∀ a ∈ as, ∀ c, 0 ≤ width a c) {m n : Nat} (h : m ≤ n) :
    column width col (as.take m) ≤ column width col (as.take n) := by
  induction h with
  | refl => exact Int.le_refl _
  | @step n _ ih =>
      by_cases hn : n < as.length
      · have hwidth := hpos as[n] (List.getElem_mem hn) (column width col (as.take n))
        rw [column_take_succ width col hn]
        omega
      · have hall : as.take (n + 1) = as.take n := by
          rw [List.take_of_length_le (by omega), List.take_of_length_le (by omega)]
        rw [hall]
        exact ih

/-- **Where the search stops**: at the first element that the goal does not lie behind. -/
theorem offset_spec (width : A → Int → Int) (goal col : Int) (as : List A) :
    (∀ k < offset width goal col as, column width col (as.take k) < goal ∧
        column width col (as.take (k + 1)) ≤ goal) ∧
      (offset width goal col as < as.length →
        goal ≤ column width col (as.take (offset width goal col as)) ∨
          goal < column width col (as.take (offset width goal col as + 1))) := by
  induction as generalizing col with
  | nil => exact ⟨nofun, nofun⟩
  | cons a as ih =>
      rw [offset]
      split
      next hstop =>
        refine ⟨nofun, ?_⟩
        intro _
        exact hstop
      next hgo =>
        obtain ⟨hbefore, hat⟩ := ih (col + width a col)
        rw [not_or] at hgo
        constructor
        · intro k hk
          cases k with
          | zero => exact ⟨Int.lt_of_not_ge hgo.1, Int.le_of_not_gt hgo.2⟩
          | succ k => exact hbefore k (Nat.lt_of_succ_lt_succ hk)
        · intro hlt
          exact hat (Nat.lt_of_succ_lt_succ hlt)

/-- **The search for the column of an element** finds the first one with that column. -/
theorem offset_column (col : Int) (hpos : ∀ a ∈ as, ∀ c, 0 ≤ width a c) {o : Nat}
    (ho : o ≤ as.length) :
    let n := offset width (column width col (as.take o)) col as
    column width col (as.take n) = column width col (as.take o) ∧
      ∀ k < n, column width col (as.take k) ≠ column width col (as.take o) := by
  obtain ⟨hbefore, hat⟩ := offset_spec width (column width col (as.take o)) col as
  dsimp only
  generalize offset width (column width col (as.take o)) col as = n at hbefore hat
  have hn : n ≤ o := by
    by_contra hlt
    have hless := (hbefore o (by omega)).1
    omega
  refine ⟨?_, fun k hk => Int.ne_of_lt (hbefore k hk).1⟩
  have hle : column width col (as.take n) ≤ column width col (as.take o) :=
    column_take_le hpos hn
  rcases Nat.eq_or_lt_of_le hn with rfl | hlt
  · rfl
  · have hnext : column width col (as.take (n + 1)) ≤ column width col (as.take o) :=
      column_take_le hpos hlt
    rcases hat (by omega) with h | h
    · omega
    · omega

/-- **The element at a column** has a cell there, or takes none and starts there. -/
theorem offset_cell (hpos : ∀ a ∈ as, ∀ c, 0 ≤ width a c) (hcol : col ≤ goal)
    (hgoal : goal < column width col as) :
    ∃ h : offset width goal col as < as.length,
      column width col (as.take (offset width goal col as)) ≤ goal ∧
        (goal < column width col (as.take (offset width goal col as + 1)) ∨
          goal = column width col (as.take (offset width goal col as)) ∧
            width as[offset width goal col as] goal = 0) := by
  obtain ⟨hbefore, hat⟩ := offset_spec width goal col as
  have hle : column width col (as.take (offset width goal col as)) ≤ goal := by
    cases hn : offset width goal col as with
    | zero => exact hcol
    | succ n => exact (hbefore n (by omega)).2
  have hlt : offset width goal col as < as.length := by
    refine Nat.lt_of_le_of_ne offset_le ?_
    intro hend
    rw [hend, List.take_length] at hle
    omega
  refine ⟨hlt, hle, ?_⟩
  have hstep := column_take_succ width col hlt
  have hwidth := hpos _ (List.getElem_mem hlt)
    (column width col (as.take (offset width goal col as)))
  rcases hat hlt with hreached | hinside
  · have heq : goal = column width col (as.take (offset width goal col as)) := by omega
    rw [← heq] at hstep hwidth
    by_cases hzero : width as[offset width goal col as] goal = 0
    · exact Or.inr ⟨heq, hzero⟩
    · left
      omega
  · exact Or.inl hinside

end Maps

end Cells
