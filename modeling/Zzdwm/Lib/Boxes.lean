import Mathlib

/-!
# Boxes and rows of spans

A box is the product of two spans of integers.  A row of `n` spans leaves the
same gap between any two of them that follow each other.

* `Row.disjoint`, `Row.covers` — the spans of a row do not meet, and without a
  gap they fill it;
* `cut_even`, `cut_last` — two ways to hand out what a division leaves over;
* `points_subset_iff`, `cell_disjoint`, `column_covers` — boxes by their sides.
-/

namespace Boxes

/-! ## Rows of spans -/

/-- The numbers from `a` on, `l` of them. -/
def span (a l : Int) : Set Int := Set.Ico a (a + l)

/-- The spans from `pos j` on of `size j` numbers, `n` of them, follow each other with
the gap in between. -/
structure Row (gap : Int) (n : Nat) (pos size : Nat → Int) : Prop where
  size_pos : ∀ j < n, 0 < size j
  next : ∀ j, j + 1 < n → pos j + size j + gap = pos (j + 1)

variable {gap a s rest : Int} {n i j : Nat} {pos size : Nat → Int}

/-- A span ends before any later one begins. -/
theorem Row.before (h : Row gap n pos size) (hgap : 0 ≤ gap) (hij : i < j) (hj : j < n) :
    pos i + size i + gap ≤ pos j := by
  obtain ⟨d, rfl⟩ := Nat.exists_eq_add_of_lt hij
  induction d with
  | zero => exact le_of_eq (h.next i hj)
  | succ d ih =>
      have hlast := h.next (i + d + 1) hj
      have hsize := h.size_pos (i + d + 1) (by omega)
      have hbefore := ih (by omega) (by omega)
      have hcast : i + (d + 1) + 1 = i + d + 1 + 1 := by omega
      rw [hcast]
      omega

theorem Row.disjoint (h : Row gap n pos size) (hgap : 0 ≤ gap) (hi : i < n) (hj : j < n)
    (hij : i ≠ j) : Disjoint (span (pos i) (size i)) (span (pos j) (size j)) := by
  refine Set.Ico_disjoint_Ico.mpr ?_
  rcases Nat.lt_or_gt_of_ne hij with hlt | hgt
  · have := h.before hgap hlt hj
    omega
  · have := h.before hgap hgt hi
    omega

/-- The whole row, from the first span to the last one. -/
theorem Row.inside (h : Row gap n pos size) (hgap : 0 ≤ gap) (hj : j < n) :
    pos 0 ≤ pos j ∧ pos j + size j ≤ pos (n - 1) + size (n - 1) := by
  constructor
  · rcases Nat.eq_zero_or_pos j with rfl | hpos
    · exact Int.le_refl _
    · have hsize := h.size_pos 0 (by omega)
      have := h.before hgap hpos hj
      omega
  · rcases Nat.eq_or_lt_of_le (Nat.le_sub_one_of_lt hj) with rfl | hlt
    · exact Int.le_refl _
    · have hsize := h.size_pos (n - 1) (by omega)
      have := h.before hgap hlt (by omega)
      omega

/-- Without a gap, nothing is left between the spans. -/
theorem Row.covers (h : Row 0 n pos size) (hn : 0 < n) :
    ⋃ j < n, span (pos j) (size j) = Set.Ico (pos 0) (pos (n - 1) + size (n - 1)) := by
  refine Set.Subset.antisymm ?_ ?_
  · refine Set.iUnion₂_subset fun j hj => ?_
    have := h.inside (Int.le_refl 0) hj
    exact Set.Ico_subset_Ico this.1 this.2
  · -- where each span ends the next one begins, and the last one at the end
    let cut : Nat → Int := fun j => if j < n then pos j else pos (n - 1) + size (n - 1)
    have hcut : ∀ j < n, Set.Ico (cut j) (cut (j + 1)) = span (pos j) (size j) := by
      intro j hj
      have hstart : cut j = pos j := if_pos hj
      have hend : cut (j + 1) = pos j + size j := by
        by_cases hlast : j + 1 < n
        · exact (if_pos hlast).trans (by rw [← h.next j hlast, Int.add_zero])
        · obtain rfl : j = n - 1 := by omega
          exact if_neg hlast
      rw [hstart, hend, span]
    have hall := Ico_subset_biUnion_Ico n cut
    have hfirst : cut 0 = pos 0 := if_pos hn
    have hlast : cut n = pos (n - 1) + size (n - 1) := if_neg (Nat.lt_irrefl n)
    rw [hfirst, hlast] at hall
    refine hall.trans (Set.iUnion₂_subset fun j hj => ?_)
    rw [hcut j (Finset.mem_range.mp hj)]
    exact Set.subset_iUnion₂ (s := fun j (_ : j < n) => span (pos j) (size j)) j
      (Finset.mem_range.mp hj)

/-- A row that takes up the `l` numbers from `a` on, with a gap at both ends too. -/
structure Cut (a l gap : Int) (n : Nat) (pos size : Nat → Int) : Prop extends
    Row gap n pos size where
  start : pos 0 = a + gap
  stop : pos (n - 1) + size (n - 1) + gap = a + l

variable {l : Int}

theorem Cut.inside (h : Cut a l gap n pos size) (hgap : 0 ≤ gap) (hj : j < n) :
    a ≤ pos j ∧ pos j + size j ≤ a + l := by
  have hin := h.toRow.inside hgap hj
  have hstart := h.start
  have hstop := h.stop
  omega

theorem Cut.covers (h : Cut a l 0 n pos size) (hn : 0 < n) :
    ⋃ j < n, span (pos j) (size j) = span a l := by
  have hstart := h.start
  have hstop := h.stop
  rw [Int.add_zero] at hstart hstop
  rw [h.toRow.covers hn, hstart, hstop, span]

/-- **Handed out from the front**: the first spans are one longer. -/
theorem cut_even (a gap room : Int) (hn : 0 < n) (hroom : n ≤ room) :
    Cut a (room + gap * (n + 1)) gap n
      (fun j => a + gap + j * (room / n + gap) + min (j : Int) (room % n))
      (fun j => room / n + if (j : Int) < room % n then 1 else 0) := by
  have hn' : (0 : Int) < n := by omega
  have hs : 1 ≤ room / n := Int.le_ediv_of_mul_le hn' (by omega)
  have hrest : 0 ≤ room % n := Int.emod_nonneg _ (by omega)
  have hlt : room % n < n := Int.emod_lt_of_pos _ hn'
  refine ⟨⟨fun j _ => ?_, fun j _ => ?_⟩, ?_, ?_⟩
  · split_ifs <;> omega
  · have hmul : ((j + 1 : Nat) : Int) * (room / n + gap) =
        j * (room / n + gap) + (room / n + gap) := by
      push_cast
      ring
    simp only [hmul]
    split_ifs <;> omega
  · simp only [Nat.cast_zero, zero_mul]
    omega
  · -- one span further on would begin behind the last gap
    obtain ⟨k, rfl⟩ : ∃ k, n = k + 1 := ⟨n - 1, by omega⟩
    have hdiv := Int.mul_ediv_add_emod room (k + 1 : Nat)
    rw [Nat.add_sub_cancel]
    push_cast at hdiv hlt hrest ⊢
    generalize room / (k + 1) = q at *
    generalize room % (k + 1) = r at *
    have hsum : (k : Int) * (q + gap) + (q + gap) + r = room + gap * (k + 1) := by
      rw [← hdiv]
      ring
    have hall : gap * ((k : Int) + 1 + 1) = gap * (k + 1) + gap := by ring
    rw [hall]
    split_ifs <;> omega

/-- **Handed out at the end**: the last span takes all that is left over. -/
theorem cut_last (hn : 0 < n) (hl : n ≤ l) :
    Cut a l 0 n (fun j => a + j * (l / n)) (fun j => l / n + if j + 1 = n then l % n else 0) := by
  have hn' : (0 : Int) < n := by omega
  have hs : 1 ≤ l / n := Int.le_ediv_of_mul_le hn' (by omega)
  have hrest : 0 ≤ l % n := Int.emod_nonneg _ (by omega)
  refine ⟨⟨fun j _ => ?_, fun j hj => ?_⟩, ?_, ?_⟩
  · split_ifs <;> omega
  · have hmul : ((j + 1 : Nat) : Int) * (l / n) = j * (l / n) + l / n := by
      push_cast
      ring
    simp only [hmul, if_neg (Nat.ne_of_lt hj)]
    omega
  · simp only [Nat.cast_zero, zero_mul]
  · obtain ⟨k, rfl⟩ : ∃ k, n = k + 1 := ⟨n - 1, by omega⟩
    have hdiv := Int.mul_ediv_add_emod l (k + 1 : Nat)
    rw [Nat.add_sub_cancel, if_pos rfl]
    push_cast at hdiv ⊢
    generalize l / (k + 1) = q at *
    generalize l % (k + 1) = r at *
    have hsum : ((k : Int) + 1) * q = k * q + q := by ring
    omega

/-! ## Boxes -/

/-- The points of a box. -/
def points (x y w h : Int) : Set (Int × Int) := span x w ×ˢ span y h

variable {x y w h x' y' w' h' : Int}

theorem points_nonempty_iff : (points x y w h).Nonempty ↔ 0 < w ∧ 0 < h := by
  rw [points, Set.prod_nonempty_iff, span, span, Set.nonempty_Ico, Set.nonempty_Ico]
  omega

theorem points_subset_iff (hne : (points x y w h).Nonempty) :
    points x y w h ⊆ points x' y' w' h' ↔
      (x' ≤ x ∧ x + w ≤ x' + w') ∧ y' ≤ y ∧ y + h ≤ y' + h' := by
  obtain ⟨hw, hh⟩ := points_nonempty_iff.mp hne
  rw [points, points, Set.prod_subset_prod_iff' hne, span, span, span, span,
    Set.Ico_subset_Ico_iff (by omega), Set.Ico_subset_Ico_iff (by omega)]

variable {cols rows : Nat} {cpos csize rpos rsize : Nat → Int} {k : Nat}

/-- **Two cells** of a grid that is filled column by column do not meet. -/
theorem cell_disjoint (hc : Row gap cols cpos csize) (hr : Row gap rows rpos rsize)
    (hgap : 0 ≤ gap) (hj : j < rows * cols) (hk : k < rows * cols) (hjk : j ≠ k) :
    Disjoint (points (cpos (j / rows)) (rpos (j % rows)) (csize (j / rows)) (rsize (j % rows)))
      (points (cpos (k / rows)) (rpos (k % rows)) (csize (k / rows)) (rsize (k % rows))) := by
  have hrows : 0 < rows := by
    rcases Nat.eq_zero_or_pos rows with rfl | hpos
    · omega
    · exact hpos
  refine Set.disjoint_prod.mpr ?_
  by_cases hcol : j / rows = k / rows
  · right
    apply hr.disjoint hgap (Nat.mod_lt _ hrows) (Nat.mod_lt _ hrows)
    intro hrow
    apply hjk
    rw [← Nat.div_add_mod j rows, ← Nat.div_add_mod k rows, hcol, hrow]
  · left
    exact hc.disjoint hgap (Nat.div_lt_of_lt_mul hj) (Nat.div_lt_of_lt_mul hk) hcol

/-- A cell is in the area that is cut up. -/
theorem cell_inside {W H : Int} (hc : Cut x W gap cols cpos csize) (hr : Cut y H gap rows rpos rsize)
    (hgap : 0 ≤ gap) (hj : j < cols) (hk : k < rows) :
    (points (cpos j) (rpos k) (csize j) (rsize k)).Nonempty ∧
      points (cpos j) (rpos k) (csize j) (rsize k) ⊆ points x y W H := by
  have hne : (points (cpos j) (rpos k) (csize j) (rsize k)).Nonempty :=
    points_nonempty_iff.mpr ⟨hc.size_pos j hj, hr.size_pos k hk⟩
  refine ⟨hne, (points_subset_iff hne).mpr ⟨hc.inside hgap hj, hr.inside hgap hk⟩⟩

/-- The cells of a full column cover it. -/
theorem column_covers {H : Int} (hr : Cut y H 0 rows rpos rsize) (hrows : 0 < rows) :
    ⋃ j < rows, points x (rpos j) w (rsize j) = points x y w H := by
  rw [points, ← hr.covers hrows, Set.prod_iUnion₂]
  rfl

end Boxes
