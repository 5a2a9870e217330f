import Zzdwm.Dwm.GridCells

/-!
# The grid on a small monitor

The counts of `grid` are cut down to what a least cell size leaves room for, but
the clients stay as many.  Without a row left the first division is one by zero;
with a row or a column too few there is a client behind the last column, whose
cell begins where the window area ends.

* `cell_behind` — that cell;
* `cell_without_column` — the cells when no column is left;
* `grid_places_iff` — when every client gets a cell in the window area.
-/

namespace Dwm

open Boxes

variable {m : Monitor} {n k R C : Nat} {s : State} {i : MonId}

/-- Every client gets a cell in the window area. -/
structure Places (m : Monitor) (n : Nat) (cell : Nat → Rect) : Prop where
  cells : ∀ k < n, gridCell m n k = some (cell k)
  handed : ∀ s i, s.monitor i = m → (s.tiled i).length = n → HandsOut s i cell
  inside : ∀ k < n, (cell k).points.Nonempty ∧ (cell k).points ⊆ m.area.points

/-! ## The limits -/

/-- On an area of positive length the limit is its conversion. -/
theorem limit_nonneg {l gap cell : Int} (hcell : 0 < cell) (hgap : 0 ≤ gap) (hpos : 0 < l)
    (hl : l < 2147483648) :
    u32 ((l - gap).tdiv (if cell + gap ≠ 0 then cell + gap else 1)) =
      (l - gap).tdiv (if cell + gap ≠ 0 then cell + gap else 1) := by
  rw [if_pos (by omega)]
  by_cases hroom : 0 ≤ l - gap
  · rw [Int.tdiv_eq_ediv_of_nonneg hroom]
    have hle : (l - gap) / (cell + gap) ≤ l - gap := Int.ediv_le_self _ hroom
    exact u32_self (Int.ediv_nonneg hroom (by omega)) (by omega)
  · -- less than nothing, but by less than a cell
    have hneg : (l - gap).tdiv (cell + gap) = -((gap - l).tdiv (cell + gap)) := by
      rw [← Int.neg_tdiv, Int.neg_sub]
    rw [hneg, Int.tdiv_eq_zero_of_lt (by omega) (by omega)]
    rfl

/-- A count that is cut down to its limit has room. -/
theorem limited_room {l gap cell q : Int} {L : Nat} (hcell : 0 < cell) (hgap : 0 ≤ gap)
    (hpos : 0 < l) (hl : l < 2147483648) (hL : 1 ≤ L)
    (h : min q (u32 ((l - gap).tdiv (if cell + gap ≠ 0 then cell + gap else 1))) = L) :
    (L : Int) ≤ q ∧ (L : Int) ≤ (l - gap).tdiv (if cell + gap ≠ 0 then cell + gap else 1) ∧
      L + gap * (L + 1) ≤ l := by
  rw [limit_nonneg hcell hgap hpos hl] at h
  have hle := min_le_left q ((l - gap).tdiv (if cell + gap ≠ 0 then cell + gap else 1))
  have hle' := min_le_right q ((l - gap).tdiv (if cell + gap ≠ 0 then cell + gap else 1))
  rw [h] at hle hle'
  exact ⟨hle, hle', (limit_spec hcell hgap hl (by omega) hle').2⟩

/-! ## Cells outside -/

/-- **The cell behind the last column** is not in the window area. -/
theorem cell_behind (hm : m.InRange) (hR : 0 < R) (hC : 0 < C) (hRC : R * C < 4294967296)
    (hh : R + m.gap * (R + 1) ≤ m.wh) (hw : C + m.gap * (C + 1) ≤ m.ww) {r : Rect}
    (hr : cellOf m R C (R * C) = some r) :
    ¬ (r.points.Nonempty ∧ r.points ⊆ m.area.points) := by
  have hwidth := hm.width
  have hleft := hm.left
  have hright := hm.right
  have hdiv : R * C / R = C := Nat.mul_div_cancel_left C hR
  rw [inside_iff]
  rintro ⟨⟨hpos, -⟩, ⟨-, hend⟩, -⟩
  by_cases hdraw : m.drawwithgaps = true
  · have hgap : m.gap = m.gappx := if_pos hdraw
    have hgaps0 : 0 ≤ m.gap * ((C : Int) + 1) := Int.mul_nonneg hm.gap_nonneg (by omega)
    have hroom := Int.mul_ediv_add_emod (m.ww - m.gap * (C + 1)) C
    have hlt := Int.emod_lt_of_pos (m.ww - m.gap * (C + 1)) (by omega : (0 : Int) < C)
    rw [cellOf, if_pos hdraw,
      cellGaps_eq hm (m.wh - m.gap * (R + 1)) (m.ww - m.gap * (C + 1)) hR hC
        (by rw [hgap]; omega) (by rw [hgap]; omega) (by omega) (by omega), ← hgap, hdiv] at hr
    cases hr
    dsimp only at hpos hend
    generalize (m.ww - m.gap * (C + 1)) / C = q at *
    generalize (m.ww - m.gap * (C + 1)) % C = e at *
    have hsum : (C : Int) * (q + m.gap) = C * q + m.gap * C := by ring
    have hgaps : m.gap * ((C : Int) + 1) = m.gap * C + m.gap := by ring
    have hx : m.wx + m.gap + C * (q + m.gap) + min (C : Int) e = m.wx + m.ww := by omega
    rw [hx, i32_self (by omega) (by omega)] at hend
    omega
  · have hgap : m.gap = 0 := if_neg hdraw
    rw [hgap] at hh hw
    have hroom := Int.mul_ediv_add_emod m.ww C
    have hnonneg := Int.emod_nonneg m.ww (by omega : (C : Int) ≠ 0)
    have hone : 1 ≤ m.ww / C := Int.le_ediv_of_mul_le (by omega) (by omega)
    have hle : m.ww / C ≤ C * (m.ww / C) := by
      have := Int.mul_le_mul_of_nonneg_right (by omega : (1 : Int) ≤ C) (by omega : 0 ≤ m.ww / C)
      omega
    rw [cellOf, if_neg hdraw, cellBare_eq hm hR hC hRC (by omega) (by omega), hdiv,
      if_pos (Nat.le_succ C)] at hr
    cases hr
    dsimp only at hpos hend
    rw [i32_self (by omega) (by omega), i32_self (by omega) (by omega)] at hend
    omega

/-- **Without a column** and with gaps, the first cell is a pixel too wide. -/
theorem cell_without_column (hm : m.InRange) (hdraw : m.drawwithgaps = true) (hR : R ≠ 0)
    (hw : 0 < m.ww) (hnone : m.ww < 1000) {r : Rect} (hr : cellOf m R 0 0 = some r) :
    ¬ (r.points.Nonempty ∧ r.points ⊆ m.area.points) := by
  have hwidth := hm.width
  have hleft := hm.left
  have hright := hm.right
  have hgap := hm.gap
  have hmax : maxgappx = 50 := rfl
  have hroom : u32 (m.ww - 2 * m.gappx - m.gappx * u32 (0 - 1)) = u32 (m.ww - m.gappx) := by
    have hminus : u32 (0 - 1) = 4294967295 := rfl
    rw [hminus]
    unfold u32
    omega
  rw [inside_iff]
  rintro ⟨⟨hpos, -⟩, ⟨-, hend⟩, -⟩
  have hR' : (R : Int) ≠ 0 := by omega
  rw [cellOf, if_pos hdraw] at hr
  unfold cellGaps at hr
  rw [hroom, udiv_eq hR', umod_eq hR'] at hr
  cases hr
  have hone : ∀ x : Int, x / (if (0 : Int) ≠ 0 then 0 else 1) = x := Int.ediv_one
  simp only [Nat.cast_zero, Int.zero_ediv, zero_mul, add_zero, hone, mul_zero, sub_zero] at hpos hend
  by_cases hsmall : m.gappx ≤ m.ww
  · rw [u32_self (x := m.ww - m.gappx) (by omega) (by omega),
      u32_self (by omega) (by omega)] at hpos hend
    rw [min_eq_left (by omega), i32_self (by omega) (by omega)] at hend
    split_ifs at hpos hend
    · rw [i32_self (by omega) (by omega)] at hend
      omega
    · rw [i32_self (by omega) (by omega)] at hpos
      omega
  · -- the difference wraps, and comes back as a negative width
    have hwrap : u32 (m.ww - m.gappx) = m.ww - m.gappx + 4294967296 := by
      unfold u32
      omega
    rw [hwrap, u32_self (by omega) (by omega), if_pos (by omega)] at hpos
    have hback : i32 (m.ww - m.gappx + 4294967296 + 1) = m.ww - m.gappx + 1 := by
      rw [add_right_comm, i32_wrap, i32_self (by omega) (by omega)]
    rw [hback] at hpos
    omega

/-- Without a column and without gaps, the cells of the first column are as if there
were one. -/
theorem cellBare_lone (hm : m.InRange) (hw : 0 < m.ww) (hR : 0 < R) (hR' : R < 2147483648)
    (hk : k ≤ R) :
    cellBare m R 0 k = cellBare m R (1 : Nat) k := by
  have hwidth := hm.width
  have hlast : ¬ (k : Int) ≥ u32 (R * u32 (0 - 1)) := by
    have hminus : u32 (0 - 1) = 4294967295 := rfl
    have hmul : (R : Int) * 4294967295 = 4294967296 - R + (R - 1) * 4294967296 := by ring
    rw [hminus, hmul, u32, Int.add_mul_emod_self_right, Int.emod_eq_of_lt (by omega) (by omega)]
    omega
  have hfirst : (k : Int) ≥ u32 (R * u32 ((1 : Nat) - 1)) := by
    have hzero : u32 (((1 : Nat) : Int) - 1) = 0 := rfl
    rw [hzero, mul_zero]
    exact Int.natCast_nonneg k
  have hrest : u32 (m.ww - u32 m.ww / (1 : Nat) * (1 : Nat)) = 0 := by
    rw [u32_self (x := m.ww) (by omega) (by omega)]
    simp [u32]
  have h0 : ¬ (0 : Int) ≠ 0 := by decide
  have h1 : ((1 : Nat) : Int) ≠ 0 := by decide
  unfold cellBare
  dsimp only
  rw [if_neg hlast, if_pos hfirst, if_neg h0, if_pos h1, hrest]
  rfl

/-! ## When there is room -/

/-- `grid` has the rows that it starts from, and the columns, or without gaps the only
column. -/
structure HasRoom (m : Monitor) (n : Nat) : Prop where
  rows : (gridRows n : Int) ≤ maxrows m
  cols : (gridCols n : Int) ≤ maxcols m ∨ m.drawwithgaps = false ∧ gridCols n = 1 ∧ 0 < m.ww

/-- A layout gives every client its cell. -/
theorem LaysOut.places {cell : Nat → Rect} (h : LaysOut m n cell) : Places m n cell :=
  ⟨h.cells, h.handed, h.inside⟩

theorem HasRoom.places (hm : m.InRange) (hcount : NoWrap n) (hn : 1 ≤ n) (h : HasRoom m n) :
    ∃ cell, Places m n cell := by
  by_cases hcols : (gridCols n : Int) ≤ maxcols m
  · obtain ⟨cell, hcell⟩ := (grid_lays_out hm hcount hn h.rows hcols).2.2
    exact ⟨cell, hcell.places⟩
  · -- no column is left, but the cells are those of one column
    obtain ⟨hdraw, hone, hw⟩ := h.cols.resolve_left hcols
    have hpos := gridRows_pos hn
    have hrows : gridRows n ≤ 65535 := (gridRows_least n).2 hcount
    have henough : n ≤ gridRows n * gridCols n := (gridCols_least hn).1
    have hgap : m.gap = 0 := by
      rw [Monitor.gap, hdraw]
      rfl
    obtain ⟨hR, hh⟩ := limitedRows_spec hm hn h.rows
    have hzero : limitedCols m n = 0 := by
      have hlimit : u32 (maxcols m) = maxcols m :=
        limit_nonneg (by decide) hm.gap_nonneg hw hm.width.2
      have hnonneg := u32_nonneg (maxcols m)
      rw [limitedCols, hlimit]
      omega
    have hlayout := exists_layout hm hn hcount (fun k hk => ?_) hh (by rw [hgap, hone]; omega)
    · obtain ⟨cell, hcell⟩ := hlayout
      exact ⟨cell, hcell.places⟩
    · have hk' : k ≤ gridRows n := by
        rw [hone, Nat.mul_one] at henough
        omega
      rw [gridCell, hR, hzero, cellOf, cellOf, hdraw, hone]
      exact cellBare_lone hm hw hpos (by omega) hk'

/-- With room for the rows and columns that are left, these are enough. -/
theorem Places.enough {cell : Nat → Rect} (h : Places m n cell) (hm : m.InRange)
    (hcount : NoWrap n) (hn : 1 ≤ n) (hR : 0 < R) (hC : 0 < C) (hRle : R ≤ gridRows n)
    (hCle : C ≤ gridCols n) (hrows : limitedRows m n = R) (hcols : limitedCols m n = C)
    (hh : R + m.gap * (R + 1) ≤ m.wh) (hw : C + m.gap * (C + 1) ≤ m.ww) : n ≤ R * C := by
  by_contra hlt
  have hRC : R * C < 4294967296 := calc
    R * C ≤ gridRows n * gridCols n := Nat.mul_le_mul hRle hCle
    _ < 4294967296 := counts_lt hn hcount
  have hcell := h.cells (R * C) (by omega)
  rw [gridCell, hrows, hcols] at hcell
  exact cell_behind hm hR hC hRC hh hw hcell (h.inside (R * C) (by omega))

/-- Without a column and without gaps, the rows alone are enough. -/
theorem Places.enough_lone {cell : Nat → Rect} (h : Places m n cell) (hm : m.InRange)
    (hcount : NoWrap n) (hdraw : m.drawwithgaps = false) (hR : 0 < R)
    (hRle : R ≤ gridRows n) (hrows : limitedRows m n = R) (hcols : limitedCols m n = (0 : Nat))
    (hh : R + m.gap * (R + 1) ≤ m.wh) (hw : 0 < m.ww) : n ≤ R * 1 := by
  by_contra hlt
  rw [Nat.mul_one] at hlt
  have hR' : gridRows n ≤ 65535 := (gridRows_least n).2 hcount
  have hgap : m.gap = 0 := by
    rw [Monitor.gap, hdraw]
    rfl
  have hcell := h.cells R (by omega)
  have heq : gridCell m n R = cellOf m R (1 : Nat) (R * 1) := by
    rw [gridCell, hrows, hcols, cellOf, cellOf, hdraw, Nat.mul_one]
    exact cellBare_lone hm hw hR (by omega) (Nat.le_refl R)
  rw [heq] at hcell
  exact cell_behind hm hR Nat.one_pos (by omega) hh (by rw [hgap]; omega) hcell
    (h.inside R (by omega))

/-- A monitor that has no room for a column is narrow. -/
theorem narrow_of_limitedCols (hm : m.InRange) (hn : 1 ≤ n) (hw : 0 < m.ww)
    (hcols : limitedCols m n = (0 : Nat)) : m.ww < 1000 := by
  have hpos := gridCols_pos hn
  have hgap := hm.gap_bounds
  have hmax : maxgappx = 50 := rfl
  have hcell : mincellw = 200 := rfl
  have hlimit : u32 (maxcols m) = maxcols m :=
    limit_nonneg (by decide) hm.gap_nonneg hw hm.width.2
  rw [limitedCols, hlimit] at hcols
  have hzero : maxcols m = 0 := by omega
  by_contra hwide
  rw [maxcols, if_pos (by omega), Int.tdiv_eq_ediv_of_nonneg (by omega)] at hzero
  have hone : 1 ≤ (m.ww - m.gap) / (mincellw + m.gap) :=
    Int.le_ediv_of_mul_le (by omega) (by omega)
  omega

theorem Places.hasRoom {cell : Nat → Rect} (h : Places m n cell) (hm : m.InRange)
    (hcount : NoWrap n) (hn : 1 ≤ n) : HasRoom m n := by
  have hfirst := h.inside 0 hn
  obtain ⟨⟨hw0, hh0⟩, ⟨hx, hx'⟩, hy, hy'⟩ := inside_iff.mp hfirst
  have hw : 0 < m.ww := by omega
  have hh : 0 < m.wh := by omega
  have hne := rows_ne_zero (h.cells 0 hn)
  obtain ⟨R, hR⟩ := Int.eq_ofNat_of_zero_le (a := limitedRows m n)
    (le_min (Int.natCast_nonneg _) (u32_nonneg _))
  obtain ⟨C, hC⟩ := Int.eq_ofNat_of_zero_le (a := limitedCols m n)
    (le_min (Int.natCast_nonneg _) (u32_nonneg _))
  have hRpos : 0 < R := by omega
  obtain ⟨hRle, hRmax, hhroom⟩ := limited_room (by decide) hm.gap_nonneg hh hm.height.2 hRpos hR
  rcases Nat.eq_zero_or_pos C with rfl | hCpos
  · by_cases hdraw : m.drawwithgaps = true
    · have hcell := h.cells 0 hn
      rw [gridCell, hR, hC] at hcell
      have hnarrow := narrow_of_limitedCols hm hn hw hC
      exact absurd hfirst (cell_without_column hm hdraw (by omega) hw hnarrow hcell)
    · rw [Bool.not_eq_true] at hdraw
      have hone := h.enough_lone hm hcount hdraw hRpos (by omega) hR hC hhroom hw
      obtain ⟨rfl, hcols⟩ := counts_eq hn (by omega) (gridCols_pos hn) hone
      exact ⟨hRmax, Or.inr ⟨hdraw, hcols.symm, hw⟩⟩
  · obtain ⟨hCle, hCmax, hwroom⟩ := limited_room (by decide) hm.gap_nonneg hw hm.width.2 hCpos hC
    obtain ⟨rfl, rfl⟩ := counts_eq hn (by omega) (by omega)
      (h.enough hm hcount hn hRpos hCpos (by omega) (by omega) hR hC hhroom hwroom)
    exact ⟨hRmax, Or.inl hCmax⟩

/-- **When `grid` keeps to the window area.**  It does so exactly if it has room for
the rows and columns that it starts from; a count that is cut down leaves clients
outside or divides by zero. -/
theorem grid_places_iff (hm : m.InRange) (hcount : NoWrap n) (hn : 1 ≤ n) :
    (∃ cell, Places m n cell) ↔ HasRoom m n :=
  ⟨fun ⟨_, hcell⟩ => hcell.hasRoom hm hcount hn, fun h => h.places hm hcount hn⟩

/-- A monitor of 1000 by 780 pixels. -/
def wideMonitor : Monitor := { createmon with wx := 0, wy := 20, ww := 1000, wh := 780 }

/-- There is room for 20 clients. -/
theorem grid_places_twenty : ∃ cell, Places wideMonitor 20 cell := by
  have hm : wideMonitor.InRange := by
    constructor <;> decide
  exact (grid_places_iff hm (by decide) (by decide)).mpr ⟨by decide, by decide⟩

/-- On a monitor of 110 pixels in height, the row count is cut down to zero. -/
theorem grid_divides_by_zero : ¬ ∀ m n, Monitor.InRange m → 1 ≤ n → 0 < m.ww → 0 < m.wh →
    ∃ cell, Places m n cell := by
  intro h
  have hm : { wideMonitor with wh := 110 }.InRange := by
    constructor <;> decide
  obtain ⟨cell, hcell⟩ := h _ 1 hm (by decide) (by decide) (by decide)
  have hnone : gridCell { wideMonitor with wh := 110 } 1 0 = none := by decide
  rw [hcell.cells 0 (by decide)] at hnone
  cases hnone

end Dwm
