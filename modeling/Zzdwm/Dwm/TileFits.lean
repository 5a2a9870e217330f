import Zzdwm.Dwm.TileRoom
import Zzdwm.Dwm.Events

/-!
# When the tile layout fits

The loops of `tile` with gaps and without differ in the gap only, as long as there is
room for the masters.

* `Setting.slotsBare_eq` — the loop without gaps is the other one with a gap of zero;
* `TileRoom` — the room that the slots need;
* `slots_fit` — the slots of `tile`, if there is room.
-/

namespace Dwm

open Boxes

variable {s : State} {M m : Monitor} {c d : ClientId} {g : Geoms} {i : MonId} {r ms : Rect}
  {gap n maxn mw j ty my : Int}

/-! ## Without gaps -/

/-- Behind the masters, `my` is not read any more. -/
theorem slotsGaps_my (cs : List ClientId) (hj : m.nmaster ≤ j) (my' : Int) :
    slotsGaps s m n maxn mw j cs my ty ms g = slotsGaps s m n maxn mw j cs my' ty ms g := by
  induction cs generalizing j ty g with
  | nil => rfl
  | cons c rest ih =>
      have hnext : m.nmaster ≤ j + 1 := by omega
      rw [slotsGaps_stack hj, slotsGaps_stack hj]
      split_ifs
      · rw [ih hnext]
      · dsimp only
        rw [ih hnext]
      · dsimp only
        rw [ih hnext]

/-- The second column without gaps. -/
theorem slotsBare_stack (cs : List ClientId) (hj : M.nmaster ≤ j) :
    slotsBare s M n maxn mw j cs my ty ms g =
      slotsGaps s (M.withGap 0) n maxn mw j cs my ty ms g := by
  induction cs generalizing j ty g with
  | nil => rfl
  | cons c rest ih =>
      have hnext : M.nmaster ≤ j + 1 := by omega
      rw [slotsBare, slotsGaps]
      simp only [Monitor.withGap, Int.add_zero, Int.sub_zero, Int.mul_zero]
      rw [if_neg (Int.not_lt.mpr hj), if_neg (Int.not_lt.mpr hj)]
      have ih' := fun t g => @ih g _ t hnext
      unfold Monitor.withGap at ih'
      simp only [ih']

/-- One round in the master area without gaps. -/
theorem slotsBare_master {rest : List ClientId} (hj : j < M.nmaster) :
    slotsBare s M n maxn mw j (c :: rest) my ty ms g =
      let r := masterRect (M.withGap 0) mw my (masterHeight (M.withGap 0) n j my) (g c).bw
      let g' := resize s c r.signed false g
      slotOf s g c r.signed true ::
        slotsBare s M n maxn mw (j + 1) rest (my + (g' c).height) ty r g' := by
  rw [slotsBare]
  simp only [masterRect, masterHeight, Monitor.withGap, Int.add_zero, Int.sub_zero]
  rw [if_pos hj]

/-- **Without gaps**, with room for the masters. -/
theorem Setting.slotsBare_eq (h : Setting s i 0 n maxn mw) (cs : List ClientId)
    (hc : Waiting s i cs g) (hj0 : 0 ≤ j) (hlen : j + cs.length = n)
    (hroom : j < (s.monitor i).nmaster → MasterRoom s (s.monitor i) 0 n mw j my) :
    slotsBare s (s.monitor i) n maxn mw j cs my ty ms g =
      slotsGaps s ((s.monitor i).withGap 0) n maxn mw j cs my ty ms g := by
  induction cs generalizing j my ms g with
  | nil => rfl
  | cons c rest ih =>
      have hlen' : j + 1 + rest.length = n := by
        rw [List.length_cons] at hlen
        omega
      by_cases hj : j < (s.monitor i).nmaster
      · obtain ⟨hslot, -, hnext⟩ := h.master_slot hc hj0 hj hlen (hroom hj) rfl
        rw [slotsBare_master hj,
          slotsGaps_master (show j < ((s.monitor i).withGap 0).nmaster from hj)]
        dsimp only
        generalize masterRect ((s.monitor i).withGap 0) mw my
          (masterHeight ((s.monitor i).withGap 0) n j my) (g c).bw = r at *
        congr 1
        by_cases hmore : j + 1 < (s.monitor i).nmaster
        · cases rest with
          | nil => rfl
          | cons d rest =>
              obtain ⟨my', hmy', hroom', hbelow⟩ := hnext (List.cons_ne_nil d rest) hmore
              have htop := hslot.at_.top
              have hpos := hslot.at_.pos
              rw [Int.add_zero] at hmy'
              -- the next master does not begin where this one does
              have hless : my + (resize s c r.signed false g c).height < (s.monitor i).wh := by
                by_contra hnot
                rw [if_neg hnot] at hmy'
                omega
              rw [if_pos hless] at hmy'
              have hround : (if my + (resize s c r.signed false g c).height +
                  ((s.monitor i).withGap 0).gappx < ((s.monitor i).withGap 0).wh
                  then my + (resize s c r.signed false g c).height + ((s.monitor i).withGap 0).gappx
                  else my) = my' := by
                change (if my + (resize s c r.signed false g c).height + 0 < (s.monitor i).wh
                  then my + (resize s c r.signed false g c).height + 0 else my) = my'
                rw [Int.add_zero, if_pos hless, hmy']
              rw [hround, hmy']
              exact ih (hc.next (r := r.signed)) (by omega) hlen' fun _ => hroom'
        · rw [slotsBare_stack rest (Int.not_lt.mp hmore)]
          exact slotsGaps_my (m := (s.monitor i).withGap 0) rest (Int.not_lt.mp hmore) _
      · exact slotsBare_stack _ (Int.not_lt.mp hj)

/-! ## The room -/

/-- What dwm keeps of a monitor that it tiles, its clients and their borders. -/
@[mk_iff]
structure Admitted (s : State) (i : MonId) (g : Geoms) : Prop where
  range : (s.monitor i).InRange
  screen : 0 ≤ (s.monitor i).mh ∧ (s.monitor i).mh ≤ 65535
  masters : 0 ≤ (s.monitor i).nmaster ∧ (s.monitor i).nmaster ≤ nmaxmaster
  mfact : 1 / 20 ≤ (s.monitor i).mfact ∧ (s.monitor i).mfact ≤ 19 / 20
  smfact : 0 ≤ (s.monitor i).smfact ∧ (s.monitor i).smfact ≤ 9 / 10
  font : 0 < s.bh
  layout : (s.monitor i).layout = .tile
  clients : Waiting s i (s.tiled i) g
  nodup : (s.tiled i).Nodup

/-- The room that the slots of `n` clients need: the masters in the height, both
columns in the width, the band beside the gap, and with no master a corner for the
clients without a slot. -/
@[mk_iff]
structure TileRoom (s : State) (m : Monitor) (n : Int) : Prop where
  masters : min n m.nmaster * (least s + m.gap) ≤ m.wh
  width : 0 < m.nmaster → m.gap + least s ≤ m.ww
  column : HasColumn s m m.gap n (maxTiled s m) →
    (0 < m.nmaster → least s ≤ masterWidth m n) ∧ masterWidth m n + m.gap + least s ≤ m.ww
  band : m.nmaster + 2 ≤ n → m.nmaster + 2 ≤ maxTiled s m → m.band + m.gap ≤ m.wh
  corner : m.nmaster = 0 → Crowded s m m.gap n (maxTiled s m) → InCorner s m

instance : Decidable (Admitted s i g) := decidable_of_iff' _ (admitted_iff s i g)

instance : Decidable (TileRoom s m n) := decidable_of_iff' _ (tileRoom_iff s m n)

theorem tdiv_le {a b : Int} (hb : 0 < b) : a.tdiv b ≤ max a 0 ∧ (1 ≤ a.tdiv b → b ≤ a) := by
  rcases Int.le_total 0 a with hpos | hneg
  · rw [Int.tdiv_eq_ediv_of_nonneg hpos]
    have hle : a / b ≤ a := Int.ediv_le_self b hpos
    refine ⟨by omega, fun h => ?_⟩
    have := (Int.le_ediv_iff_mul_le hb).mp h
    omega
  · have := tdiv_nonpos hneg (Int.le_of_lt hb)
    exact ⟨by omega, fun h => by omega⟩

/-- So many slots of the least height have room. -/
theorem maxTiled_spec (h : Admitted s i g) :
    maxTiled s (s.monitor i) < 4294967296 ∧
      ((s.monitor i).nmaster < maxTiled s (s.monitor i) →
        (s.monitor i).gap + ((s.monitor i).gap + minwsz s) ≤ (s.monitor i).wh) := by
  have hmin := minwsz_eq s
  have hfont := h.font
  have hheight := h.range.height
  have hgap := h.range.gap
  have hmasters := h.masters
  have hmax : nmaxmaster = 4 := rfl
  have hmaxgap : maxgappx = 50 := rfl
  unfold maxTiled Monitor.gap
  split_ifs with hdraw hroom
  · have hdiv := tdiv_le (a := (s.monitor i).wh - (s.monitor i).gappx) hroom.2
    exact ⟨by omega, fun hlt => by have := hdiv.2 (by omega); omega⟩
  · exact ⟨by omega, fun hlt => by omega⟩
  · have hdiv := tdiv_le (a := (s.monitor i).wh) (b := minwsz s) (by omega)
    exact ⟨by omega, fun hlt => by have := hdiv.2 (by omega); omega⟩
  · exact ⟨by omega, fun hlt => by omega⟩

theorem band_bounds (h : Admitted s i g) :
    0 ≤ (s.monitor i).band ∧ (s.monitor i).band ≤ (s.monitor i).mh := by
  have hmh : (0 : Rat) ≤ (s.monitor i).mh := by exact_mod_cast h.screen.1
  refine trunc_bounds (mul_nonneg hmh h.smfact.1) ?_
  exact mul_le_of_le_one_right hmh (h.smfact.2.trans (by norm_num))

/-- The setting of the loops. -/
theorem Admitted.setting (h : Admitted s i g)
    (hroom : TileRoom s (s.monitor i) (s.tiled i).length) :
    Setting s i (s.monitor i).gap (s.tiled i).length (maxTiled s (s.monitor i))
      (masterWidth (s.monitor i) (s.tiled i).length) where
  range := h.range
  font := h.font
  masters := h.masters.1
  band := ⟨(band_bounds h).1, (band_bounds h).2.trans h.screen.2⟩
  layout := by
    rw [h.layout]
    decide
  clients := rfl
  gaps := h.range.gap_bounds
  limit := (maxTiled_spec h).1
  tall := (maxTiled_spec h).2
  wide := u32_nonneg _
  wrap := hroom.band
  column := hroom.column

/-- **Either way of drawing**, the slots are those of the loop with gaps. -/
theorem tileSlots_eq (h : Admitted s i g)
    (hroom : TileRoom s (s.monitor i) (s.tiled i).length)
    (harea : 0 < (s.monitor i).nmaster →
      masterWidth (s.monitor i) (s.tiled i).length ≤ (s.monitor i).ww) :
    tileSlots s i g = slotsGaps s ((s.monitor i).withGap (s.monitor i).gap) (s.tiled i).length
      (maxTiled s (s.monitor i)) (masterWidth (s.monitor i) (s.tiled i).length) 0 (s.tiled i)
      (s.monitor i).gap (s.monitor i).gap ⟨0, 0, 0, 0⟩ g := by
  have hgap := h.range.gap
  have hmax : maxgappx = 50 := rfl
  unfold tileSlots
  dsimp only
  by_cases hdraw : (s.monitor i).drawwithgaps = true
  · have heq : (s.monitor i).gap = (s.monitor i).gappx := if_pos hdraw
    rw [if_pos hdraw, u32_self (by omega) (by omega), heq]
    rfl
  · have heq : (s.monitor i).gap = 0 := if_neg hdraw
    have hset := h.setting hroom
    rw [heq] at hset
    have hmasters := hroom.masters
    have hwidth := hroom.width
    rw [heq] at hmasters hwidth
    rw [if_neg hdraw, heq]
    refine hset.slotsBare_eq _ h.clients (Int.le_refl 0) (Int.zero_add _) fun hpos => ?_
    exact ⟨Int.le_refl 0, by rw [Int.sub_zero]; omega, hwidth hpos, harea hpos⟩

/-- The master area is no wider than the window area. -/
theorem masterWidth_le (h : Admitted s i g) {n : Int} (hpos : 0 < (s.monitor i).nmaster)
    (hwidth : (s.monitor i).gap + least s ≤ (s.monitor i).ww) :
    masterWidth (s.monitor i) n ≤ (s.monitor i).ww := by
  have hleast : least s = s.bh + 2 := rfl
  have hfont := h.font
  have hgap := h.range.gap_bounds
  have hw := h.range.width
  unfold masterWidth
  split_ifs with hmore hmasters hdraw
  · have hww : (0 : Rat) ≤ (s.monitor i).ww := by
      have : 0 ≤ (s.monitor i).ww := by omega
      exact_mod_cast this
    have hmf : 0 ≤ (s.monitor i).mfact := le_trans (by norm_num) h.mfact.1
    have hle : (s.monitor i).mfact ≤ 1 := h.mfact.2.trans (by norm_num)
    have htrunc := trunc_bounds (mul_nonneg hww hmf) (mul_le_of_le_one_right hww hle)
    rw [u32_self htrunc.1 (by omega)]
    exact htrunc.2
  · omega
  · have heq : (s.monitor i).gap = (s.monitor i).gappx := if_pos hdraw
    rw [u32_self (by omega) (by omega)]
    omega
  · rw [u32_self (by omega) (by omega)]

/-- The slots with masters. -/
theorem Admitted.with_masters (h : Admitted s i g)
    (hroom : TileRoom s (s.monitor i) (s.tiled i).length) (hpos : 0 < (s.monitor i).nmaster) :
    (∀ p ∈ tileSlots s i g, Within s i p) ∧ (tileSlots s i g).Pairwise Apart := by
  have hset := h.setting hroom
  have hgap := h.range.gap_nonneg
  have hwidth := hroom.width hpos
  have hmasters := hroom.masters
  have harea := masterWidth_le h (n := (s.tiled i).length) hpos hwidth
  rw [tileSlots_eq h hroom fun _ => harea]
  obtain ⟨hall, hpair⟩ := hset.master_slots ⟨0, 0, 0, 0⟩ (s.tiled i) h.clients
    (Int.le_refl 0) hpos (Int.zero_add _)
    ⟨Int.le_refl (s.monitor i).gap, by rw [Int.sub_zero]; omega, hwidth, harea⟩
    ⟨Int.le_refl _, Or.inl rfl⟩
  refine ⟨fun p hp => ?_, hpair⟩
  rcases hall p hp with hwithin | hmaster | hstack
  · exact hwithin.2
  · exact hset.master_within hgap hwidth harea hmaster
  · exact hset.stack_within hgap hstack

/-- The slots without a master: in the corner, or each client has its own. -/
theorem Admitted.without_masters (h : Admitted s i g)
    (hroom : TileRoom s (s.monitor i) (s.tiled i).length) (hzero : (s.monitor i).nmaster = 0)
    (hne : s.tiled i ≠ []) :
    (∀ p ∈ tileSlots s i g, Within s i p) ∧ (tileSlots s i g).Pairwise Apart := by
  have hset := h.setting hroom
  have hgap := h.range.gap_nonneg
  have hbegins : Begins (s.monitor i) (s.monitor i).gap (s.monitor i).gap :=
    ⟨Int.le_refl _, Or.inl rfl⟩
  rw [tileSlots_eq h hroom fun hpos => by omega]
  obtain ⟨hall, hpair⟩ := hset.stack_slots (s.monitor i).gap ⟨0, 0, 0, 0⟩
    (s.tiled i) h.clients (Int.le_of_eq hzero) (Int.zero_add _) hbegins
  refine ⟨fun p hp => ?_, hpair⟩
  rcases hall p hp with hstacked | hstack
  · by_cases hcrowd : Crowded s (s.monitor i) (s.monitor i).gap (s.tiled i).length
        (maxTiled s (s.monitor i))
    · exact (hroom.corner hzero hcrowd).within h.font hstacked
    · -- every client has its own slot
      obtain ⟨hmax, hplenty⟩ := not_or.mp hcrowd
      have hlen : 0 < (s.tiled i).length := List.length_pos_of_ne_nil hne
      have hlimit := (maxTiled_spec h).2
      have hown := hset.all_own (s.monitor i).gap ⟨0, 0, 0, 0⟩ (s.tiled i)
        h.clients (Int.le_of_eq hzero) (Int.zero_add _) (by omega) hbegins ⟨fun hone => ?_,
          fun htwo => ?_⟩ p hp
      · rw [hstacked.own] at hown
        cases hown
      · have := hlimit (by omega)
        omega
      · have hpart : minwsz s ≤ ((s.monitor i).wh - (s.monitor i).band - (s.monitor i).gap) /
            (s.tiled i).length - (s.monitor i).gap := by
          by_contra hless
          exact hplenty ⟨by omega, by omega⟩
        have hmul := (Int.le_ediv_iff_mul_le (a := minwsz s + (s.monitor i).gap)
          (b := (s.monitor i).wh - (s.monitor i).band - (s.monitor i).gap)
          (c := ((s.tiled i).length : Int)) (by omega)).mp (by omega)
        rw [Int.sub_zero, Int.mul_comm]
        exact hmul
  · exact hset.stack_within hgap hstack

/-- Every tiled client of an admitted monitor is placed. -/
theorem Admitted.placed (h : Admitted s i g) :
    ∀ c ∈ s.tiled i, ∃ p ∈ tileSlots s i g, p.client = c ∧ PlacedIn s i (tile s i g c) p := by
  refine tile_placed h.nodup (fun c hc => (h.clients c hc).1) ?_
  rw [h.layout]
  decide

/-- The arranging layout of `keys[]`, with one window. -/
def tiledStart : List Event := [.press .setlayout (.v .tile), .maprequest 0 10 plainWindow]

/-- The geometry of every window before it is placed. -/
def plainGeoms : Geoms := fun _ => { Geom.zero with w := 300, h := 200, bw := borderpx }

/-- A low screen. -/
def lowScreen : Display :=
  { oneScreen with sh := 150, layouts := ⟨some [⟨0, 0, 1000, 150⟩], some (5, 5)⟩ }

end Dwm
