import Mathlib
import Zzdwm.Dwm.TileSlots

/-!
# Room for the tile layout

The masters share the height of the window area, each taking its part of what is
left; so do the clients of the second column, which leaves out a band for the last
one.

* `share_room`, `stack_share` — one part of what is left;
* `stack_slots`, `master_slots` — the slots of a column, from some client on;
* `slots_fit` — the slots of `tile`, if there is room.
-/

namespace Dwm

open Boxes

variable {s : State} {M m : Monitor} {c d : ClientId} {g : Geoms} {i : MonId} {r : Rect}

/-! ## Numbers -/

/-- The conversion of a number between zero and an integer. -/
theorem trunc_bounds {q : Rat} {z : Int} (h : 0 ≤ q) (h' : q ≤ z) : 0 ≤ trunc q ∧ trunc q ≤ z := by
  have hfloor : trunc q = ⌊q⌋ := by
    rw [trunc, Int.tdiv_eq_ediv_of_nonneg (Rat.num_nonneg.mpr h), Rat.floor_def']
  rw [hfloor]
  refine ⟨Int.floor_nonneg.mpr h, ?_⟩
  exact_mod_cast (Int.floor_le q).trans h'

theorem minwsz_eq (s : State) : minwsz s = 2 * s.bh + 8 := by
  have hcast : (s.bh : Rat) * minwfact + vertgappx * 2 = ((2 * s.bh + 8 : Int) : Rat) := by
    have hfact : minwfact = 2 := rfl
    have hgap : (vertgappx : Rat) = 4 := rfl
    rw [hfact, hgap]
    push_cast
    ring
  rw [minwsz, hcast, trunc]
  exact Int.tdiv_one _

theorem i32_u32 (x : Int) : i32 (u32 x) = i32 x := Int.emod_bmod x 4294967296

/-- **A part of the height that is left**, at least `b`, when there is room for `k` of
them. -/
theorem share_room {k b gap : Int} (my wh : Int) (hk : 1 ≤ k) (hb : 0 < b) (hgap : 0 ≤ gap)
    (hroom : my + k * (b + gap) ≤ wh + gap) :
    my < wh ∧ (-gap ≤ (wh - my).tdiv k - gap ∧ (wh - my).tdiv k - gap ≤ wh - my) ∧
      my + max b ((wh - my).tdiv k - gap) ≤ wh ∧
      (2 ≤ k → my + max b ((wh - my).tdiv k - gap) + gap < wh ∧
        my + max b ((wh - my).tdiv k - gap) + gap + (k - 1) * (b + gap) ≤ wh + gap) := by
  have hone : 1 * (b + gap) ≤ k * (b + gap) := Int.mul_le_mul_of_nonneg_right hk (by omega)
  have hsplit : k * (b + gap) = (k - 1) * (b + gap) + (b + gap) := by ring
  have hpos : 0 ≤ wh - my := by omega
  rw [Int.tdiv_eq_ediv_of_nonneg hpos]
  have hq : 0 ≤ (wh - my) / k := Int.ediv_nonneg hpos (by omega)
  have hle : (wh - my) / k ≤ wh - my := Int.ediv_le_self k hpos
  have hall : (wh - my) / k * k ≤ wh - my := Int.ediv_mul_le _ (by omega)
  generalize (wh - my) / k = q at *
  refine ⟨by omega, by omega, by omega, fun hk2 => ?_⟩
  have htwo : 1 * (b + gap) ≤ (k - 1) * (b + gap) :=
    Int.mul_le_mul_of_nonneg_right (by omega) (by omega)
  rcases Int.le_total (q - gap) b with hsmall | hlarge
  · rw [max_eq_left hsmall]
    omega
  · -- what is left is enough for as many parts as this one
    rw [max_eq_right hlarge]
    have hrest : (k - 1) * (b + gap) ≤ (k - 1) * q :=
      Int.mul_le_mul_of_nonneg_left (by omega) (by omega)
    have hsum : q * k = (k - 1) * q + q := by ring
    omega

/-- **A part of the room that is left** in the second column. -/
theorem stack_share {d room gap : Int} (hd : 1 ≤ d) (hd' : d < 4294967296) (hgap : 0 ≤ gap)
    (hgap' : gap ≤ maxgappx) (hroom : 0 ≤ room ∨ d = 1) (hlo : -2147483000 < room)
    (hhi : room < 2147483648) :
    i32 (u32 room / u32 d - gap) = room / d - gap := by
  have hmax : maxgappx = 50 := rfl
  rw [u32_self (x := d) (by omega) hd']
  by_cases hpos : 0 ≤ room
  · have hq : 0 ≤ room / d := Int.ediv_nonneg hpos (by omega)
    have hle : room / d ≤ room := Int.ediv_le_self d hpos
    rw [u32_self hpos (by omega), i32_self (by omega) (by omega)]
  · -- the room wraps, but nothing is divided
    obtain rfl : d = 1 := by omega
    have hwrap : u32 room = room + 4294967296 := by
      unfold u32
      omega
    have hback : room + 4294967296 - gap = room - gap + 4294967296 := by ring
    rw [hwrap, Int.ediv_one, Int.ediv_one, hback, i32_wrap, i32_self (by omega) (by omega)]

/-! ## The setting -/

/-- The least height and width that a tiled client takes up. -/
def least (s : State) : Int := s.bh + 2 * borderpx

/-- `smh` of `tile`: the height that is kept for the last client. -/
def Monitor.band (m : Monitor) : Int := trunc (m.mh * m.smfact)

/-- Some client gets a slot in the second column. -/
def HasColumn (s : State) (m : Monitor) (gap n maxn : Int) : Prop :=
  m.nmaster < n ∧ m.nmaster < maxn ∧ (n ≤ maxn ∨ minwsz s + 2 * gap + m.band ≤ m.wh)

instance {gap n maxn : Int} : Decidable (HasColumn s m gap n maxn) :=
  inferInstanceAs (Decidable (_ ∧ _))

/-- What `tile` starts from, with `n` clients on monitor `i` and this gap. -/
structure Setting (s : State) (i : MonId) (gap n maxn mw : Int) : Prop where
  range : (s.monitor i).InRange
  font : 0 < s.bh
  masters : 0 ≤ (s.monitor i).nmaster
  band : 0 ≤ (s.monitor i).band ∧ (s.monitor i).band ≤ 65535
  layout : (s.monitor i).layout ≠ .monocle
  clients : ((s.tiled i).length : Int) = n
  gaps : 0 ≤ gap ∧ gap ≤ maxgappx
  limit : maxn < 4294967296
  tall : (s.monitor i).nmaster < maxn → gap + (gap + minwsz s) ≤ (s.monitor i).wh
  wide : 0 ≤ mw
  wrap : (s.monitor i).nmaster + 2 ≤ n → (s.monitor i).nmaster + 2 ≤ maxn →
    (s.monitor i).band + gap ≤ (s.monitor i).wh
  column : HasColumn s (s.monitor i) gap n maxn →
    (0 < (s.monitor i).nmaster → least s ≤ mw) ∧ mw + gap + least s ≤ (s.monitor i).ww

variable {gap n maxn mw : Int}

/-! ## The second column -/

/-- What is left of the height for the client number `j` of the second column and
those after it. -/
def leftOver (m : Monitor) (ty : Int) (last : Bool) : Int :=
  if last then m.wh - ty else m.wh - m.band - ty

/-- Where the next slot of the second column may begin. -/
def Begins (m : Monitor) (gap ty : Int) : Prop := gap ≤ ty ∧ (ty = gap ∨ ty + m.band ≤ m.wh)

/-- The monitor, with another gap. -/
def Monitor.withGap (m : Monitor) (gap : Int) : Monitor := { m with gappx := gap }

/-- `h` of `tile` in the second column. -/
def stackHeight (m : Monitor) (n maxn j ty : Int) (last : Bool) : Int :=
  i32 ((if last then u32 (m.wh - ty) else u32 (m.wh - u32 m.band - ty)) / u32 (min n maxn - j) -
    m.gappx)

/-- The rectangle that `tile` passes on there. -/
def stackRect (m : Monitor) (mw ty k bw : Int) : Rect :=
  ⟨i32 (m.wx + mw + m.gappx), i32 (m.wy + ty), i32 (m.ww - mw - 2 * bw - 2 * m.gappx), k - 2 * bw⟩

variable {j ty my : Int} {ms : Rect} {last : Bool}

/-- One round of `tile` in the second column. -/
theorem slotsGaps_stack {rest : List ClientId} (hj : m.nmaster ≤ j) :
    slotsGaps s m n maxn mw j (c :: rest) my ty ms g =
      if maxn ≤ j ∨ stackHeight m n maxn j ty rest.isEmpty < minwsz s ∨
          stackHeight m n maxn j ty rest.isEmpty < 2 * (g c).bw then
        slotOf s g c ms.signed false ::
          slotsGaps s m n maxn mw (j + 1) rest my ty ms (resize s c ms.signed false g)
      else
        let r := stackRect m mw ty (stackHeight m n maxn j ty rest.isEmpty) (g c).bw
        let ty' := if rest.isEmpty then u32 (ty + (resize s c r false g c).height + u32 m.band + m.gappx)
          else u32 (ty + (resize s c r false g c).height + m.gappx)
        slotOf s g c r true :: slotsGaps s m n maxn mw (j + 1) rest my ty' ms (resize s c r false g) := by
  rw [slotsGaps]
  dsimp only
  rw [if_neg (Int.not_lt.mpr hj)]
  by_cases hmax : maxn ≤ j
  · rw [if_pos hmax, if_pos (Or.inl hmax)]
  · rw [if_neg hmax]
    simp only [hmax, false_or]
    rfl

/-- **The height of a slot** in the second column. -/
theorem Setting.height_eq (h : Setting s i gap n maxn mw) (hj : (s.monitor i).nmaster ≤ j)
    (hmax : j < maxn) (hlast : last = true → j + 1 = n) (hnext : last = false → j + 2 ≤ n)
    (hty : Begins (s.monitor i) gap ty) :
    stackHeight ((s.monitor i).withGap gap) n maxn j ty last =
      leftOver (s.monitor i) ty last / (min n maxn - j) - gap := by
  change i32 ((if last then u32 ((s.monitor i).wh - ty)
    else u32 ((s.monitor i).wh - u32 (s.monitor i).band - ty)) / u32 (min n maxn - j) - gap) = _
  have htall := h.tall (by omega)
  have hmin := minwsz_eq s
  have hfont := h.font
  have hband := h.band
  have hheight := h.range.height
  have hgap := h.gaps
  have hmasters := h.masters
  have hmaxn := h.limit
  obtain ⟨hle, hty'⟩ := hty
  cases last with
  | true =>
      have hn := hlast rfl
      rw [if_pos rfl, leftOver, if_pos rfl]
      exact stack_share (by omega) (by omega) hgap.1 hgap.2 (by omega) (by omega) (by omega)
  | false =>
      have hn := hnext rfl
      have hwrap := h.wrap (by omega)
      rw [if_neg (by decide), leftOver, if_neg (by decide), u32_self hband.1 (by omega)]
      refine stack_share (by omega) (by omega) hgap.1 hgap.2 ?_ (by omega) (by omega)
      by_cases hone : min n maxn - j = 1
      · exact Or.inr hone
      · left
        have := hwrap (by omega)
        omega

/-- **A slot of its own** in the second column ends in the window area, and leaves a
place where the next one may begin. -/
theorem Setting.own_slot (h : Setting s i gap n maxn mw) (hj : (s.monitor i).nmaster ≤ j)
    (hmax : j < maxn) (hlast : last = true → j + 1 = n) (hnext : last = false → j + 2 ≤ n)
    (hty : Begins (s.monitor i) gap ty)
    (hown : minwsz s ≤ leftOver (s.monitor i) ty last / (min n maxn - j) - gap) :
    HasColumn s (s.monitor i) gap n maxn ∧
      ty + (leftOver (s.monitor i) ty last / (min n maxn - j) - gap) ≤ (s.monitor i).wh ∧
      (last = false → ty + (leftOver (s.monitor i) ty last / (min n maxn - j) - gap) + gap +
        (s.monitor i).band ≤ (s.monitor i).wh) := by
  have htall := h.tall (by omega)
  have hmin := minwsz_eq s
  have hfont := h.font
  have hband := h.band
  have hgap := h.gaps
  obtain ⟨hle, hty'⟩ := hty
  have hd : 1 ≤ min n maxn - j := by
    cases last with
    | true =>
        have := hlast rfl
        omega
    | false =>
        have := hnext rfl
        omega
  have hpos : 0 ≤ leftOver (s.monitor i) ty last := by
    by_contra hneg
    have : leftOver (s.monitor i) ty last / (min n maxn - j) < 0 :=
      Int.ediv_neg_of_neg_of_pos (by omega) (by omega)
    omega
  have hpart : leftOver (s.monitor i) ty last / (min n maxn - j) ≤ leftOver (s.monitor i) ty last :=
    Int.ediv_le_self _ hpos
  generalize leftOver (s.monitor i) ty last / (min n maxn - j) = q at *
  cases last with
  | true =>
      have hn := hlast rfl
      rw [leftOver, if_pos rfl] at hpart
      refine ⟨⟨by omega, by omega, Or.inl (by omega)⟩, by omega, fun hf => by cases hf⟩
  | false =>
      have hn := hnext rfl
      rw [leftOver, if_neg (by decide)] at hpart
      refine ⟨⟨by omega, by omega, Or.inr (by omega)⟩, by omega, fun _ => by omega⟩

/-- A slot of the client's own in the column from `x` on of width `w`, between the
heights `lo` and `hi`. -/
structure InColumn (x w lo hi : Int) (p : Slot) : Prop where
  own : p.own = true
  left : p.frame.x = x
  width : p.frame.w = w
  top : lo ≤ p.frame.y
  bottom : p.frame.y + p.frame.h ≤ hi
  pos : 0 < p.frame.h

theorem InColumn.mono {x w lo lo' hi : Int} {p : Slot} (h : InColumn x w lo hi p) (hle : lo' ≤ lo) :
    InColumn x w lo' hi p :=
  ⟨h.own, h.left, h.width, hle.trans h.top, h.bottom, h.pos⟩

/-- A slot where another one has been. -/
structure StackedOn (s : State) (i : MonId) (ms : Rect) (p : Slot) : Prop where
  own : p.own = false
  rect : p.rect = ms.signed
  frame : ∃ g, (g p.client).bw = borderpx ∧ s.own p.client = i ∧
    p.frame = (hinted s g p.client ms.signed).outer borderpx

/-- A slot of the second column. -/
structure StackSlot (s : State) (i : MonId) (gap n maxn mw lo : Int) (p : Slot) : Prop where
  at_ : InColumn ((s.monitor i).wx + mw + gap)
    (max (least s) ((s.monitor i).ww - mw - 2 * gap)) lo
    ((s.monitor i).wy + (s.monitor i).wh) p
  column : HasColumn s (s.monitor i) gap n maxn
  size : p.rect.w ≤ (s.monitor i).ww ∧ p.rect.h ≤ (s.monitor i).wh

/-- Two slots that are both a client's own do not meet. -/
def Apart (p q : Slot) : Prop := p.own = true → q.own = true → Disjoint p.frame.points q.frame.points

/-- The clients that are still to be placed. -/
def Waiting (s : State) (i : MonId) (cs : List ClientId) (g : Geoms) : Prop :=
  ∀ c ∈ cs, s.own c = i ∧ (g c).bw = borderpx

instance {cs : List ClientId} : Decidable (Waiting s i cs g) :=
  inferInstanceAs (Decidable (∀ c ∈ cs, _))

theorem Waiting.next {cs : List ClientId} (h : Waiting s i (c :: cs) g) :
    Waiting s i cs (resize s c r false g) :=
  fun d hd => ⟨(h d (List.mem_cons_of_mem c hd)).1,
    bw_resize.trans (h d (List.mem_cons_of_mem c hd)).2⟩

theorem slotOf_stackedOn {cs : List ClientId} (h : Waiting s i (c :: cs) g) :
    StackedOn s i ms (slotOf s g c ms.signed false) := by
  obtain ⟨hown, hbw⟩ := h c List.mem_cons_self
  refine ⟨rfl, rfl, g, hbw, hown, ?_⟩
  rw [slotOf, hbw]

/-- What comes out of a rectangle that begins in the window area. -/
theorem Setting.frame_eq (h : Setting s i gap n maxn mw) {cs : List ClientId}
    (hc : Waiting s i (c :: cs) g) {b : Bool} {x y : Int}
    (hx : (s.monitor i).wx ≤ x) (hx' : x < (s.monitor i).wx + (s.monitor i).ww)
    (hy : (s.monitor i).wy ≤ y) (hy' : y < (s.monitor i).wy + (s.monitor i).wh) (w k : Int) :
    (slotOf s g c ⟨x, y, w - 2 * borderpx, k - 2 * borderpx⟩ b).frame =
      ⟨x, y, max (least s) w, max (least s) k⟩ := by
  obtain ⟨hown, hbw⟩ := hc c List.mem_cons_self
  have hborder : borderpx = 1 := rfl
  rw [slotOf]
  dsimp only
  rw [hinted_fit hown (by omega) h.font hx hx' hy hy', hbw, Rect.outer, least]
  dsimp only
  congr 1 <;> omega

/-- The height after `resize`, when another client is tiled. -/
theorem Setting.height_resize (h : Setting s i gap n maxn mw) {cs : List ClientId}
    (hc : Waiting s i (c :: cs) g) (hn : 2 ≤ n) {x y : Int}
    (hx : (s.monitor i).wx ≤ x) (hx' : x < (s.monitor i).wx + (s.monitor i).ww)
    (hy : (s.monitor i).wy ≤ y) (hy' : y < (s.monitor i).wy + (s.monitor i).wh) (w k : Int) :
    (resize s c ⟨x, y, w, k - 2 * borderpx⟩ false g c).height = max (least s) k := by
  obtain ⟨hown, hbw⟩ := hc c List.mem_cons_self
  have hborder : borderpx = 1 := rfl
  have hkeep : s.tiled (s.own c) ≠ [c] := by
    intro hone
    have hclients := h.clients
    rw [hown] at hone
    rw [hone] at hclients
    simp only [List.length_singleton, Nat.cast_one] at hclients
    omega
  have hmon : s.monOf c = s.monitor i := congrArg s.monitor hown
  rw [(rect_resize hkeep (hmon ▸ h.layout)).2,
    hinted_fit hown (by omega) h.font hx hx' hy hy', hbw, least]
  dsimp only
  omega

/-- The last client, and one that is not. -/
theorem isEmpty_last {rest : List ClientId} (hlen : j + (c :: rest).length = n) :
    rest.isEmpty = true → j + 1 = n := by
  intro hnil
  rw [List.isEmpty_iff.mp hnil] at hlen
  simpa using hlen

theorem isEmpty_next {rest : List ClientId} (hlen : j + (c :: rest).length = n) :
    rest.isEmpty = false → j + 2 ≤ n := by
  intro hcons
  have hpos := List.length_pos_of_ne_nil (List.isEmpty_eq_false_iff.mp hcons)
  rw [List.length_cons] at hlen
  omega

/-- A slot that ends before another one begins. -/
theorem apart_of_rows {p q : Slot} (h : p.frame.y + p.frame.h ≤ q.frame.y) :
    Disjoint p.frame.points q.frame.points := by
  refine Set.disjoint_prod.mpr (Or.inr (Set.Ico_disjoint_Ico.mpr ?_))
  omega

/-- A slot whose column ends before that of another one begins. -/
theorem apart_of_cols {p q : Slot} (h : p.frame.x + p.frame.w ≤ q.frame.x) :
    Disjoint p.frame.points q.frame.points := by
  refine Set.disjoint_prod.mpr (Or.inl (Set.Ico_disjoint_Ico.mpr ?_))
  omega

/-- **One client of the second column** gets a slot there or goes where another one
has been; in either case the next slot may begin where `tile` lets it. -/
theorem Setting.stack_slot (h : Setting s i gap n maxn mw) {rest : List ClientId}
    (hc : Waiting s i (c :: rest) g) (hj : (s.monitor i).nmaster ≤ j) (hmax : j < maxn)
    (hlen : j + (c :: rest).length = n) (hty : Begins (s.monitor i) gap ty)
    {k : Int} (hk : k = leftOver (s.monitor i) ty rest.isEmpty / (min n maxn - j) - gap)
    (hown : minwsz s ≤ k) {r : Rect}
    (hr : r = stackRect ((s.monitor i).withGap gap) mw ty k (g c).bw) :
    StackSlot s i gap n maxn mw ((s.monitor i).wy + ty) (slotOf s g c r true) ∧
      (slotOf s g c r true).frame.y + (slotOf s g c r true).frame.h = (s.monitor i).wy + (ty + k) ∧
      (rest ≠ [] → u32 (ty + (resize s c r false g c).height + gap) = ty + k + gap ∧
        Begins (s.monitor i) gap (ty + k + gap)) := by
  obtain ⟨hcown, hbw⟩ := hc c List.mem_cons_self
  have hborder : borderpx = 1 := rfl
  have hlast := isEmpty_last hlen
  have hnext := isEmpty_next hlen
  rw [hk] at hown
  obtain ⟨hcol, hend, hmore⟩ := h.own_slot hj hmax hlast hnext hty hown
  rw [← hk] at hown hend hmore
  have hcolumn := (h.column hcol).2
  have hmin := minwsz_eq s
  have hleast : least s = s.bh + 2 := rfl
  have hfont := h.font
  have hwide := h.wide
  have hgap := h.gaps
  have hleft := h.range.left
  have hright := h.range.right
  have htop := h.range.top
  have hbottom := h.range.bottom
  have hwidth := h.range.width
  have hheight := h.range.height
  have hband := h.band
  have htyle := hty.1
  have hr' : r = ⟨(s.monitor i).wx + mw + gap, (s.monitor i).wy + ty,
      (s.monitor i).ww - mw - 2 * gap - 2 * borderpx, k - 2 * borderpx⟩ := by
    have hw : (s.monitor i).ww - mw - 2 * borderpx - 2 * gap =
        (s.monitor i).ww - mw - 2 * gap - 2 * borderpx := by omega
    change r = ⟨i32 ((s.monitor i).wx + mw + gap), i32 ((s.monitor i).wy + ty),
      i32 ((s.monitor i).ww - mw - 2 * (g c).bw - 2 * gap), k - 2 * (g c).bw⟩ at hr
    rw [hr, hbw, hw, i32_self (by omega) (by omega), i32_self (by omega) (by omega),
      i32_self (by omega) (by omega)]
  have hframe := h.frame_eq hc (b := true) (x := (s.monitor i).wx + mw + gap)
    (y := (s.monitor i).wy + ty) (by omega) (by omega) (by omega) (by omega)
    ((s.monitor i).ww - mw - 2 * gap) k
  rw [← hr', max_eq_right (by omega : least s ≤ k)] at hframe
  refine ⟨⟨⟨rfl, ?_, ?_, ?_, ?_, ?_⟩, hcol, ?_, ?_⟩, ?_, fun hrest => ⟨?_, ?_, ?_⟩⟩
  · rw [hframe]
  · rw [hframe]
  · rw [hframe]
  · rw [hframe]
    dsimp only
    omega
  · rw [hframe]
    dsimp only
    omega
  · rw [slotOf, hr']
    dsimp only
    omega
  · rw [slotOf, hr']
    dsimp only
    omega
  · rw [hframe]
    dsimp only
    omega
  · have hn : 2 ≤ n := by
      have := hnext (List.isEmpty_eq_false_iff.mpr hrest)
      have := h.masters
      omega
    have hresize := h.height_resize hc hn (x := (s.monitor i).wx + mw + gap)
      (y := (s.monitor i).wy + ty) (by omega) (by omega) (by omega) (by omega)
      ((s.monitor i).ww - mw - 2 * gap - 2 * borderpx) k
    rw [← hr', max_eq_right (by omega : least s ≤ k)] at hresize
    rw [hresize, u32_self (by omega) (by omega)]
  · omega
  · exact Or.inr (hmore (List.isEmpty_eq_false_iff.mpr hrest))

/-- **The second column** from client number `j` on. -/
theorem Setting.stack_slots (h : Setting s i gap n maxn mw) (my : Int) (ms : Rect) (cs : List ClientId)
    (hc : Waiting s i cs g) (hj : (s.monitor i).nmaster ≤ j) (hlen : j + cs.length = n)
    (hty : Begins (s.monitor i) gap ty) :
    (∀ p ∈ slotsGaps s ((s.monitor i).withGap gap) n maxn mw j cs my ty ms g,
      StackedOn s i ms p ∨ StackSlot s i gap n maxn mw ((s.monitor i).wy + ty) p) ∧
      (slotsGaps s ((s.monitor i).withGap gap) n maxn mw j cs my ty ms g).Pairwise Apart := by
  induction cs generalizing j ty g with
  | nil =>
      rw [slotsGaps]
      exact ⟨fun p hp => (List.not_mem_nil hp).elim, List.Pairwise.nil⟩
  | cons c rest ih =>
      have hlen' : j + 1 + rest.length = n := by
        rw [List.length_cons] at hlen
        omega
      rw [slotsGaps_stack (show ((s.monitor i).withGap gap).nmaster ≤ j from hj)]
      by_cases hlow : maxn ≤ j ∨
          stackHeight ((s.monitor i).withGap gap) n maxn j ty rest.isEmpty < minwsz s ∨
          stackHeight ((s.monitor i).withGap gap) n maxn j ty rest.isEmpty < 2 * (g c).bw
      · rw [if_pos hlow]
        obtain ⟨hall, hpair⟩ := ih (hc.next (r := ms.signed)) (by omega) hlen' hty
        have hhead : StackedOn s i ms (slotOf s g c ms.signed false) := slotOf_stackedOn hc
        refine ⟨fun p hp => ?_, List.pairwise_cons.mpr ⟨fun q _ hp => ?_, hpair⟩⟩
        · rcases List.mem_cons.mp hp with rfl | hp
          · exact Or.inl hhead
          · exact hall p hp
        · rw [hhead.own] at hp
          cases hp
      · rw [if_neg hlow]
        obtain ⟨hmax, hk⟩ := not_or.mp hlow
        have hheight := h.height_eq hj (Int.not_le.mp hmax) (isEmpty_last hlen)
          (isEmpty_next hlen) hty
        obtain ⟨hslot, hbottom, hnext⟩ := h.stack_slot hc hj (Int.not_le.mp hmax) hlen hty hheight
          (Int.not_lt.mp (not_or.mp hk).1) rfl
        dsimp only
        generalize stackHeight ((s.monitor i).withGap gap) n maxn j ty rest.isEmpty = k at *
        generalize stackRect ((s.monitor i).withGap gap) mw ty k (g c).bw = r at *
        cases rest with
        | nil =>
            rw [slotsGaps]
            refine ⟨fun p hp => ?_, List.pairwise_singleton _ _⟩
            rw [List.mem_singleton.mp hp]
            exact Or.inr hslot
        | cons d rest =>
            obtain ⟨hty', hbegins⟩ := hnext (List.cons_ne_nil d rest)
            have hround : (if (d :: rest).isEmpty then u32 (ty + (resize s c r false g c).height +
                u32 ((s.monitor i).withGap gap).band + ((s.monitor i).withGap gap).gappx)
                else u32 (ty + (resize s c r false g c).height +
                  ((s.monitor i).withGap gap).gappx)) = ty + k + gap := hty'
            rw [hround]
            obtain ⟨hall, hpair⟩ := ih (hc.next (r := r)) (by omega) hlen' hbegins
            refine ⟨fun p hp => ?_, List.pairwise_cons.mpr ⟨fun q hq => ?_, hpair⟩⟩
            · rcases List.mem_cons.mp hp with rfl | hp
              · exact Or.inr hslot
              · rcases hall p hp with hstacked | hcol
                · exact Or.inl hstacked
                · have hmin := minwsz_eq s
                  have hfont := h.font
                  have hgap := h.gaps
                  exact Or.inr ⟨hcol.at_.mono (by omega), hcol.column, hcol.size⟩
            · intro _ hqown
              rcases hall q hq with hstacked | hcol
              · rw [hstacked.own] at hqown
                cases hqown
              · have hgap := h.gaps
                have htop := hcol.at_.top
                exact apart_of_rows (by omega)

/-! ## The master area -/

/-- `h` of `tile` in the master area. -/
def masterHeight (m : Monitor) (n j my : Int) : Int :=
  (m.wh - my).tdiv (min n m.nmaster - j) - m.gappx

/-- The slot that `tile` computes there, in `unsigned int`. -/
def masterRect (m : Monitor) (mw my k bw : Int) : Rect :=
  ⟨u32 (m.wx + m.gappx), u32 (m.wy + my), u32 (mw - 2 * bw - m.gappx), u32 (k - 2 * bw)⟩

/-- One round of `tile` in the master area. -/
theorem slotsGaps_master {rest : List ClientId} (hj : j < m.nmaster) :
    slotsGaps s m n maxn mw j (c :: rest) my ty ms g =
      let r := masterRect m mw my (masterHeight m n j my) (g c).bw
      let g' := resize s c r.signed false g
      let my' := if my + (g' c).height + m.gappx < m.wh then my + (g' c).height + m.gappx else my
      slotOf s g c r.signed true :: slotsGaps s m n maxn mw (j + 1) rest my' ty r g' := by
  rw [slotsGaps]
  dsimp only
  rw [if_pos hj]
  rfl

/-- There is room for the masters from number `j` on, below `my`. -/
structure MasterRoom (s : State) (m : Monitor) (gap n mw j my : Int) : Prop where
  below : gap ≤ my
  height : my + (min n m.nmaster - j) * (least s + gap) ≤ m.wh + gap
  width : gap + least s ≤ m.ww
  area : mw ≤ m.ww

/-- A slot of the master area. -/
structure MasterSlot (s : State) (i : MonId) (gap mw lo : Int) (p : Slot) : Prop where
  at_ : InColumn ((s.monitor i).wx + gap) (max (least s) (mw - gap)) lo
    ((s.monitor i).wy + (s.monitor i).wh) p
  size : p.rect.w ≤ (s.monitor i).ww ∧ p.rect.h ≤ (s.monitor i).wh

/-- The rectangle of a master without the conversions. -/
theorem Setting.master_rect (h : Setting s i gap n maxn mw) (hj : j < (s.monitor i).nmaster)
    (hn : j < n) (hroom : MasterRoom s (s.monitor i) gap n mw j my) :
    (masterRect ((s.monitor i).withGap gap) mw my
      (masterHeight ((s.monitor i).withGap gap) n j my) borderpx).signed =
      ⟨(s.monitor i).wx + gap, (s.monitor i).wy + my, mw - gap - 2 * borderpx,
        masterHeight ((s.monitor i).withGap gap) n j my - 2 * borderpx⟩ := by
  have hborder : borderpx = 1 := rfl
  have hleast : least s = s.bh + 2 := rfl
  have hmax : maxgappx = 50 := rfl
  have hfont := h.font
  have hgap := h.gaps
  have hwide := h.wide
  have hleft := h.range.left
  have hright := h.range.right
  have htop := h.range.top
  have hbottom := h.range.bottom
  have hwidth := h.range.width
  have hheight := h.range.height
  have hbelow := hroom.below
  have hin := hroom.width
  have harea := hroom.area
  obtain ⟨hmy, hk, -, -⟩ := share_room (k := min n (s.monitor i).nmaster - j) (b := least s)
    my (s.monitor i).wh (by omega) (by omega) hgap.1 hroom.height
  have hkdef : masterHeight ((s.monitor i).withGap gap) n j my =
      ((s.monitor i).wh - my).tdiv (min n (s.monitor i).nmaster - j) - gap := rfl
  rw [← hkdef] at hk
  generalize masterHeight ((s.monitor i).withGap gap) n j my = k at *
  have hw : mw - 2 * borderpx - gap = mw - gap - 2 * borderpx := by omega
  change (⟨i32 (u32 ((s.monitor i).wx + gap)), i32 (u32 ((s.monitor i).wy + my)),
    i32 (u32 (mw - 2 * borderpx - gap)), i32 (u32 (k - 2 * borderpx))⟩ : Rect) = _
  rw [hw, i32_u32, i32_u32, i32_u32, i32_u32, i32_self (by omega) (by omega),
    i32_self (by omega) (by omega), i32_self (by omega) (by omega), i32_self (by omega) (by omega)]

/-- A slot that is in the window area and asked to be no larger than it. -/
structure Within (s : State) (i : MonId) (p : Slot) : Prop where
  inside : p.frame.points.Nonempty ∧ p.frame.points ⊆ (s.monitor i).area.points
  size : p.rect.w ≤ (s.monitor i).ww ∧ p.rect.h ≤ (s.monitor i).wh

/-- **One master** gets its part of what is left of the height, and leaves enough for
those after it. -/
theorem Setting.master_slot (h : Setting s i gap n maxn mw) {rest : List ClientId}
    (hc : Waiting s i (c :: rest) g) (hj0 : 0 ≤ j) (hj : j < (s.monitor i).nmaster)
    (hlen : j + (c :: rest).length = n) (hroom : MasterRoom s (s.monitor i) gap n mw j my)
    {r : Rect} (hr : r = masterRect ((s.monitor i).withGap gap) mw my
      (masterHeight ((s.monitor i).withGap gap) n j my) (g c).bw) :
    MasterSlot s i gap mw ((s.monitor i).wy + my) (slotOf s g c r.signed true) ∧
      (∀ p, StackedOn s i r p → Within s i p) ∧
      (rest ≠ [] → j + 1 < (s.monitor i).nmaster →
        ∃ my', (if my + (resize s c r.signed false g c).height + gap < (s.monitor i).wh
            then my + (resize s c r.signed false g c).height + gap else my) = my' ∧
          MasterRoom s (s.monitor i) gap n mw (j + 1) my' ∧
          (slotOf s g c r.signed true).frame.y + (slotOf s g c r.signed true).frame.h ≤
            (s.monitor i).wy + my') := by
  obtain ⟨hcown, hbw⟩ := hc c List.mem_cons_self
  have hn : j < n := by
    rw [List.length_cons] at hlen
    omega
  have hborder : borderpx = 1 := rfl
  have hleast : least s = s.bh + 2 := rfl
  have hfont := h.font
  have hgap := h.gaps
  have hwide := h.wide
  have hbelow := hroom.below
  have hin := hroom.width
  have harea := hroom.area
  have hsigned := h.master_rect hj hn hroom
  rw [← hbw, ← hr, hbw] at hsigned
  obtain ⟨hmy, hk, hend, hmore⟩ := share_room (k := min n (s.monitor i).nmaster - j) (b := least s)
    my (s.monitor i).wh (by omega) (by omega) hgap.1 hroom.height
  have hkdef : masterHeight ((s.monitor i).withGap gap) n j my =
      ((s.monitor i).wh - my).tdiv (min n (s.monitor i).nmaster - j) - gap := rfl
  rw [← hkdef] at hk hend hmore
  generalize masterHeight ((s.monitor i).withGap gap) n j my = k at *
  have hx : (s.monitor i).wx ≤ (s.monitor i).wx + gap := by omega
  have hx' : (s.monitor i).wx + gap < (s.monitor i).wx + (s.monitor i).ww := by omega
  have hy : (s.monitor i).wy ≤ (s.monitor i).wy + my := by omega
  have hy' : (s.monitor i).wy + my < (s.monitor i).wy + (s.monitor i).wh := by omega
  have hframe := h.frame_eq hc (b := true) hx hx' hy hy' (mw - gap) k
  rw [← hsigned] at hframe
  refine ⟨⟨⟨rfl, ?_, ?_, ?_, ?_, ?_⟩, ?_, ?_⟩, ?_, ?_⟩
  · rw [hframe]
  · rw [hframe]
  · rw [hframe]
  · rw [hframe]
    dsimp only
    omega
  · rw [hframe]
    dsimp only
    omega
  · rw [slotOf, hsigned]
    dsimp only
    omega
  · rw [slotOf, hsigned]
    dsimp only
    omega
  · -- a client that goes where this master has been has the same frame
    rintro p ⟨-, hrect, g', hbw', hown', hout⟩
    have hwait : Waiting s i [p.client] g' := fun d hd => by
      rw [List.mem_singleton.mp hd]
      exact ⟨hown', hbw'⟩
    have hframe' := h.frame_eq hwait (b := false) hx hx' hy hy' (mw - gap) k
    rw [← hsigned, slotOf] at hframe'
    dsimp only at hframe'
    rw [hbw', ← hout] at hframe'
    refine ⟨inside_iff.mpr ?_, ?_⟩
    · rw [hframe']
      dsimp only
      omega
    · rw [hrect, hsigned]
      dsimp only
      omega
  · intro hrest hnext
    have hpos := List.length_pos_of_ne_nil hrest
    rw [List.length_cons] at hlen
    obtain ⟨hless, hleft⟩ := hmore (by omega)
    have hheight := h.height_resize hc (by omega : 2 ≤ n) hx hx' hy hy' (mw - gap - 2 * borderpx) k
    rw [← hsigned] at hheight
    refine ⟨my + max (least s) k + gap, ?_, ⟨by omega, ?_, hin, harea⟩, ?_⟩
    · rw [hheight, if_pos hless]
    · have hk : min n (s.monitor i).nmaster - (j + 1) = min n (s.monitor i).nmaster - j - 1 := by ring
      rw [hk]
      exact hleft
    · rw [hframe]
      dsimp only
      omega

/-- A slot of either area, or one where another client has been. -/
def Slotted (s : State) (i : MonId) (gap n maxn mw my ty : Int) (p : Slot) : Prop :=
  (p.own = false ∧ Within s i p) ∨ MasterSlot s i gap mw ((s.monitor i).wy + my) p ∨
    StackSlot s i gap n maxn mw ((s.monitor i).wy + ty) p

/-- A master does not meet the slots of the second column. -/
theorem Setting.apart (h : Setting s i gap n maxn mw) {lo : Int} {p q : Slot}
    (hmasters : 0 < (s.monitor i).nmaster) (hp : MasterSlot s i gap mw lo p)
    (hq : StackSlot s i gap n maxn mw ((s.monitor i).wy + ty) q) : Apart p q := by
  intro _ _
  have hle := (h.column hq.column).1 hmasters
  have hgap := h.gaps
  apply apart_of_cols
  rw [hp.at_.left, hp.at_.width, hq.at_.left]
  omega

/-- Where the other slot is not the client's own, nothing is said. -/
theorem apart_of_not_own {p q : Slot} (h : q.own = false) : Apart p q := by
  intro _ hown
  rw [h] at hown
  cases hown

/-- **The master area** from client number `j` on, and the second column. -/
theorem Setting.master_slots (h : Setting s i gap n maxn mw) (ms : Rect) (cs : List ClientId)
    (hc : Waiting s i cs g) (hj0 : 0 ≤ j) (hj : j < (s.monitor i).nmaster)
    (hlen : j + cs.length = n) (hroom : MasterRoom s (s.monitor i) gap n mw j my)
    (hty : Begins (s.monitor i) gap ty) :
    (∀ p ∈ slotsGaps s ((s.monitor i).withGap gap) n maxn mw j cs my ty ms g,
      Slotted s i gap n maxn mw my ty p) ∧
      (slotsGaps s ((s.monitor i).withGap gap) n maxn mw j cs my ty ms g).Pairwise Apart := by
  induction cs generalizing j my ms g with
  | nil =>
      rw [slotsGaps]
      exact ⟨fun p hp => (List.not_mem_nil hp).elim, List.Pairwise.nil⟩
  | cons c rest ih =>
      have hlen' : j + 1 + rest.length = n := by
        rw [List.length_cons] at hlen
        omega
      rw [slotsGaps_master (show j < ((s.monitor i).withGap gap).nmaster from hj)]
      dsimp only
      obtain ⟨hslot, hwithin, hnext⟩ := h.master_slot hc hj0 hj hlen hroom rfl
      generalize masterRect ((s.monitor i).withGap gap) mw my
        (masterHeight ((s.monitor i).withGap gap) n j my) (g c).bw = r at *
      by_cases hmore : j + 1 < (s.monitor i).nmaster
      · cases rest with
        | nil =>
            rw [slotsGaps]
            refine ⟨fun p hp => ?_, List.pairwise_singleton _ _⟩
            rw [List.mem_singleton.mp hp]
            exact Or.inr (Or.inl hslot)
        | cons d rest =>
            obtain ⟨my', hmy', hroom', hbelow⟩ := hnext (List.cons_ne_nil d rest) hmore
            have hround : (if my + (resize s c r.signed false g c).height +
                ((s.monitor i).withGap gap).gappx < ((s.monitor i).withGap gap).wh
                then my + (resize s c r.signed false g c).height + ((s.monitor i).withGap gap).gappx
                else my) = my' := hmy'
            rw [hround]
            have hle : my ≤ my' := by
              have htop := hslot.at_.top
              have hpos := hslot.at_.pos
              omega
            obtain ⟨hall, hpair⟩ :=
              ih r (hc.next (r := r.signed)) (by omega) hmore hlen' hroom'
            refine ⟨fun p hp => ?_, List.pairwise_cons.mpr ⟨fun q hq => ?_, hpair⟩⟩
            · rcases List.mem_cons.mp hp with rfl | hp
              · exact Or.inr (Or.inl hslot)
              · rcases hall p hp with hwithin | hmaster | hstack
                · exact Or.inl hwithin
                · exact Or.inr (Or.inl ⟨hmaster.at_.mono (by omega), hmaster.size⟩)
                · exact Or.inr (Or.inr hstack)
            · rcases hall q hq with hnot | hmaster | hstack
              · exact apart_of_not_own hnot.1
              · intro _ _
                exact apart_of_rows (hbelow.trans hmaster.at_.top)
              · exact h.apart (by omega) hslot hstack
      · -- this was the last master
        obtain ⟨hall, hpair⟩ := h.stack_slots
          (if my + (resize s c r.signed false g c).height + ((s.monitor i).withGap gap).gappx <
              ((s.monitor i).withGap gap).wh
            then my + (resize s c r.signed false g c).height + ((s.monitor i).withGap gap).gappx
            else my)
          r rest (hc.next (r := r.signed)) (by omega) hlen' hty
        refine ⟨fun p hp => ?_, List.pairwise_cons.mpr ⟨fun q hq => ?_, hpair⟩⟩
        · rcases List.mem_cons.mp hp with rfl | hp
          · exact Or.inr (Or.inl hslot)
          · rcases hall p hp with hstacked | hstack
            · exact Or.inl ⟨hstacked.own, hwithin p hstacked⟩
            · exact Or.inr (Or.inr hstack)
        · rcases hall q hq with hstacked | hstack
          · exact apart_of_not_own hstacked.own
          · exact h.apart (by omega) hslot hstack

/-- A slot of the master area is in the window area. -/
theorem Setting.master_within (h : Setting s i gap n maxn mw) {p : Slot} (hmy : 0 ≤ my)
    (hwidth : gap + least s ≤ (s.monitor i).ww) (harea : mw ≤ (s.monitor i).ww)
    (hp : MasterSlot s i gap mw ((s.monitor i).wy + my) p) : Within s i p := by
  have hleast : least s = s.bh + 2 := rfl
  have hfont := h.font
  have hgap := h.gaps
  have hleft := hp.at_.left
  have hw := hp.at_.width
  have htop := hp.at_.top
  have hbottom := hp.at_.bottom
  have hpos := hp.at_.pos
  refine ⟨inside_iff.mpr ?_, hp.size⟩
  omega

/-- So is one of the second column. -/
theorem Setting.stack_within (h : Setting s i gap n maxn mw) {p : Slot} (hty : 0 ≤ ty)
    (hp : StackSlot s i gap n maxn mw ((s.monitor i).wy + ty) p) : Within s i p := by
  have hleast : least s = s.bh + 2 := rfl
  have hfont := h.font
  have hgap := h.gaps
  have hwide := h.wide
  have hcolumn := (h.column hp.column).2
  have hleft := hp.at_.left
  have hw := hp.at_.width
  have htop := hp.at_.top
  have hbottom := hp.at_.bottom
  have hpos := hp.at_.pos
  refine ⟨inside_iff.mpr ?_, hp.size⟩
  omega

/-! ## Without masters -/

/-- A rectangle of no size at the origin is moved into the window area. -/
@[mk_iff]
structure InCorner (s : State) (m : Monitor) : Prop where
  x : m.wx ≤ 0 ∧ least s ≤ m.wx + m.ww ∨ 1 + 2 * borderpx ≤ m.wx ∧ least s ≤ m.ww
  y : m.wy ≤ 0 ∧ least s ≤ m.wy + m.wh ∨ 1 + 2 * borderpx ≤ m.wy ∧ least s ≤ m.wh

instance : Decidable (InCorner s m) := decidable_of_iff' _ (inCorner_iff s m)

/-- Some client does not get a slot, although there is no master. -/
def Crowded (s : State) (m : Monitor) (gap n maxn : Int) : Prop :=
  maxn < n ∨ 2 ≤ n ∧ (m.wh - m.band - gap) / n - gap < minwsz s

instance {gap n maxn : Int} : Decidable (Crowded s m gap n maxn) :=
  inferInstanceAs (Decidable (_ ∨ _))

theorem InCorner.within (h : InCorner s (s.monitor i)) (hbh : 0 < s.bh) {p : Slot}
    (hp : StackedOn s i ⟨0, 0, 0, 0⟩ p) : Within s i p := by
  obtain ⟨-, hrect, g, hbw, hown, hframe⟩ := hp
  have hborder : borderpx = 1 := rfl
  have hleast : least s = s.bh + 2 := rfl
  have hzero : (⟨0, 0, 0, 0⟩ : Rect).signed = ⟨0, 0, 0, 0⟩ := rfl
  have hm : s.monOf p.client = s.monitor i := congrArg s.monitor hown
  have hx := h.x
  have hy := h.y
  rw [hzero] at hrect hframe
  refine ⟨inside_iff.mpr ?_, ?_⟩
  · rw [hframe, hinted, hm, hbw, Rect.outer]
    dsimp only
    split_ifs <;> omega
  · rw [hrect]
    dsimp only
    omega

/-- Room for each client that is left to get its own slot. -/
def Plenty (s : State) (m : Monitor) (gap n j ty : Int) : Prop :=
  (j + 1 = n → minwsz s + gap ≤ m.wh - ty) ∧
    (j + 2 ≤ n → (n - j) * (minwsz s + gap) ≤ m.wh - m.band - ty)

/-- One part of plenty is high enough, and leaves plenty. -/
theorem Plenty.part (h : Plenty s m gap n j ty) (hband : 0 ≤ m.band)
    (hlast : last = true → j + 1 = n) (hnext : last = false → j + 2 ≤ n) :
    minwsz s ≤ leftOver m ty last / (n - j) - gap ∧
      (last = false → Plenty s m gap n (j + 1) (ty + (leftOver m ty last / (n - j) - gap) + gap)) := by
  cases last with
  | true =>
      have hn := hlast rfl
      have hone : n - j = 1 := by omega
      have henough := h.1 hn
      rw [leftOver, if_pos rfl, hone, Int.ediv_one]
      exact ⟨by omega, fun hf => by cases hf⟩
  | false =>
      have hn := hnext rfl
      have henough := h.2 hn
      rw [leftOver, if_neg (by decide)]
      have hq : minwsz s + gap ≤ (m.wh - m.band - ty) / (n - j) := by
        apply Int.le_ediv_of_mul_le (by omega)
        rw [Int.mul_comm]
        exact henough
      have hall : (m.wh - m.band - ty) / (n - j) * (n - j) ≤ m.wh - m.band - ty :=
        Int.ediv_mul_le _ (by omega)
      generalize (m.wh - m.band - ty) / (n - j) = q at *
      have hrest : (n - (j + 1)) * (minwsz s + gap) ≤ (n - (j + 1)) * q :=
        Int.mul_le_mul_of_nonneg_left hq (by omega)
      have hsum : q * (n - j) = (n - (j + 1)) * q + q := by ring
      refine ⟨by omega, fun _ => ⟨fun hend => ?_, fun _ => by omega⟩⟩
      have hone : (n - (j + 1)) * q = q := by
        have : n - (j + 1) = 1 := by omega
        rw [this, Int.one_mul]
      omega

/-- **With room for all of them**, each gets a slot of its own. -/
theorem Setting.all_own (h : Setting s i gap n maxn mw) (my : Int) (ms : Rect) (cs : List ClientId)
    (hc : Waiting s i cs g) (hj : (s.monitor i).nmaster ≤ j) (hlen : j + cs.length = n)
    (hmax : n ≤ maxn) (hty : Begins (s.monitor i) gap ty)
    (hroom : Plenty s (s.monitor i) gap n j ty) :
    ∀ p ∈ slotsGaps s ((s.monitor i).withGap gap) n maxn mw j cs my ty ms g, p.own = true := by
  induction cs generalizing j ty g with
  | nil =>
      rw [slotsGaps]
      exact fun p hp => (List.not_mem_nil hp).elim
  | cons c rest ih =>
      have hlen' : j + 1 + rest.length = n := by
        rw [List.length_cons] at hlen
        omega
      have hbw := (hc c List.mem_cons_self).2
      have hborder : borderpx = 1 := rfl
      have hmin := minwsz_eq s
      have hfont := h.font
      have hmaxj : j < maxn := by omega
      have hheight := h.height_eq hj hmaxj (isEmpty_last hlen) (isEmpty_next hlen) hty
      obtain ⟨hown, hplenty⟩ := hroom.part h.band.1 (isEmpty_last hlen) (isEmpty_next hlen)
      have hheight' := hheight
      rw [min_eq_left hmax] at hheight'
      rw [← hheight'] at hown hplenty
      obtain ⟨-, -, hnext⟩ := h.stack_slot hc hj hmaxj hlen hty hheight hown rfl
      rw [slotsGaps_stack (show ((s.monitor i).withGap gap).nmaster ≤ j from hj),
        if_neg (by omega)]
      dsimp only
      generalize stackHeight ((s.monitor i).withGap gap) n maxn j ty rest.isEmpty = k at *
      generalize stackRect ((s.monitor i).withGap gap) mw ty k (g c).bw = r at *
      intro p hp
      rcases List.mem_cons.mp hp with rfl | hp
      · rfl
      · cases rest with
        | nil =>
            rw [slotsGaps] at hp
            exact (List.not_mem_nil hp).elim
        | cons d rest =>
            obtain ⟨hty', hbegins⟩ := hnext (List.cons_ne_nil d rest)
            have hround : (if (d :: rest).isEmpty then u32 (ty + (resize s c r false g c).height +
                u32 ((s.monitor i).withGap gap).band + ((s.monitor i).withGap gap).gappx)
                else u32 (ty + (resize s c r false g c).height +
                  ((s.monitor i).withGap gap).gappx)) = ty + k + gap := hty'
            rw [hround] at hp
            exact ih (hc.next (r := r)) (by omega) hlen' hbegins (hplenty rfl) p hp

end Dwm
