import Zzdwm.Dwm.Layouts
import Zzdwm.Dwm.GridCells

/-!
# The slots of the tile layout

`tile` gives slots to the clients one by one, with what `resize` made of the slots
before.  Here the slots are listed, so that there is something to state about them.

* `hinted_fit` — what `applysizehints` makes of a slot in the window area;
* `tile_eq` — `tile` as a round of `resize` over its slots;
* `tile_placed` — every tiled client ends up in its slot;
* `SlotsFit` — the slots are in the window area, and those of their own do not meet.
-/

namespace Dwm

open Boxes

variable {s : State} {m : Monitor} {c d : ClientId} {g : Geoms} {i : MonId} {r : Rect}

/-! ## What `resize` does -/

/-- The rectangle that `applysizehints` adjusts `r` to. -/
def hinted (s : State) (g : Geoms) (c : ClientId) (r : Rect) : Rect :=
  let m := s.monOf c
  let k := g c
  let w := max 1 r.w
  let h := max 1 r.h
  let x := if r.x ≥ m.wx + m.ww then m.wx + m.ww - k.width else r.x
  let x := if x + w + 2 * k.bw ≤ m.wx then m.wx else x
  let y := if r.y ≥ m.wy + m.wh then m.wy + m.wh - k.height else r.y
  let y := if y + h + 2 * k.bw ≤ m.wy then m.wy else y
  ⟨x, y, if w < s.bh then s.bh else w, if h < s.bh then s.bh else h⟩

/-- A rectangle with a border around it. -/
def Rect.outer (r : Rect) (bw : Int) : Rect := ⟨r.x, r.y, r.w + 2 * bw, r.h + 2 * bw⟩

/-- `resize` in terms of the adjusted rectangle. -/
theorem resize_eq : resize s c r false g =
    if (hinted s g c r).x ≠ (g c).x ∨ (hinted s g c r).y ≠ (g c).y ∨
        (hinted s g c r).w ≠ (g c).w ∨ (hinted s g c r).h ≠ (g c).h then
      resizeclient s c (hinted s g c r) g
    else g := by
  unfold resize
  have happ : applysizehints s g c r false =
      if (hinted s g c r).x ≠ (g c).x ∨ (hinted s g c r).y ≠ (g c).y ∨
        (hinted s g c r).w ≠ (g c).w ∨ (hinted s g c r).h ≠ (g c).h then
      some (hinted s g c r) else none := rfl
  rw [happ]
  split_ifs <;> rfl

/-- No border changes. -/
theorem bw_resize : (resize s c r false g d).bw = (g d).bw := by
  by_cases hd : d = c
  · subst hd
    rw [resize_eq]
    split_ifs
    · unfold resizeclient
      dsimp only
      split_ifs <;> rw [Function.update_self]
    · rfl
  · rw [resize_of_ne hd]

/-- The geometry after `resize`, if the border is not given up. -/
theorem rect_resize (hkeep : s.tiled (s.own c) ≠ [c]) (hlayout : (s.monOf c).layout ≠ .monocle) :
    (resize s c r false g c).width = (hinted s g c r).w + 2 * (g c).bw ∧
      (resize s c r false g c).height = (hinted s g c r).h + 2 * (g c).bw := by
  rw [resize_eq]
  split_ifs with h
  · unfold resizeclient
    dsimp only
    rw [if_neg (by simp [hkeep, hlayout]), Function.update_self]
    exact ⟨rfl, rfl⟩
  · simp only [not_or, not_not] at h
    rw [h.2.2.1, h.2.2.2]
    exact ⟨rfl, rfl⟩

/-- The position after `resize`. -/
theorem corner_resize : (resize s c r false g c).x = (hinted s g c r).x ∧
    (resize s c r false g c).y = (hinted s g c r).y := by
  rw [resize_eq]
  split_ifs with h
  · unfold resizeclient
    dsimp only
    split_ifs <;> rw [Function.update_self] <;> exact ⟨rfl, rfl⟩
  · simp only [not_or, not_not] at h
    exact ⟨h.1.symm, h.2.1.symm⟩

/-- **A rectangle that begins in the window area** is only enlarged, to the least size. -/
theorem hinted_fit (hown : s.own c = i) (hbw : 0 ≤ (g c).bw) (hbh : 0 < s.bh)
    (hx : (s.monitor i).wx ≤ r.x) (hx' : r.x < (s.monitor i).wx + (s.monitor i).ww)
    (hy : (s.monitor i).wy ≤ r.y) (hy' : r.y < (s.monitor i).wy + (s.monitor i).wh) :
    hinted s g c r = ⟨r.x, r.y, max s.bh r.w, max s.bh r.h⟩ := by
  have hm : s.monOf c = s.monitor i := congrArg s.monitor hown
  unfold hinted
  rw [hm]
  dsimp only
  rw [if_neg (by omega), if_neg (by omega), if_neg (by omega), if_neg (by omega)]
  have hw : (if max 1 r.w < s.bh then s.bh else max 1 r.w) = max s.bh r.w := by
    split_ifs <;> omega
  have hh : (if max 1 r.h < s.bh then s.bh else max 1 r.h) = max s.bh r.h := by
    split_ifs <;> omega
  rw [hw, hh]

/-! ## The slots -/

/-- A client, the rectangle that `tile` passes to `resize` for it, the rectangle with
its border that comes out, and whether the slot is the client's own. -/
structure Slot where
  client : ClientId
  rect : Rect
  frame : Rect
  own : Bool

/-- The slot of `c`. -/
def slotOf (s : State) (g : Geoms) (c : ClientId) (r : Rect) (own : Bool) : Slot :=
  ⟨c, r, (hinted s g c r).outer (g c).bw, own⟩

variable (s)

/-- The slots of `tileGaps`. -/
def slotsGaps (m : Monitor) (n maxn mw : Int) :
    Int → List ClientId → Int → Int → Rect → Geoms → List Slot
  | _, [], _, _, _, _ => []
  | i, c :: rest, my, ty, ms, g =>
      if i < m.nmaster then
        let h := (m.wh - my).tdiv (min n m.nmaster - i) - m.gappx
        let ms : Rect := ⟨u32 (m.wx + m.gappx), u32 (m.wy + my),
          u32 (mw - 2 * (g c).bw - m.gappx), u32 (h - 2 * (g c).bw)⟩
        let slot := slotOf s g c ms.signed true
        let g := resize s c ms.signed false g
        let my := if my + (g c).height + m.gappx < m.wh
          then my + (g c).height + m.gappx else my
        slot :: slotsGaps m n maxn mw (i + 1) rest my ty ms g
      else if i ≥ maxn then
        slotOf s g c ms.signed false ::
          slotsGaps m n maxn mw (i + 1) rest my ty ms (resize s c ms.signed false g)
      else
        let smh := u32 (trunc (m.mh * m.smfact))
        let room := if rest.isEmpty then u32 (m.wh - ty) else u32 (m.wh - smh - ty)
        let h := i32 (room / u32 (min n maxn - i) - m.gappx)
        if h < minwsz s ∨ h < 2 * (g c).bw then
          slotOf s g c ms.signed false ::
            slotsGaps m n maxn mw (i + 1) rest my ty ms (resize s c ms.signed false g)
        else
          let r : Rect := ⟨i32 (m.wx + mw + m.gappx), i32 (m.wy + ty),
            i32 (m.ww - mw - 2 * (g c).bw - 2 * m.gappx), h - 2 * (g c).bw⟩
          let slot := slotOf s g c r true
          let g := resize s c r false g
          let ty := if rest.isEmpty then u32 (ty + (g c).height + smh + m.gappx)
            else u32 (ty + (g c).height + m.gappx)
          slot :: slotsGaps m n maxn mw (i + 1) rest my ty ms g

/-- The slots of `tileBare`. -/
def slotsBare (m : Monitor) (n maxn mw : Int) :
    Int → List ClientId → Int → Int → Rect → Geoms → List Slot
  | _, [], _, _, _, _ => []
  | i, c :: rest, my, ty, ms, g =>
      if i < m.nmaster then
        let h := (m.wh - my).tdiv (min n m.nmaster - i)
        let ms : Rect := ⟨u32 m.wx, u32 (m.wy + my),
          u32 (mw - 2 * (g c).bw), u32 (h - 2 * (g c).bw)⟩
        let slot := slotOf s g c ms.signed true
        let g := resize s c ms.signed false g
        slot :: slotsBare m n maxn mw (i + 1) rest (my + (g c).height) ty ms g
      else if i ≥ maxn then
        slotOf s g c ms.signed false ::
          slotsBare m n maxn mw (i + 1) rest my ty ms (resize s c ms.signed false g)
      else
        let smh := u32 (trunc (m.mh * m.smfact))
        let room := if rest.isEmpty then u32 (m.wh - ty) else u32 (m.wh - smh - ty)
        let h := i32 (room / u32 (min n maxn - i))
        if h < minwsz s ∨ h < 2 * (g c).bw then
          slotOf s g c ms.signed false ::
            slotsBare m n maxn mw (i + 1) rest my ty ms (resize s c ms.signed false g)
        else
          let r : Rect := ⟨i32 (m.wx + mw), i32 (m.wy + ty),
            i32 (m.ww - mw - 2 * (g c).bw), h - 2 * (g c).bw⟩
          let slot := slotOf s g c r true
          let g := resize s c r false g
          let ty := if rest.isEmpty then u32 (ty + (g c).height + smh)
            else u32 (ty + (g c).height)
          slot :: slotsBare m n maxn mw (i + 1) rest my ty ms g

/-- `maxn` of `tile`: so many clients have room for a slot of the least height. -/
def maxTiled (m : Monitor) : Int :=
  if m.drawwithgaps then
    if m.wh - m.gappx > 0 ∧ m.gappx + minwsz s > 0
      then (m.wh - m.gappx).tdiv (m.gappx + minwsz s) + m.nmaster else m.nmaster
  else if minwsz s > 0 then m.wh.tdiv (minwsz s) + m.nmaster else m.nmaster

/-- `mw` of `tile`: the width of the master area. -/
def masterWidth (m : Monitor) (n : Int) : Int :=
  u32 (if n > m.nmaster then (if m.nmaster ≠ 0 then trunc (m.ww * m.mfact) else 0)
    else if m.drawwithgaps then m.ww - m.gappx else m.ww)

/-- The slots of `tile`. -/
def tileSlots (i : MonId) (g : Geoms) : List Slot :=
  let m := s.monitor i
  let cs := s.tiled i
  let n : Int := cs.length
  if m.drawwithgaps then
    slotsGaps s m n (maxTiled s m) (masterWidth m n) 0 cs m.gappx (u32 m.gappx) ⟨0, 0, 0, 0⟩ g
  else slotsBare s m n (maxTiled s m) (masterWidth m n) 0 cs 0 0 ⟨0, 0, 0, 0⟩ g

variable {s}

/-- Pass the slots on to `resize`. -/
def place (s : State) (g : Geoms) (p : Slot) : Geoms := resize s p.client p.rect false g

theorem tileGaps_eq (n maxn mw j : Int) (cs : List ClientId) (my ty : Int) (ms : Rect) (g : Geoms) :
    tileGaps s m n maxn mw j cs my ty ms g =
      (slotsGaps s m n maxn mw j cs my ty ms g).foldl (place s) g := by
  induction cs generalizing j my ty ms g with
  | nil => rfl
  | cons c rest ih =>
      rw [tileGaps, slotsGaps]
      dsimp only
      split_ifs <;> exact ih ..

theorem tileBare_eq (n maxn mw j : Int) (cs : List ClientId) (my ty : Int) (ms : Rect) (g : Geoms) :
    tileBare s m n maxn mw j cs my ty ms g =
      (slotsBare s m n maxn mw j cs my ty ms g).foldl (place s) g := by
  induction cs generalizing j my ty ms g with
  | nil => rfl
  | cons c rest ih =>
      rw [tileBare, slotsBare]
      dsimp only
      split_ifs <;> exact ih ..

/-- **`tile` as a round of `resize`** over its slots. -/
theorem tile_eq : tile s i g = (tileSlots s i g).foldl (place s) g := by
  unfold tile tileSlots maxTiled masterWidth
  dsimp only
  by_cases hn : ((s.tiled i).length : Int) = 0
  · have hnil : s.tiled i = [] := List.eq_nil_of_length_eq_zero (Int.natCast_eq_zero.mp hn)
    rw [if_pos hn, hnil]
    split <;> rfl
  · rw [if_neg hn]
    by_cases hdraw : (s.monitor i).drawwithgaps = true
    · simp only [if_pos hdraw]
      exact tileGaps_eq ..
    · simp only [if_neg hdraw]
      exact tileBare_eq ..

/-- The slots of a list have the frames that come out of it. -/
def Framed (s : State) : Geoms → List Slot → Prop
  | _, [] => True
  | g, p :: l => p.frame = (hinted s g p.client p.rect).outer (g p.client).bw ∧
      Framed s (place s g p) l

theorem slotsGaps_framed (n maxn mw j : Int) (cs : List ClientId) (my ty : Int) (ms : Rect)
    (g : Geoms) : Framed s g (slotsGaps s m n maxn mw j cs my ty ms g) ∧
      (slotsGaps s m n maxn mw j cs my ty ms g).map Slot.client = cs := by
  induction cs generalizing j my ty ms g with
  | nil => exact ⟨trivial, rfl⟩
  | cons c rest ih =>
      rw [slotsGaps]
      dsimp only
      split_ifs <;> exact ⟨⟨rfl, (ih ..).1⟩, congrArg (c :: ·) (ih ..).2⟩

theorem slotsBare_framed (n maxn mw j : Int) (cs : List ClientId) (my ty : Int) (ms : Rect)
    (g : Geoms) : Framed s g (slotsBare s m n maxn mw j cs my ty ms g) ∧
      (slotsBare s m n maxn mw j cs my ty ms g).map Slot.client = cs := by
  induction cs generalizing j my ty ms g with
  | nil => exact ⟨trivial, rfl⟩
  | cons c rest ih =>
      rw [slotsBare]
      dsimp only
      split_ifs <;> exact ⟨⟨rfl, (ih ..).1⟩, congrArg (c :: ·) (ih ..).2⟩

/-- Each tiled client has one slot. -/
theorem tileSlots_framed : Framed s g (tileSlots s i g) ∧
    (tileSlots s i g).map Slot.client = s.tiled i := by
  unfold tileSlots
  dsimp only
  split
  · exact slotsGaps_framed ..
  · exact slotsBare_framed ..

/-- The geometry of a client that was placed in a slot. -/
structure PlacedIn (s : State) (i : MonId) (k : Geom) (p : Slot) : Prop where
  x : k.x = p.frame.x
  y : k.y = p.frame.y
  size : s.tiled i ≠ [p.client] → k.width = p.frame.w ∧ k.height = p.frame.h

/-- A client stays where its slot put it. -/
theorem Framed.placed {l : List Slot} (h : Framed s g l) (hnodup : (l.map Slot.client).Nodup)
    (hown : ∀ p ∈ l, s.own p.client = i) (hlayout : (s.monitor i).layout ≠ .monocle) :
    ∀ p ∈ l, PlacedIn s i (l.foldl (place s) g p.client) p := by
  induction l generalizing g with
  | nil => exact fun p hp => (List.not_mem_nil hp).elim
  | cons q l ih =>
      obtain ⟨hfirst, hrest⟩ := h
      obtain ⟨hfresh, hnodup'⟩ := List.nodup_cons.mp hnodup
      intro p hp
      rcases List.mem_cons.mp hp with rfl | hp
      · -- no later slot is this client's
        have hkeep : l.foldl (place s) (place s g p) p.client = place s g p p.client :=
          foldl_of_notMem (fun g a (hne : p.client ≠ Slot.client a) => resize_of_ne hne) l _
            fun a ha heq => hfresh (heq ▸ List.mem_map_of_mem ha)
        have hi := hown p List.mem_cons_self
        rw [List.foldl_cons, hkeep, place]
        refine ⟨?_, ?_, fun hlone => ?_⟩
        · rw [corner_resize.1, hfirst]
          rfl
        · rw [corner_resize.2, hfirst]
          rfl
        · have hmon : s.monOf p.client = s.monitor i := congrArg s.monitor hi
          rw [hfirst]
          exact rect_resize (by rw [hi]; exact hlone) (by rw [hmon]; exact hlayout)
      · exact ih hrest hnodup' (fun q hq => hown q (List.mem_cons_of_mem _ hq)) p hp

/-! ## What is wanted of the slots -/

/-- Every client is placed in a slot, the slots are in the window area, none is asked
to be larger than it, and those that are a client's own do not meet. -/
structure SlotsFit (s : State) (i : MonId) (g : Geoms) : Prop where
  placed : ∀ c ∈ s.tiled i, ∃ p ∈ tileSlots s i g, p.client = c ∧ PlacedIn s i (tile s i g c) p
  inside : ∀ p ∈ tileSlots s i g,
    p.frame.points.Nonempty ∧ p.frame.points ⊆ (s.monitor i).area.points
  size : ∀ p ∈ tileSlots s i g, p.rect.w ≤ (s.monitor i).ww ∧ p.rect.h ≤ (s.monitor i).wh
  disjoint : (tileSlots s i g).Pairwise fun p q =>
    p.own = true → q.own = true → Disjoint p.frame.points q.frame.points

/-- **Every tiled client is placed** in its slot. -/
theorem tile_placed (hnodup : (s.tiled i).Nodup) (hown : ∀ c ∈ s.tiled i, s.own c = i)
    (hlayout : (s.monitor i).layout ≠ .monocle) :
    ∀ c ∈ s.tiled i, ∃ p ∈ tileSlots s i g, p.client = c ∧ PlacedIn s i (tile s i g c) p := by
  intro c hc
  obtain ⟨hframed, hclients⟩ := tileSlots_framed (s := s) (i := i) (g := g)
  have hmem : c ∈ (tileSlots s i g).map Slot.client := by
    rw [hclients]
    exact hc
  obtain ⟨p, hp, rfl⟩ := List.mem_map.mp hmem
  refine ⟨p, hp, rfl, ?_⟩
  rw [tile_eq]
  refine hframed.placed (hclients ▸ hnodup) (fun q hq => hown _ ?_) hlayout p hp
  rw [← hclients]
  exact List.mem_map_of_mem hq

end Dwm
