import Zzdwm.Dwm.Frames

/-!
# What the layouts leave alone

A layout only places the clients that `nexttiled` stops at, and `showhide`
only floating clients that are not fullscreen.

* `arrangemon_of_untiled` — a client that is not tiled keeps its geometry;
* `arrange_of_held` — a fullscreen client keeps its geometry in every
  `arrange`;
* `arrange_of_fits` — so does a floating one whose geometry satisfies
  `applysizehints`.
-/

namespace Dwm

variable {s : State} {c d : ClientId} {g : Geoms} {i : MonId}

theorem resizeclient_of_ne {r : Rect} (h : c ≠ d) : resizeclient s d r g c = g c := by
  unfold resizeclient
  dsimp only
  split <;> exact Function.update_of_ne h ..

theorem resize_of_ne {r : Rect} {b : Bool} (h : c ≠ d) : resize s d r b g c = g c := by
  unfold resize
  cases applysizehints s g d r b with
  | none => rfl
  | some r => exact resizeclient_of_ne h

/-- A loop over clients that only places the client it has reached. -/
theorem foldl_of_notMem {A : Type} {key : A → ClientId} {place : Geoms → A → Geoms}
    (hplace : ∀ g a, c ≠ key a → place g a c = g c) (l : List A) (g : Geoms)
    (hc : ∀ a ∈ l, c ≠ key a) : l.foldl place g c = g c := by
  induction l generalizing g with
  | nil => rfl
  | cons a l ih =>
      have hrest := ih (place g a) fun b hb => hc b (List.mem_cons_of_mem a hb)
      exact hrest.trans (hplace g a (hc a List.mem_cons_self))

theorem tileGaps_of_notMem {m : Monitor} {n maxn mw j my ty : Int} {ms : Rect}
    {cs : List ClientId} (hc : c ∉ cs) :
    tileGaps s m n maxn mw j cs my ty ms g c = g c := by
  induction cs generalizing j my ty ms g with
  | nil => rfl
  | cons d cs ih =>
      obtain ⟨hd, hcs⟩ := not_or.mp (mt List.mem_cons.mpr hc)
      rw [tileGaps]
      dsimp only
      split
      · exact (ih hcs).trans (resize_of_ne hd)
      · split
        · exact (ih hcs).trans (resize_of_ne hd)
        · repeat' split
          all_goals exact (ih hcs).trans (resize_of_ne hd)

theorem tileBare_of_notMem {m : Monitor} {n maxn mw j my ty : Int} {ms : Rect}
    {cs : List ClientId} (hc : c ∉ cs) :
    tileBare s m n maxn mw j cs my ty ms g c = g c := by
  induction cs generalizing j my ty ms g with
  | nil => rfl
  | cons d cs ih =>
      obtain ⟨hd, hcs⟩ := not_or.mp (mt List.mem_cons.mpr hc)
      rw [tileBare]
      dsimp only
      split
      · exact (ih hcs).trans (resize_of_ne hd)
      · split
        · exact (ih hcs).trans (resize_of_ne hd)
        · repeat' split
          all_goals exact (ih hcs).trans (resize_of_ne hd)

theorem bstackGaps_of_notMem {m : Monitor} {n maxn mh j mx tx : Int} {ms : Rect}
    {cs : List ClientId} (hc : c ∉ cs) :
    bstackGaps s m n maxn mh j cs mx tx ms g c = g c := by
  induction cs generalizing j mx tx ms g with
  | nil => rfl
  | cons d cs ih =>
      obtain ⟨hd, hcs⟩ := not_or.mp (mt List.mem_cons.mpr hc)
      rw [bstackGaps]
      dsimp only
      split
      · exact (ih hcs).trans (resize_of_ne hd)
      · split
        · exact (ih hcs).trans (resize_of_ne hd)
        · repeat' split
          all_goals exact (ih hcs).trans (resize_of_ne hd)

theorem bstackBare_of_notMem {m : Monitor} {n mh tw ty j mx tx : Int}
    {cs : List ClientId} (hc : c ∉ cs) :
    bstackBare s m n mh tw ty j cs mx tx g c = g c := by
  induction cs generalizing j mx tx g with
  | nil => rfl
  | cons d cs ih =>
      obtain ⟨hd, hcs⟩ := not_or.mp (mt List.mem_cons.mpr hc)
      rw [bstackBare]
      dsimp only
      split
      · exact (ih hcs).trans (resize_of_ne hd)
      · exact (ih hcs).trans (resize_of_ne hd)

theorem tile_of_notMem (hc : c ∉ s.tiled i) (g : Geoms) : tile s i g c = g c := by
  unfold tile
  dsimp only
  split
  · rfl
  · split
    · exact tileGaps_of_notMem hc
    · exact tileBare_of_notMem hc

theorem bstack_of_notMem (hc : c ∉ s.tiled i) (g : Geoms) : bstack s i g c = g c := by
  unfold bstack
  dsimp only
  split
  · rfl
  · split
    · exact bstackGaps_of_notMem hc
    · split
      · exact bstackBare_of_notMem hc
      · exact bstackBare_of_notMem hc

theorem monocle_of_notMem (hc : c ∉ s.tiled i) (g : Geoms) : monocle s i g c = g c := by
  refine foldl_of_notMem (fun g a ha => ?_) (s.tiled i) g fun a ha hca => hc (hca ▸ ha)
  split
  · exact resize_of_ne ha
  · exact resize_of_ne ha

/-- The loops that count the clients they place. -/
theorem foldl_zipIdx_of_notMem {place : Geoms → ClientId × Nat → Geoms} {cs : List ClientId}
    (hplace : ∀ g a, c ≠ a.1 → place g a c = g c) (hc : c ∉ cs) (g : Geoms) :
    cs.zipIdx.foldl place g c = g c :=
  foldl_of_notMem hplace _ g fun _ ha hca => hc (hca ▸ List.fst_mem_of_mem_zipIdx ha)

theorem doubledeck_of_notMem (hc : c ∉ s.tiled i) (g : Geoms) : doubledeck s i g c = g c := by
  refine foldl_zipIdx_of_notMem (fun g a ha => ?_) hc g
  dsimp only
  split
  · exact resize_of_ne ha
  · exact resize_of_ne ha

theorem zetadeck_of_notMem (hc : c ∉ s.tiled i) (g : Geoms) : zetadeck s i g c = g c := by
  refine foldl_zipIdx_of_notMem (fun g a ha => ?_) hc g
  dsimp only
  split
  · exact resize_of_ne ha
  · exact resize_of_ne ha

theorem grid_of_notMem (hc : c ∉ s.tiled i) (g : Geoms) : grid s i g c = g c := by
  unfold grid
  dsimp only
  split
  · exact foldl_zipIdx_of_notMem (fun g a ha => resize_of_ne ha) hc g
  · exact foldl_zipIdx_of_notMem (fun g a ha => resize_of_ne ha) hc g

/-- **A client that is not tiled** keeps its geometry in every layout. -/
theorem arrangemon_of_untiled (h : s.isTiled c = false) (i : MonId) (g : Geoms) :
    arrangemon s i g c = g c := by
  have hc : c ∉ s.tiled i := by
    intro hmem
    have htiled := (List.mem_filter.mp hmem).2
    rw [h] at htiled
    cases htiled
  unfold arrangemon
  cases (s.monitor i).layout with
  | tile => exact tile_of_notMem hc g
  | floating => rfl
  | monocle => exact monocle_of_notMem hc g
  | grid => exact grid_of_notMem hc g
  | doubledeck => exact doubledeck_of_notMem hc g
  | zetadeck => exact zetadeck_of_notMem hc g
  | bstack => exact bstack_of_notMem hc g
  | clear => rfl

/-- The geometry that a client has satisfies `applysizehints`. -/
def Fits (s : State) (g : Geoms) (c : ClientId) : Prop :=
  applysizehints s g c ⟨(g c).x, (g c).y, (g c).w, (g c).h⟩ false = none

/-- `applysizehints` reads no other client's geometry. -/
theorem applysizehints_congr {g' : Geoms} (h : g' c = g c) (r : Rect) (b : Bool) :
    applysizehints s g' c r b = applysizehints s g c r b := by
  unfold applysizehints
  rw [h]

theorem Fits.congr {g' : Geoms} (h : Fits s g c) (hg : g' c = g c) : Fits s g' c := by
  unfold Fits
  rw [applysizehints_congr hg, hg]
  exact h

/-- `showhide` leaves a client alone that it does not place or that fits. -/
theorem showhide_of_fits (h : s.visible c = true → (s.client c).isfullscreen = false →
    Fits s g c) (cs : List ClientId) : showhide s cs g c = g c := by
  unfold showhide
  induction cs generalizing g with
  | nil => rfl
  | cons d cs ih =>
      have hstep : (if s.visible d && (!(s.monOf d).layout.arranges || (s.client d).isfloating)
          && !(s.client d).isfullscreen then
          resize s d ⟨(g d).x, (g d).y, (g d).w, (g d).h⟩ false g else g) c = g c := by
        split
        · rename_i hd
          by_cases hcd : c = d
          · subst hcd
            simp only [Bool.and_eq_true, Bool.not_eq_true'] at hd
            have hfit := h hd.1.1 hd.2
            unfold resize
            rw [hfit]
          · exact resize_of_ne hcd
        · rfl
      rw [List.foldl_cons]
      refine (ih fun hv hf => (h hv hf).congr hstep).trans hstep

/-- **A floating client that fits**, or is out of view or fullscreen, keeps its
geometry when its monitor is arranged. -/
theorem arrange_of_fits (hfloat : (s.client c).isfloating = true)
    (h : s.visible c = true → (s.client c).isfullscreen = false → Fits s s.geom c)
    (m : Option MonId) : (arrange m s).geom c = s.geom c := by
  have huntiled : s.isTiled c = false := by
    rw [State.isTiled, hfloat]
    rfl
  have hshow : ∀ (ms : List MonId) (g : Geoms), g c = s.geom c →
      ms.foldl (fun g i => showhide s (s.monitor i).stack g) g c = s.geom c := by
    intro ms
    induction ms with
    | nil => exact fun _ hg => hg
    | cons i ms ih =>
        intro g hg
        exact ih _ ((showhide_of_fits (fun hv hf => (h hv hf).congr hg) _).trans hg)
  have hplace : ∀ (ms : List MonId) (g : Geoms), g c = s.geom c →
      ms.foldl (fun g i => arrangemon s i g) g c = s.geom c := by
    intro ms
    induction ms with
    | nil => exact fun _ hg => hg
    | cons i ms ih => exact fun g hg => ih _ ((arrangemon_of_untiled huntiled i g).trans hg)
  exact hplace _ _ (hshow _ _ rfl)

/-- **A fullscreen client** is floating, and no `arrange` places it. -/
theorem arrange_of_held (hfloat : (s.client c).isfloating = true)
    (hfull : (s.client c).isfullscreen = true) (m : Option MonId) :
    (arrange m s).geom c = s.geom c := by
  refine arrange_of_fits hfloat (fun _ hf => ?_) m
  rw [hfull] at hf
  cases hf

end Dwm
