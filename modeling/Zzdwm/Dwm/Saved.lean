import Zzdwm.Dwm.Layouts
import Zzdwm.Dwm.Screens

/-!
# The geometry a fullscreen client saves

`setfullscreen` saves the geometry of a client in `oldx` … `oldh` and `oldbw`
and the floating state in `oldstate`.  `resizeclient`, `configurerequest`,
`moveclient` and `maximize` write to the same fields.

* `Saved c k s` — the client `c` is fullscreen and has `k` saved;
* `Saved.arrange`, `Saved.focus`, … — what leaves that alone;
* `Saved.maximize`, `Saved.settle`, `Saved.refill`, … — the routines that may
  overwrite it, each with the condition under which it does not.
-/

namespace Dwm

open Machine

variable {s t : State} {c d : ClientId} {m : MonId}

/-- What `setfullscreen` saves of the geometry. -/
structure Save where
  rect : Rect
  bw : Int

/-- `oldx` … `oldh` of a client. -/
def State.oldrect (s : State) (c : ClientId) : Rect :=
  ⟨(s.geom c).oldx, (s.geom c).oldy, (s.geom c).oldw, (s.geom c).oldh⟩

/-- A fullscreen client that was floating before, and what it has saved. -/
structure Saved (c : ClientId) (k : Save) (s : State) : Prop where
  live : s.live c = true
  full : (s.client c).isfullscreen = true
  float : (s.client c).isfloating = true
  oldstate : (s.client c).oldstate = true
  old : s.oldrect c = k.rect
  oldbw : (s.geom c).oldbw = k.bw

variable {k : Save}

/-- Nothing of the client is touched. -/
theorem Saved.same (h : Saved c k s) (hlive : t.live c = s.live c)
    (hclient : t.client c = s.client c) (hgeom : t.geom c = s.geom c) : Saved c k t where
  live := hlive.trans h.live
  full := hclient ▸ h.full
  float := hclient ▸ h.float
  oldstate := hclient ▸ h.oldstate
  old := by
    rw [State.oldrect, hgeom]
    exact h.old
  oldbw := hgeom ▸ h.oldbw

theorem Saved.ite {p : Prop} [Decidable p] (ht : Saved c k s) (hu : Saved c k t) :
    Saved c k (if p then s else t) := by
  split
  · exact ht
  · exact hu

/-! ## Routines that leave it alone -/

theorem Saved.modMon {f : Monitor → Monitor} (h : Saved c k s) : Saved c k (s.modMon m f) :=
  h.same rfl rfl rfl

theorem Saved.modSettings {f : Settings → Settings} (h : Saved c k s) :
    Saved c k (s.modSettings m f) := h.modMon

theorem Saved.withSelmon (h : Saved c k s) : Saved c k { s with selmon := m } :=
  h.same rfl rfl rfl

theorem Saved.unfocus {o : Option ClientId} (h : Saved c k s) : Saved c k (unfocus o s) := by
  cases o <;> exact h.same rfl rfl rfl

theorem Saved.detach (h : Saved c k s) : Saved c k (detach d s) := h.modMon

theorem Saved.detachstack (h : Saved c k s) : Saved c k (detachstack d s) := by
  unfold Dwm.detachstack
  exact .ite h.modMon.modMon h.modMon

theorem Saved.attach (h : Saved c k s) : Saved c k (attach d s) := h.modMon

theorem Saved.attachstack (h : Saved c k s) : Saved c k (attachstack d s) := h.modMon

theorem Saved.attachx {n : Nat} (h : Saved c k s) : Saved c k (attachx n d s) := by
  obtain ⟨f, heq, -⟩ := attachx_eq n d s
  rw [heq]
  exact h.modMon

theorem Saved.focus {o : Option ClientId} (h : Saved c k s) : Saved c k (focus o s) := by
  unfold Dwm.focus
  have hun : Saved c k (if s.sel ≠ none ∧ s.sel ≠ focusTarget o s then Dwm.unfocus s.sel s
      else s) := .ite h.unfocus h
  dsimp only
  split
  · exact hun.withSelmon.detachstack.attachstack.modMon
  · exact hun.modMon

theorem Saved.arrange {o : Option MonId} (h : Saved c k s) : Saved c k (arrange o s) :=
  h.same rfl rfl (arrange_of_held h.float h.full o)

theorem Saved.arrangesel (h : Saved c k s) : Saved c k (arrangesel s) := h.arrange

theorem Saved.rearrange (h : Saved c k s) : Saved c k (rearrange m s) := by
  refine h.same rfl rfl (arrangemon_of_untiled ?_ m s.geom)
  rw [State.isTiled, h.float]
  rfl

/-- An assignment to a client that leaves its floating and fullscreen states
alone. -/
class KeepsFull (f : Client → Client) : Prop where
  full : ∀ k, (f k).isfullscreen = k.isfullscreen
  float : ∀ k, (f k).isfloating = k.isfloating
  oldstate : ∀ k, (f k).oldstate = k.oldstate

instance (e : Client → Seat) (a b i : Client → Bool) :
    KeepsFull fun k => ⟨e k, a k, b k, i k, k.isfloating, k.oldstate, k.isfullscreen⟩ :=
  ⟨fun _ => rfl, fun _ => rfl, fun _ => rfl⟩

theorem Saved.modClient {f : Client → Client} [KeepsFull f] (h : Saved c k s) :
    Saved c k (s.modClient d f) := by
  have hclient : ((s.modClient d f).client c).isfullscreen = (s.client c).isfullscreen ∧
      ((s.modClient d f).client c).isfloating = (s.client c).isfloating ∧
      ((s.modClient d f).client c).oldstate = (s.client c).oldstate := by
    by_cases hcd : c = d
    · subst hcd
      simp [State.modClient, KeepsFull.full, KeepsFull.float, KeepsFull.oldstate]
    · simp [State.modClient, hcd]
  obtain ⟨hfull, hfloat, hold⟩ := hclient
  exact ⟨h.live, hfull.trans h.full, hfloat.trans h.float, hold.trans h.oldstate, h.old, h.oldbw⟩

/-- A client that is made floating. -/
theorem Saved.makeFloating (h : Saved c k s) :
    Saved c k (s.modClient d fun k => { k with isfloating := true }) := by
  by_cases hcd : c = d
  · subst hcd
    refine ⟨h.live, ?_, ?_, ?_, h.old, h.oldbw⟩
    · simpa [State.modClient] using h.full
    · simp [State.modClient]
    · simpa [State.modClient] using h.oldstate
  · exact h.same rfl (by simp [State.modClient, hcd]) rfl

theorem Saved.modClient_of_ne {f : Client → Client} (h : Saved c k s) (hd : c ≠ d) :
    Saved c k (s.modClient d f) := h.same rfl (Function.update_of_ne hd ..) rfl

theorem Saved.modGeom_of_ne {f : Geom → Geom} (h : Saved c k s) (hd : c ≠ d) :
    Saved c k (s.modGeom d f) := h.same rfl rfl (Function.update_of_ne hd ..)

theorem Saved.resize_of_ne {r : Rect} {b : Bool} (h : Saved c k s) (hd : c ≠ d) :
    Saved c k (s.resize d r b) := h.same rfl rfl (Dwm.resize_of_ne hd)

theorem Saved.resizeclient_of_ne {r : Rect} (h : Saved c k s) (hd : c ≠ d) :
    Saved c k (s.resizeclient d r) := h.same rfl rfl (Dwm.resizeclient_of_ne hd)

/-! ## Routines that place the client -/

/-- The saved geometry is the one the client has. -/
def AtHome (c : ClientId) (s : State) : Prop := s.rect c = s.oldrect c

/-- A fullscreen client gets the rectangle it is given. -/
theorem geom_resizeclient (hfull : (s.client c).isfullscreen = true) (r : Rect) :
    (s.resizeclient c r).geom c = { s.geom c with
      oldx := (s.geom c).x, x := r.x, oldy := (s.geom c).y, y := r.y
      oldw := (s.geom c).w, w := r.w, oldh := (s.geom c).h, h := r.h } := by
  simp [State.resizeclient, resizeclient, hfull]

/-- **`resizeclient`** saves the geometry that the client has. -/
theorem Saved.resizeclient {r : Rect} (h : Saved c k s) (hhome : AtHome c s) :
    Saved c k (s.resizeclient c r) := by
  have hgeom := geom_resizeclient h.full r
  refine ⟨h.live, h.full, h.float, h.oldstate, ?_, ?_⟩
  · rw [← h.old, ← hhome]
    simp only [State.oldrect, State.rect, hgeom]
  · rw [hgeom]
    exact h.oldbw

theorem Saved.resize {r : Rect} {b : Bool} (h : Saved c k s)
    (hhome : AtHome c s ∨ applysizehints s s.geom c r b = none) : Saved c k (s.resize c r b) := by
  cases hhints : applysizehints s s.geom c r b with
  | none =>
      have heq : s.resize c r b = s := by
        rw [State.resize, Dwm.resize, hhints]
      rw [heq]
      exact h
  | some r' =>
      have heq : s.resize c r b = s.resizeclient c r' := by
        rw [State.resize, Dwm.resize, hhints]
        rfl
      rw [heq]
      refine h.resizeclient (hhome.resolve_right fun hnone => ?_)
      rw [hhints] at hnone
      cases hnone

/-- `moveclient` moves the selected client, unless that cannot be resized. -/
theorem Saved.moveclient {r : Rect} (h : Saved c k s)
    (hsel : s.sel = some c → (s.client c).isfixed = true) : Saved c k (moveclient r s) := by
  unfold Dwm.moveclient
  split
  · rename_i d hd
    by_cases hcd : c = d
    · subst hcd
      rw [if_pos (hsel hd)]
      exact h
    · exact .ite h (.ite ((h.modGeom_of_ne hcd).resize_of_ne hcd) h)
  · exact h

/-- `togglefloating` does nothing to a fullscreen client. -/
theorem Saved.togglefloating (h : Saved c k s) : Saved c k (togglefloating s) := by
  unfold Dwm.togglefloating
  split
  · rename_i d hd
    by_cases hcd : c = d
    · subst hcd
      rw [if_pos h.full]
      exact h
    · refine .ite h ?_
      have hmod : Saved c k (s.modClient d fun k =>
          { k with isfloating := !k.isfloating || k.isfixed }) := h.modClient_of_ne hcd
      exact ((Saved.ite (hmod.resize_of_ne hcd) hmod).modGeom_of_ne hcd).arrangesel
  · exact h

/-- `maximize` leaves the saved geometry alone: the selected client is another
one or cannot be resized, or it has the saved geometry, or it goes back and
that makes no difference. -/
def MaximizeSpares (c : ClientId) (s : State) : Prop :=
  s.sel = some c → (s.client c).isfixed = true ∨ AtHome c s ∨
    (s.client c).ismax = true ∧ applysizehints s s.geom c (s.oldrect c) true = none

/-- **`maximize`** uses the fields of the saved geometry for its own. -/
theorem Saved.maximize {r : Rect} (h : Saved c k s) (hc : MaximizeSpares c s) :
    Saved c k (maximize r s) := by
  unfold Dwm.maximize
  split
  · rename_i d hd
    by_cases hcd : c = d
    · subst hcd
      split
      · exact h
      · rename_i hfixed
        have hhome := (hc hd).resolve_left hfixed
        split
        · rename_i hmax
          have hhome := hhome.resolve_right fun hback => by
            rw [hback.1] at hmax
            cases hmax
          have hfloat : (!s.arranges || (s.client c).isfloating) = true := by
            rw [h.float, Bool.or_true]
          dsimp only
          rw [if_pos hfloat]
          have hmod : Saved c k (s.modClient c fun k => { k with wasfloating := true }) :=
            h.modClient
          have hhome' : AtHome c (s.modClient c fun k => { k with wasfloating := true }) := hhome
          generalize s.modClient c (fun k => { k with wasfloating := true }) = u at hmod hhome'
          have hsave : Saved c k (u.modGeom c fun g =>
              { g with oldx := g.x, oldy := g.y, oldw := g.w, oldh := g.h }) := by
            refine ⟨hmod.live, hmod.full, hmod.float, hmod.oldstate, ?_, ?_⟩
            · rw [← hmod.old, ← hhome']
              simp [State.oldrect, State.rect, State.modGeom]
            · simpa [State.modGeom] using hmod.oldbw
          have hat : AtHome c (u.modGeom c fun g =>
              { g with oldx := g.x, oldy := g.y, oldw := g.w, oldh := g.h }) := by
            simp [AtHome, State.oldrect, State.rect, State.modGeom]
          exact (hsave.resize (Or.inl hat)).modClient
        · have hres : Saved c k (s.resize c (s.oldrect c) true) :=
            h.resize (hhome.imp id And.right)
          exact (Saved.ite hres.togglefloating hres).modClient
    · refine .ite h (.ite ?_ ?_)
      · have hfloat : Saved c k (if (!s.arranges || (s.client d).isfloating) = true then
            s.modClient d fun k => { k with wasfloating := true }
            else (Dwm.togglefloating s).modClient d fun k => { k with wasfloating := false }) :=
          .ite h.modClient h.togglefloating.modClient
        exact ((hfloat.modGeom_of_ne hcd).resize_of_ne hcd).modClient
      · have hres : Saved c k (s.resize d (s.oldrect d) true) := h.resize_of_ne hcd
        exact (Saved.ite hres.togglefloating hres).modClient
  · exact h

/-- A client that is not made to leave fullscreen. -/
theorem Saved.setfullscreen {b : Bool} (h : Saved c k s) (hc : c = d → b = true) :
    Saved c k (setfullscreen d b s) := by
  unfold Dwm.setfullscreen
  by_cases hcd : c = d
  · subst hcd
    rw [hc rfl, h.full]
    exact h
  · have hmod : ∀ f : Client → Client, Saved c k (s.modClient d f) := fun f =>
      h.modClient_of_ne hcd
    refine .ite ?_ (.ite ?_ h)
    · exact ((hmod _).modGeom_of_ne hcd).resizeclient_of_ne hcd
    · exact (((hmod _).modGeom_of_ne hcd).resizeclient_of_ne hcd).arrange

theorem Saved.setsticky {b : Bool} (h : Saved c k s) : Saved c k (setsticky d b s) := by
  unfold Dwm.setsticky
  exact .ite h.modClient (.ite h.modClient.arrange h)

theorem Saved.updatewindowtype {n : NetState} {b : Bool} (h : Saved c k s) :
    Saved c k (updatewindowtype d n b s) := by
  have hdialog : ∀ {u : State}, Saved c k u → Saved c k (if b then
      u.modClient d fun k => { k with isfloating := true } else u) :=
    fun hu => .ite hu.makeFloating hu
  cases n with
  | fullscreen => exact hdialog (h.setfullscreen fun _ => rfl)
  | sticky => exact hdialog h.setsticky
  | other => exact hdialog h

/-- New hints leave the saved geometry alone: they ask for the saved border,
and the client keeps its place. -/
def MotifSpares (c : ClientId) (border : Option Bool) (s : State) : Prop :=
  ∀ b, decorhints = true → border = some b →
    let bw := if b then borderpx else 0
    let t := s.modGeom c fun g => { g with bw := bw, oldbw := bw }
    (s.geom c).oldbw = bw ∧ (AtHome c s ∨ applysizehints t t.geom c
      ⟨(s.geom c).x, (s.geom c).y, (s.geom c).width - 2 * bw, (s.geom c).height - 2 * bw⟩
      false = none)

/-- **`updatemotifhints`** writes to the saved border width. -/
theorem Saved.updatemotifhints {border : Option Bool} (h : Saved c k s)
    (hc : c = d → MotifSpares c border s) : Saved c k (updatemotifhints d border s) := by
  unfold Dwm.updatemotifhints
  split
  · rename_i b hdecor
    by_cases hcd : c = d
    · subst hcd
      obtain ⟨hbw, hhome⟩ := hc rfl _ hdecor rfl
      have hat : AtHome c s → AtHome c (s.modGeom c fun g => { g with
          bw := if b then borderpx else 0, oldbw := if b then borderpx else 0 }) := by
        intro hat
        simpa [AtHome, State.rect, State.oldrect, State.modGeom] using hat
      refine Saved.resize ?_ (hhome.imp hat id)
      refine ⟨h.live, h.full, h.float, h.oldstate, ?_, ?_⟩
      · rw [← h.old]
        simp [State.oldrect, State.modGeom]
      · rw [← h.oldbw, hbw]
        simp [State.modGeom]
    · exact (h.modGeom_of_ne hcd).resize_of_ne hcd
  · exact h

/-- A configure request asks for no field that it would overwrite the saved
one of. -/
def RequestSpares (c : ClientId) (w : Window) (r : ConfRequest) (s : State) : Prop :=
  s.wintoclient w = some c → r.border = none →
    (r.x ≠ none → (s.geom c).x = (s.geom c).oldx) ∧
    (r.y ≠ none → (s.geom c).y = (s.geom c).oldy) ∧
    (r.width ≠ none → (s.geom c).w = (s.geom c).oldw) ∧
    (r.height ≠ none → (s.geom c).h = (s.geom c).oldh)

/-- What a configure request saves. -/
theorem ConfRequest.old_place (r : ConfRequest) (m : Monitor) (b : Bool) (g : Geom) :
    (r.place m b g).oldx = (if r.x = none then g.oldx else g.x) ∧
    (r.place m b g).oldy = (if r.y = none then g.oldy else g.y) ∧
    (r.place m b g).oldw = (if r.width = none then g.oldw else g.w) ∧
    (r.place m b g).oldh = (if r.height = none then g.oldh else g.h) ∧
    (r.place m b g).oldbw = g.oldbw := by
  obtain ⟨x, y, w, h, bw⟩ := r
  unfold ConfRequest.place
  cases x <;> cases y <;> cases w <;> cases h <;> dsimp only <;> split <;> split <;>
    exact ⟨rfl, rfl, rfl, rfl, rfl⟩

/-- **`configurerequest`** saves every field that it sets. -/
theorem Saved.configurerequest {w : Window} {r : ConfRequest} (h : Saved c k s)
    (hc : RequestSpares c w r s) : Saved c k (configurerequest w r s) := by
  unfold Dwm.configurerequest
  split
  · rename_i d hd
    by_cases hcd : c = d
    · subst hcd
      have hold := h.old
      split
      · refine ⟨h.live, h.full, h.float, h.oldstate, ?_, ?_⟩
        · rw [← hold]
          simp [State.oldrect, State.modGeom]
        · rw [← h.oldbw]
          simp [State.modGeom]
      · rename_i hborder
        obtain ⟨hx, hy, hw, hh⟩ := hc hd hborder
        obtain ⟨px, py, pw, ph, pbw⟩ :=
          r.old_place (s.monOf c) (s.client c).isfloating (s.geom c)
        refine .ite ⟨h.live, h.full, h.float, h.oldstate, ?_, ?_⟩ h
        · rw [← hold]
          simp only [State.oldrect, State.modGeom, Function.update_self, px, py, pw, ph]
          have hkeep : ∀ (p : Prop) [Decidable p] (a b : Int), (¬ p → b = a) →
              (if p then a else b) = a := by
            intro p _ a b hab
            split
            · rfl
            · exact hab ‹_›
          rw [hkeep _ _ _ hx, hkeep _ _ _ hy, hkeep _ _ _ hw, hkeep _ _ _ hh]
        · rw [← h.oldbw]
          simp [State.modGeom, pbw]
    · split
      · exact h.modGeom_of_ne hcd
      · exact .ite (h.modGeom_of_ne hcd) h
  · exact h

end Dwm
