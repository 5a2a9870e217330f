import Zzdwm.Dwm.Marks
import Zzdwm.Dwm.Screens

/-!
# Marks are never left behind

The marks of the tags over whole runs.  `detach` forgets the mark of the last
tag, so a client that leaves its list while it is marked there leaves a
dangling mark; and `focusmaster` may mark a client that `rotatestack` has
dropped before.  A run in which neither happens keeps every mark on the list
of its monitor.

* `Straying s₀ c s` — what holds of the marks while `placemouse` carries `c`
  from monitor to monitor;
* `SparesMarks e s` — the event takes no client off its list that is marked
  for the last tag, and `focusmaster` marks clients of its list only;
* `marks_are_listed` — the runs under that guard.
-/

namespace Dwm

open Machine

variable {lost base : ClientId → Prop} {s t u : State} {c d r : ClientId} {m : MonId}

/-! ## Drags that end on another monitor -/

/-- A client that is released over another monitor is not marked for the last
tag of its own. -/
def Released (c : ClientId) (s : State) : Prop :=
  let r := s.rect c
  let m := recttomon r.x r.y r.w r.h s
  m ≠ s.selmon → Stays c m s

protected theorem MarksListed.followmon (h : MarksListed s) (hc : Released c s) :
    MarksListed (followmon c s) := by
  unfold Dwm.followmon
  dsimp only
  split
  · exact (h.sendmon (hc ‹_›)).kept (Kept.refl _).withSelmon.focus
  · exact h

/-- The event loop of `movemouse`, the pointer starting at `x` and `y`. -/
def moveLoop (d : Drag) (x y : Int) (c : ClientId) (s : State) : Except Fault State :=
  let r := s.rect c
  dragLoop id (fun s _ => s)
    (fun mx my => moveMotion c (r.x + (mx - x)) (r.y + (my - y))) d.events s

/-- The event loop of `resizemouse`. -/
def resizeLoop (d : Drag) (c : ClientId) (s : State) : Except Fault State :=
  let r := s.rect c
  let (x, y) := d.rootptr.getD (0, 0)
  dragLoop id (fun s _ => s) (fun mx my s =>
    if !s.arranges || (s.client c).isfloating then
      s.resize c { s.rect c with
        w := max (r.w + (mx - x)) 1, h := max (r.h + (my - y)) 1 } true
    else s) d.events s

/-- What `resizemouse` does after its loop: the fraction of the layout follows
the pointer unless the client is floating. -/
def resizeRelease (d : Drag) (c : ClientId) (s : State) : State :=
  if (s.client c).isfloating || !(s.monOf c).layout.arranges then s
  else arrangesel (s.modSettings s.selmon
    (Settings.resizemouse d.releaseroot.1 d.releaseroot.2))

/-- The event loop of `placemouse`. -/
def placeLoop (i : Int) (d : Drag) (x y : Int) (c : ClientId) (s : State) :
    Except Fault Placing :=
  dragLoop Placing.s (fun s p => { p with s := s })
    (placeMotion i d.wa x y c) d.events ⟨s, c, none, none⟩

/-- A drag of `movemouse` ends well for the marks. -/
def MoveSpares (d : Drag) (s : State) : Prop :=
  ∀ c x y t, s.sel = some c → (s.client c).isfullscreen = false → d.grabbed = true →
    d.rootptr = some (x, y) → moveLoop d x y c s = .ok t → Released c t

/-- A drag of `resizemouse` ends well for the marks. -/
def ResizeSpares (d : Drag) (s : State) : Prop :=
  ∀ c t, s.sel = some c → (s.client c).isfullscreen = false → d.grabbed = true →
    resizeLoop d c s = .ok t → Released c (resizeRelease d c t)

/-- The state in which the loop of `placemouse` starts. -/
def placeStart (c : ClientId) (s : State) : State :=
  (s.modClient c fun k => { k with isfloating := false }).modGeom c
    fun g => { g with beingmoved := true }

/-- A drag of `placemouse` ends well for the marks: wherever the client has
been meanwhile, one that is marked for the last tag of its monitor is released
over that monitor. -/
def PlaceSpares (i : Int) (d : Drag) (s : State) : Prop :=
  ∀ c x y p, s.sel = some c → (s.client c).isfullscreen = false → d.grabbed = true →
    d.rootptr = some (x, y) → placeLoop i d x y c (placeStart c s) = .ok p →
    Stays c (recttomon d.release.1 d.release.2 1 1 p.s) s

theorem kept_moveMotion (c : ClientId) (nx ny : Int) (s : State) :
    Kept s (moveMotion c nx ny s) := by
  unfold moveMotion
  dsimp only
  have hfloat : ∀ b : Bool, Kept s (if b then togglefloating s else s) := fun b =>
    .ite (kept_togglefloating s) (.refl s)
  exact .ite (hfloat _).resize (hfloat _)

/-- A loop whose motions keep the marks keeps the marks. -/
theorem kept_dragLoop {motion : Int → Int → State → State} (s : State)
    (hmotion : ∀ x y u, Kept u (motion x y u)) (es : List DragEvent) :
    Post (dragLoop id (fun s _ => s) motion es s) (Kept s) := by
  refine dragLoop_post (Kept s) (fun u w x hu => ?_) (fun u c w i hu => ?_)
    (fun u x y hu => hu.trans (hmotion x y u)) es (.refl s)
  · exact hu.trans (kept_configurerequest w x u)
  · exact (kept_maprequest c w i u).mono fun _ => hu.trans

protected theorem MarksListed.movemouse (d : Drag) (h : MarksListed s) (hd : MoveSpares d s) :
    Post (movemouse d s) MarksListed := by
  unfold Dwm.movemouse
  split
  · rename_i c hc
    split
    · exact (post_ok _).mpr h
    · rename_i hfull
      split
      · rename_i x y hgrab hptr
        have hloop : Post (moveLoop d x y c s) (fun t => Kept s t ∧ Released c t) := by
          intro t ht
          exact ⟨kept_dragLoop s (fun mx my u => kept_moveMotion c _ _ u) d.events t ht,
            hd c x y t hc (by simpa using hfull) hgrab hptr ht⟩
        exact hloop.bind fun t ht => (post_pure _).mpr ((h.kept ht.1).followmon ht.2)
      · exact (post_ok _).mpr h
  · exact (post_ok _).mpr h

protected theorem MarksListed.resizemouse (d : Drag) (h : MarksListed s)
    (hd : ResizeSpares d s) : Post (resizemouse d s) MarksListed := by
  have hrelease : ∀ c u, Kept u (resizeRelease d c u) := fun c u => by
    unfold resizeRelease
    exact .ite (.refl u) (Kept.refl u).modSettings.arrangesel
  unfold Dwm.resizemouse
  split
  · rename_i c hc
    split
    · exact (post_ok _).mpr h
    · rename_i hgo
      rw [Bool.or_eq_true, not_or] at hgo
      dsimp only
      split
      · exact (post_ok _).mpr h
      · have hloop : Post (resizeLoop d c s)
            (fun t => Kept s t ∧ Released c (resizeRelease d c t)) := by
          intro t ht
          exact ⟨kept_dragLoop s (fun mx my u => .ite (Kept.refl u).resize (.refl u))
              d.events t ht,
            hd c t hc (by simpa using hgo.1) (by simpa using hgo.2) ht⟩
        exact hloop.bind fun t ht =>
          (post_pure _).mpr (((h.kept ht.1).kept (hrelease c t)).followmon ht.2)
  · exact (post_ok _).mpr h

/-! ## Carrying a client around -/

/-- While `placemouse` carries the client `c`, no mark is new and only marks
with `c` may be off their lists: as long as `c` is not back on the list of its
first monitor, nothing but the mark of the last tag can be left there. -/
structure Straying (s₀ : State) (c : ClientId) (s : State) : Prop where
  mons : s.mons = s₀.mons
  fewer : Fewer s₀ s
  others : ∀ m ∈ s.mons, ∀ i, 1 ≤ i → i ≤ ntags → ∀ d, d ≠ c →
    s.marks m i = some d → d ∈ s.clientsOf m
  home : c ∈ s.clientsOf (s₀.own c) ∨
    ∀ i, 1 ≤ i → i < ntags → s.marks (s₀.own c) i ≠ some c

theorem Straying.kept {s₀ : State} (h : Straying s₀ c s) (hst : Kept s t) : Straying s₀ c t where
  mons := hst.mons.trans h.mons
  fewer := h.fewer.trans hst.fewer
  others := by
    intro m hm i hi hle d hd hmark
    rw [hst.mons] at hm
    rw [hst.marks] at hmark
    exact hst.clients m d (h.others m hm i hi hle d hd hmark)
  home := by
    rw [hst.marks]
    exact h.home.imp (hst.clients _ c) id

/-- It starts with every mark listed. -/
theorem MarksListed.straying (h : MarksListed s) (hc : Here s c) :
    Straying s c s where
  mons := rfl
  fewer := fun _ _ _ => id
  others := fun m hm i hi hle d _ hmark => h m hm i hi hle d hmark
  home := by
    by_cases hmem : c ∈ s.clientsOf (s.own c)
    · exact Or.inl hmem
    · exact Or.inr fun i hi hlt hmark => hmem (h _ hc.2 i hi (Nat.le_of_lt hlt) c hmark)

/-- Taking the client off its list clears its marks, all but the last one. -/
protected theorem Straying.detach {s₀ : State} (h : Straying s₀ c s)
    (hown : c ∈ s.clientsOf (s₀.own c) → s.own c = s₀.own c) : Straying s₀ c (detach c s) where
  mons := h.mons
  fewer := h.fewer.trans (fewer_detach c s)
  others := by
    intro m hm i hi hle d hd hmark
    exact mem_detach_of_ne (Or.inl hd)
      (h.others m hm i hi hle d hd (fewer_detach c s m i d hmark))
  home := by
    refine Or.inr fun i hi hlt hmark => ?_
    by_cases hback : s.own c = s₀.own c
    · rw [← hback] at hmark
      exact marks_detach_self hi hlt hmark
    · have hclean := h.home.resolve_left fun hmem => hback (hown hmem)
      exact hclean i hi hlt (fewer_detach c s _ i c hmark)

/-- It ends with every mark listed if the client is not marked for the last
tag of its first monitor or is back there. -/
theorem Straying.listed {s₀ : State} (h : Straying s₀ c s) (hs₀ : MarksListed s₀)
    (hfiled : Filed lost base s₀)
    (hlast : s₀.marks (s₀.own c) ntags = some c → c ∈ s.clientsOf (s₀.own c)) :
    MarksListed s := by
  intro m hm i hi hle d hmark
  by_cases hdc : d = c
  · subst hdc
    have hm₀ : m ∈ s₀.mons := h.mons ▸ hm
    have hold := h.fewer m i d hmark
    have hown : s₀.own d = m := (hfiled.here_of_mem hm₀ (hs₀ m hm₀ i hi hle d hold)).2
    subst hown
    rcases Nat.lt_or_eq_of_le hle with hlt | heq
    · exact h.home.resolve_right fun hclean => hclean i hi hlt hmark
    · exact hlast (heq ▸ hold)
  · exact h.others m hm i hi hle d hdc hmark

theorem linkAt_mem (above : Bool) (r c : ClientId) {l : List ClientId} (h : d ∈ l) :
    d ∈ linkAt above r c l :=
  (linkAt_perm above r c l).mem_iff.mpr (List.mem_cons_of_mem c h)

protected theorem Straying.reattach {s₀ : State} (above : Bool) (h : Straying s₀ c s)
    (hfiled : Filed lost base s) (hmon : s₀.own c ∈ s.mons) :
    Straying s₀ c (reattach above c r s) := by
  have hout : Straying s₀ c (detach c (detachstack c s)) := by
    refine (h.kept (Kept.refl s).detachstack).detach fun hmem => ?_
    rw [clientsOf_detachstack] at hmem
    have hback : (detachstack c s).own c = s.own c :=
      congrFun (Relinked.refl s).detachstack.own c
    exact hback.trans (hfiled.here_of_mem hmon hmem).2
  unfold Dwm.reattach
  generalize detach c (detachstack c s) = u at hout ⊢
  dsimp only
  have htag : Kept u (if u.own c ≠ u.own r then
      (rearrange (u.own c) u).modClient c fun k => { k with tags := (u.monOf r).tags }
      else u) := .ite (Kept.refl u).rearrange.modClient (.refl u)
  generalize (if u.own c ≠ u.own r then
      (rearrange (u.own c) u).modClient c fun k => { k with tags := (u.monOf r).tags }
      else u) = v at htag ⊢
  exact (hout.kept htag).kept
    (((Kept.refl v).modClient.modMon rfl fun d hd => linkAt_mem above r c hd).attachstack.rearrange)

/-- What holds in the loop of `placemouse`. -/
def Carried (lost base : ClientId → Prop) (s₀ : State) (c : ClientId) (s : State) : Prop :=
  Dragging lost base c s ∧ Straying s₀ c s

theorem Carried.placeAt {s₀ : State} (above : Bool) {p : Placing}
    (h : Carried lost base s₀ c p.s) (hs₀ : Here s₀ c) (hr : Here p.s r) (hne : r ≠ c) :
    Carried lost base s₀ c (placeAt above c r p).s := by
  refine ⟨h.1.placeAt above hr hne, ?_⟩
  unfold Dwm.placeAt
  split
  · exact h.2.reattach above h.1.1 (h.2.mons ▸ hs₀.2)
  · exact h.2

theorem Carried.placeMotion {s₀ : State} (i : Int) (wa : Rect) (x y mx my : Int) {p : Placing}
    (h : Carried lost base s₀ c p.s) (hs₀ : Here s₀ c) :
    Carried lost base s₀ c (placeMotion i wa x y c mx my p).s := by
  have hmoved : Carried lost base s₀ c { p.s with selmon := recttomon mx my 1 1 p.s } :=
    ⟨⟨h.1.1.withSelmon (recttomon_mem mx my 1 1 h.1.1.selmon), h.1.2⟩,
      h.2.kept (Kept.refl _).withSelmon⟩
  unfold Dwm.placeMotion
  dsimp only
  split
  · rename_i r hr
    split
    · exact hmoved
    · rename_i hne
      exact Carried.placeAt _ hmoved hs₀
        (hmoved.1.1.here_of_mem hmoved.1.1.selmon (recttoclient_mem hr)).1 hne
  · exact hmoved

theorem Straying.placeOn {s₀ : State} (h : Straying s₀ c s) (hfiled : Filed lost base s)
    (hmon : s₀.own c ∈ s.mons) : Straying s₀ c (placeOn c m s) := by
  unfold Dwm.placeOn
  split
  · have hout := h.detach fun hmem => (hfiled.here_of_mem hmon hmem).2
    exact hout.kept
      (Kept.refl _).detachstack.rearrange.modClient.attach.attachstack.withSelmon
  · exact h

theorem own_placeOn (c : ClientId) (m : MonId) (s : State) : (placeOn c m s).own c = m := by
  unfold placeOn
  split
  · dsimp only
    generalize rearrange (s.own c) (detachstack c (detach c s)) = u
    have hrel : Relinked (u.modClient c fun k => { k with mon := m, tags := (u.monitor m).tags })
        (attachstack c (attach c
          (u.modClient c fun k => { k with mon := m, tags := (u.monitor m).tags }))) :=
      (Relinked.refl _).attach.attachstack
    have hown := congrFun hrel.own c
    rw [own_modClient_self] at hown
    exact hown
  · rename_i hm
    exact (not_not.mp hm).symm

/-- A client that is not lost is on the list of its monitor. -/
theorem Filed.mem_clientsOf (h : Filed lost base s) (hc : Here s c) (hl : ¬ lost c) :
    c ∈ s.clientsOf (s.own c) := by
  obtain ⟨outC, hle, hinv⟩ := h.inv
  exact hinv.clients.listed c hc.1 hc.2 fun ho => hl (hle c ho)

protected theorem MarksListed.placemouse (i : Int) (d : Drag) (h : MarksListed s)
    (hfiled : Filed lost base s) (hd : PlaceSpares i d s) :
    Post (placemouse i d s) MarksListed := by
  unfold Dwm.placemouse
  split
  · rename_i c hc
    split
    · exact (post_ok _).mpr h
    · rename_i hgo
      rw [Bool.or_eq_true, Bool.or_eq_true, not_or, not_or] at hgo
      have hfull : (s.client c).isfullscreen = false := by simpa using hgo.1.2
      have hgrab : d.grabbed = true := by simpa using hgo.2
      have hkept : Kept s (placeStart c s) := (Kept.refl s).modClient.modGeom
      have hredrawn : Redrawn s (placeStart c s) := (Redrawn.refl s).modClient.modGeom
      have h₀ : MarksListed (placeStart c s) := h.kept hkept
      -- the clients that are off their list now are all that can be off it later
      obtain ⟨outC, -, hinv⟩ := hfiled.inv
      have hout : Filed outC base (placeStart c s) :=
        Filed.redrawn ⟨⟨outC, fun _ => id, hinv⟩, hfiled.selmon, hfiled.alive⟩ hredrawn
      have hhere : Here (placeStart c s) c := (hfiled.here_of_sel hc).1.unmoved hredrawn.unmoved
      have hown : (placeStart c s).own c = s.own c := congrFun hredrawn.unmoved.own c
      dsimp only
      split
      · rename_i x y hptr
        change Post (placeLoop i d x y c (placeStart c s) >>= fun p => pure (placeEnd d c p)) _
        have hloop : Post (placeLoop i d x y c (placeStart c s)) fun p =>
            Carried outC base (placeStart c s) c p.s ∧
              Stays c (recttomon d.release.1 d.release.2 1 1 p.s) s := by
          intro p hp
          refine ⟨?_, hd c x y p hc hfull hgrab hptr hp⟩
          refine dragLoop_post (fun p : Placing => Carried outC base (placeStart c s) c p.s)
            (fun p w x hp => ?_) (fun p c' w i hp => ?_)
            (fun p mx my hp => hp.placeMotion _ _ _ _ _ _ hhere) d.events
            (a := Placing.mk _ c none none)
            ⟨hout.dragging hhere, h₀.straying hhere⟩ p hp
          · exact ⟨hp.1.redrawn (redrawn_configurerequest w x p.s),
              hp.2.kept (kept_configurerequest w x p.s)⟩
          · intro t ht
            exact ⟨hp.1.maprequest c' w i t ht, hp.2.kept (kept_maprequest c' w i p.s t ht)⟩
        refine hloop.bind fun p hp => (post_pure _).mpr ?_
        obtain ⟨⟨hdrag, hstray⟩, hstays⟩ := hp
        have hmon := recttomon_mem d.release.1 d.release.2 1 1 hdrag.1.selmon
        obtain ⟨hfiled', hhere'⟩ := hdrag.filed.placeOn hdrag.2 hmon
        have hstray' := hstray.placeOn (m := recttomon d.release.1 d.release.2 1 1 p.s)
          hdrag.1 (hstray.mons ▸ hhere.2)
        have hend := hstray'.listed h₀ hout fun hmark => by
          rw [hown] at hmark ⊢
          have hlisted : c ∈ s.clientsOf (s.own c) :=
            h (s.own c) (hown ▸ hhere.2) ntags (by decide) (Nat.le_refl _) c hmark
          have hkeep := hfiled'.mem_clientsOf hhere'
            (hinv.clients.owned _ (hown ▸ hhere.2) c hlisted).2.2
          rw [own_placeOn] at hkeep
          rw [hstays hmark] at hkeep ⊢
          exact hkeep
        refine MarksListed.kept hend ?_
        unfold placeEnd
        dsimp only
        have hfocus := (Kept.refl
          (placeOn c (recttomon d.release.1 d.release.2 1 1 p.s) p.s)).focus (o := some c)
          |>.modGeom (c := c) (f := fun g => { g with beingmoved := false })
        refine Kept.rearrange ?_
        split
        · exact hfocus.resize
        · exact hfocus
      · exact (post_ok _).mpr h₀
  · exact (post_ok _).mpr h

/-! ## Events -/

/-- A command leaves no mark behind. -/
def SparesAt (k : Binding) (s : State) : Prop :=
  match k.1 with
  | .focusmaster => MarksOwn s
  | .tagmon => ¬ s.mons.length < 2 → ∀ c, s.sel = some c → Stays c (dirtomon k.2.int s) s
  | .tagswapmon => ¬ s.mons.length < 2 → ∀ c, Swaps k.2.int s c → Spares c s
  | .rotatestack => Drops k.2.int s → ∀ c, s.selM.clients = [c] → Spares c s
  | _ => True

/-- A command of a button leaves no mark behind. -/
def DragSpares (d : Drag) (k : Binding) (s : State) : Prop :=
  match k.1 with
  | .moveorplace =>
      if !s.arranges || (s.sel.any fun c => (s.client c).isfloating) then MoveSpares d s
      else PlaceSpares k.2.int d s
  | .resizemouse => ResizeSpares d s
  | _ => True

/-- **The guard.**  A client that is marked for the last tag of its monitor
stays on the list of that monitor, and `focusmaster` marks no client that is
off its list. -/
def SparesMarks (e : Event) (s : State) : Prop :=
  (∀ c, unmanages e s = some c → Spares c s) ∧
    match e with
    | .keypress k _ => k ∈ keys → SparesAt k s
    | .buttonpress t wheel (some (_, f, a)) d =>
        DragSpares d (f, buttonArg (press t wheel s).2 a) (press t wheel s).1
    | _ => True

protected theorem MarksListed.runKey (cls : Window → Option String) (k : Binding)
    (h : MarksListed s) (hfiled : Filed lost base s) (hk : SparesAt k s) :
    Post (runKey cls k s) MarksListed := by
  have hkept : ∀ {x : Except Fault State}, Post x (Kept s) → Post x MarksListed := fun hx =>
    hx.mono fun _ => h.kept
  have hdone : ∀ {t : State}, Kept s t → Post (.ok t : Except Fault State) MarksListed :=
    fun ht => (post_ok _).mpr (h.kept ht)
  obtain ⟨f, a⟩ := k
  cases f with
  | spawn | killclient | quit | incfloat | moveorplace | resizemouse => exact hdone (.refl s)
  | togglebar => exact hdone (Kept.refl s).modSettings.arrange
  | incnmaster =>
      change Post (incnmaster a.int s) _
      unfold incnmaster
      refine (post_any _).bind fun b _ => ?_
      split
      · exact hkept ((post_pure _).mpr (.refl s))
      · exact hkept ((post_pure _).mpr (Kept.refl s).modSettings.arrangesel)
  | resetnmaster => exact hdone (Kept.refl s).modSettings.arrangesel
  | zoom => exact (post_ok _).mpr h.zoom
  | view => exact hdone (kept_view _ s)
  | setlayout => exact hdone (kept_setlayout _ s)
  | togglefloating => exact hdone (kept_togglefloating s)
  | focusmaster => exact h.focusmaster hk
  | resetmfact =>
      unfold runKey resetmfact
      exact hdone (.ite (Kept.refl s).modSettings.arrangesel (.refl s))
  | togglefullscr =>
      unfold runKey togglefullscr
      dsimp only
      split
      · exact hdone (kept_setfullscreen _ _ s)
      · exact hdone (.refl s)
  | togglesticky =>
      unfold runKey togglesticky
      dsimp only
      split
      · exact hdone ((kept_setsticky _ _ s).arrange)
      · exact hdone (.refl s)
  | swapfocus => exact hkept (kept_swapfocus s)
  | tag => exact hkept (kept_tag _ s)
  | setmfact =>
      refine hkept (kept_setfact s fun c => ?_)
      exact .ite (kept_moveclient _ s) (.refl s)
  | setgaps => exact hdone (Kept.refl s).modSettings.arrangesel
  | focusmon => exact hdone (kept_focusmon _ s)
  | tagmon =>
      unfold runKey tagmon
      dsimp only
      split
      · rename_i c hc
        split
        · exact hdone (.refl s)
        · exact (post_ok _).mpr (h.sendmon (hk ‹_› c hc))
      · exact hdone (.refl s)
  | tagswapmon => exact (post_ok _).mpr (h.tagswapmon hk)
  | rotatetags =>
      unfold runKey rotatetags
      exact hdone (.ite (Kept.refl s).modSettings.focus.arrangesel (.refl s))
  | rotatestack => exact (post_ok _).mpr (h.rotatestack hfiled hk)
  | cyclelayout => exact hdone (kept_setlayout _ s)
  | shiftviewclients =>
      change Post (shiftviewclients a.int s) _
      unfold shiftviewclients
      split
      · exact hdone (kept_view _ s)
      · exact post_error _
  | focusstack => exact hkept (kept_focusstack _ s)
  | setsmfact =>
      refine hkept (kept_setfact s fun c => ?_)
      exact .ite (kept_moveclient _ s) (.refl s)
  | fmaximize => exact hkept (kept_fmaximize _ s)
  | setwfact => exact hkept (x := setwfact a.fact s) (kept_setsize _ a.fact s)
  | sethfact => exact hkept (x := sethfact a.fact s) (kept_setsize _ a.fact s)
  | fsnap => exact hkept (kept_fsnap _ s)
  | fdeck => exact hdone (kept_fdeck _ s)
  | focussame => exact hkept (kept_focussame cls _ s)
  | toggleview =>
      unfold runKey toggleview
      exact hdone (.ite (Kept.refl s).modSettings.focus.arrangesel (.refl s))
  | swaptag => exact hdone (kept_swaptag _ s)
  | toggletag => exact hdone (kept_toggletag _ s)

/-- No button takes a client off its list except by a drag. -/
theorem sparesAt_button : ∀ b ∈ buttons, ∀ c, SparesAt (b.2.1, buttonArg c b.2.2) s := by
  intro b hb c
  have hfunc : ∀ b ∈ buttons, b.2.1 ≠ .focusmaster ∧ b.2.1 ≠ .tagmon ∧
      b.2.1 ≠ .tagswapmon ∧ b.2.1 ≠ .rotatestack := by decide
  obtain ⟨hmaster, hmon, hswap, hrotate⟩ := hfunc b hb
  unfold SparesAt
  split <;> first | contradiction | trivial

theorem runButton_of_ne {d : Drag} {f : Func} {a : Arg} (hplace : f ≠ .moveorplace)
    (hresize : f ≠ .resizemouse) : runButton d (f, a) s = runKey (fun _ => none) (f, a) s := by
  cases f with
  | moveorplace => exact absurd rfl hplace
  | resizemouse => exact absurd rfl hresize
  | _ => rfl

protected theorem MarksListed.buttonpress (x : Target) (wheel : Bool)
    (b : Option (Click × Binding)) (d : Drag) (h : MarksListed s) (hfiled : Filed lost base s)
    (hb : SparesMarks (.buttonpress x wheel b d) s) :
    Post (buttonpress x wheel b d s) MarksListed := by
  have hpress := h.kept (kept_press x wheel s)
  have hfiled' := hfiled.press x wheel
  unfold Dwm.buttonpress
  dsimp only
  split
  · rename_i waits f a
    split
    · rename_i hmem
      have hdrag : DragSpares d (f, buttonArg (press x wheel s).2 a) (press x wheel s).1 := hb.2
      have hkey := sparesAt_button (s := (press x wheel s).1) _ hmem.1 (press x wheel s).2
      generalize buttonArg (press x wheel s).2 a = arg at hdrag hkey ⊢
      rcases eq_or_ne f .moveorplace with hplace | hplace
      · subst hplace
        change Post (moveorplace arg.int d (press x wheel s).1) _
        unfold moveorplace
        unfold DragSpares at hdrag
        split
        · rename_i hfloat
          exact hpress.movemouse d ((if_pos hfloat).mp hdrag)
        · rename_i hfloat
          exact hpress.placemouse _ d hfiled' ((if_neg hfloat).mp hdrag)
      · rcases eq_or_ne f .resizemouse with hresize | hresize
        · subst hresize
          exact hpress.resizemouse d hdrag
        · rw [runButton_of_ne hplace hresize]
          exact hpress.runKey _ _ hfiled' hkey
    · exact (post_ok _).mpr hpress
  · exact (post_ok _).mpr hpress

theorem MarksListed.destroynotify {w : Window} (h : MarksListed s)
    (hw : ∀ c, s.wintoclient w = some c → Spares c s) : MarksListed (destroynotify w s) := by
  unfold Dwm.destroynotify
  split
  · exact h.unmanage (hw _ ‹_›)
  · exact h

/-- **One event** that meets the guard. -/
protected theorem MarksListed.step (e : Event) (h : MarksListed s) (hfiled : Filed lost base s)
    (he : SparesMarks e s) : Post (step e s) MarksListed := by
  cases e with
  | buttonpress x wheel b d => exact h.buttonpress x wheel b d hfiled he
  | clientmessage w x => exact (post_ok _).mpr (h.kept (kept_clientmessage w x s))
  | configurenotify w k l =>
      obtain ⟨outC, -, hinv⟩ := hfiled.inv
      exact h.configurenotify w k l (hinv : Inv outC nobody s)
  | configurerequest w x => exact (post_ok _).mpr (h.kept (kept_configurerequest w x s))
  | destroynotify w => exact (post_ok _).mpr (h.destroynotify he.1)
  | keypress k cls =>
      change Post (keypress k cls s) _
      unfold keypress
      split
      · exact h.runKey cls k hfiled (he.2 ‹_›)
      · exact (post_ok _).mpr h
  | maprequest c w i => exact (kept_maprequest c w i s).mono fun _ => h.kept
  | propertynotify w x => exact (post_ok _).mpr (h.kept (kept_propertynotify w x s))
  | unmapnotify w sendevent =>
      cases sendevent with
      | true => exact (post_ok _).mpr h
      | false => exact (post_ok _).mpr (h.destroynotify he.1)

theorem marksListed_setup (d : Display) : Post (setup d) MarksListed := by
  unfold setup
  split
  · exact post_error _
  · have hempty : MarksListed (State.empty d.sw d.sh d.bh d.lrpad) := fun m hm => by cases hm
    have hinv := Inv.empty d.sw d.sh d.bh d.lrpad
    refine (hempty.updategeom d.layouts hinv).bind fun r hr => (post_pure _).mpr ?_
    have hdef : Kept r.1 (setdeflayouts r.1) := by
      unfold setdeflayouts
      refine Kept.trans ?_ (kept_view _ _)
      exact List.foldlRecOn (motive := Kept r.1) _ _ (.refl r.1) fun u hu a _ =>
        .ite (hu.trans ((kept_view _ u).trans (kept_setlayout _ _))) hu
    exact hr.kept hdef.focus

theorem marksListed_of_reachable (h : Reachable SparesMarks s) : MarksListed s :=
  h.invariant MarksListed marksListed_setup fun e _ hu hlisted hok =>
    hlisted.step e (filed_any (hu.mono fun _ _ _ => trivial)) hok

/-- Listed marks are safe to follow. -/
theorem MarksListed.focusmaster_safe (h : MarksListed s) (hfiled : Filed lost base s)
    (hview : (s.settings s.selmon).Viewing) : focusmaster s ≠ .error .dangling := by
  have hok : ∀ t, (.ok t : Except Fault State) ≠ .error .dangling := fun t ht => by cases ht
  unfold Dwm.focusmaster
  split
  · dsimp only
    split
    · exact hok _
    · split
      · split
        · rename_i d hd
          have htag : lowestTag s.selM.tags < ntags :=
            (hview s.selM.seltags).lt (lowestTag_spec (hview s.selM.seltags).1).1
          have hmem := h s.selmon hfiled.selmon (lowestTag s.selM.tags + 1) (by omega)
            (by omega) d hd
          obtain ⟨⟨hlive, hown⟩, -⟩ := hfiled.here_of_mem hfiled.selmon hmem
          rw [if_neg (by simp [hlive, hown])]
          split <;> exact hok _
        · exact hok _
      · exact hok _
  · exact hok _

/-- **Marks are listed.**  In every run in which no client leaves its list
while it is marked for the last tag, and `focusmaster` marks no client that is
off its list, every mark is a client on the list of its monitor, and
`focusmaster` follows no dangling one. -/
theorem marks_are_listed (h : Reachable SparesMarks s) :
    (∀ m ∈ s.mons, ∀ i, 1 ≤ i → i ≤ ntags → ∀ c, s.marks m i = some c → c ∈ s.clientsOf m) ∧
      focusmaster s ≠ .error .dangling :=
  ⟨marksListed_of_reachable h, (marksListed_of_reachable h).focusmaster_safe
    (filed_any (h.mono fun _ _ _ => trivial)) (viewing_of_reachable h s.selmon)⟩

/-- Two windows, the second one on the master place: `focusmaster` marks the
first tag with the first window, and goes back to it. -/
theorem marks_are_listed_two_windows : ∃ s, s.marks s.selmon 1 = some 0 ∧
    0 ∈ s.clientsOf s.selmon ∧ focusmaster s ≠ .error .dangling := by
  obtain ⟨s, hs, hp⟩ := exists_of_passes (x := play oneScreen [.maprequest 0 10 plainWindow,
      .maprequest 1 11 plainWindow, .press .focusstack (.i 1)])
    (p := fun s => s.sel == some 0 && decide (0 ∈ s.clientsOf s.selmon) &&
      passes (step (.press .focusmaster (.i 0)) s) fun t =>
        t.marks t.selmon 1 == some 0 && decide (t.selmon ∈ t.mons)) (by decide +kernel)
  rw [Bool.and_eq_true, Bool.and_eq_true, beq_iff_eq, decide_eq_true_eq] at hp
  obtain ⟨⟨hsel, hmem⟩, hmark⟩ := hp
  have hstart : Reachable SparesMarks s := reachable_play_of hs fun e he t => by
    rw [List.mem_cons, List.mem_cons, List.mem_singleton] at he
    rcases he with he | he | he
    · subst he
      exact ⟨fun c hc => (by cases hc), trivial⟩
    · subst he
      exact ⟨fun c hc => (by cases hc), trivial⟩
    · subst he
      exact ⟨fun c hc => (by cases hc), fun _ => trivial⟩
  obtain ⟨t, ht, hp⟩ := exists_of_passes hmark
  rw [Bool.and_eq_true, beq_iff_eq, decide_eq_true_eq] at hp
  have hok : SparesMarks (.press .focusmaster (.i 0)) s := by
    refine ⟨fun c hc => (by cases hc), fun _ c master hc _ _ _ => ?_⟩
    rw [hsel] at hc
    cases hc
    exact hmem
  obtain ⟨hlisted, hsafe⟩ := marks_are_listed (hstart.step hok ht)
  exact ⟨t, hp.1, hlisted t.selmon hp.2 1 (by decide) (by decide) 0 hp.1, hsafe⟩

/-- On the last tag `focusmaster` marks a window, and the window goes: the
mark stays. -/
theorem last_mark_dangles : ¬ ∀ s, Reachable Any s → MarksListed s := by
  intro h
  obtain ⟨s, hs, hp⟩ := exists_of_passes (x := play oneScreen [.press .view (.ui (tagBit 8)),
      .maprequest 0 10 plainWindow, .maprequest 1 11 plainWindow, .press .focusstack (.i 1),
      .press .focusmaster (.i 0), .destroynotify 10])
    (p := fun s => decide (s.selmon ∈ s.mons) && s.marks s.selmon 9 == some 0 &&
      decide (0 ∉ s.clientsOf s.selmon)) (by decide +kernel)
  rw [Bool.and_eq_true, Bool.and_eq_true, beq_iff_eq, decide_eq_true_eq, decide_eq_true_eq] at hp
  obtain ⟨⟨hmon, hmark⟩, hmem⟩ := hp
  exact hmem (h s (reachable_play hs) s.selmon hmon 9 (by decide) (by decide) 0 hmark)

end Dwm
