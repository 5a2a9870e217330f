import Zzdwm.Dwm.Fullscreen
import Zzdwm.Dwm.TagMarks

/-!
# Leaving fullscreen

The saved geometry of a fullscreen client over whole runs.  `setfullscreen`
brings back what `oldx` … `oldh` hold when the client leaves fullscreen, which
is what they held when it entered it unless one of the routines that share the
fields has run on the client meanwhile.

* `Enters c e s`, `Leaves c e s` — the events that call `setfullscreen`;
* `MovesClient c e s` — the user moves or resizes the client;
* `SparesSave c e s` — the event overwrites nothing that the client has saved;
* `saved_step` — under that guard the saved geometry survives an event;
* `fullscreen_restores` — the runs from entering to leaving.
-/

namespace Dwm

open Machine

variable {lost base : ClientId → Prop} {s t u : State} {c d : ClientId} {k : Save} {e : Event}

/-! ## Drags of other clients -/

/-- Every configure request that arrives during a drag spares the saved
geometry in the state that it meets. -/
def CalmLoop {σ : Type} (c : ClientId) (get : σ → State) (set : State → σ → σ)
    (motion : Int → Int → σ → σ) : List DragEvent → σ → Prop
  | [], _ => True
  | .configurerequest w r :: es, a =>
      RequestSpares c w r (get a) ∧
        CalmLoop c get set motion es (set (configurerequest w r (get a)) a)
  | .maprequest d w i :: es, a =>
      ∀ s, maprequest d w i (get a) = .ok s → CalmLoop c get set motion es (set s a)
  | .motion x y :: es, a => CalmLoop c get set motion es (motion x y a)

/-- **Drag rule** for a client that is not the one that is dragged. -/
theorem dragLoop_calm {σ : Type} (get : σ → State) {set : State → σ → σ}
    {motion : Int → Int → σ → σ} (hget : ∀ s a, get (set s a) = s)
    (hmotion : ∀ a x y, Saved c k (get a) → Saved c k (get (motion x y a)))
    (es : List DragEvent) {a : σ} (h : Saved c k (get a))
    (hcalm : CalmLoop c get set motion es a) :
    Post (dragLoop get set motion es a) fun a => Saved c k (get a) := by
  induction es generalizing a with
  | nil => exact (post_ok _).mpr h
  | cons e es ih =>
      cases e with
      | configurerequest w r =>
          refine ih ?_ hcalm.2
          rw [hget]
          exact h.configurerequest hcalm.1
      | maprequest d w i =>
          have hmap : Post (maprequest d w i (get a)) fun s =>
              Saved c k s ∧ CalmLoop c get set motion es (set s a) := fun s hs =>
            ⟨h.maprequest s hs, hcalm s hs⟩
          refine hmap.bind fun s hs => ih ?_ hs.2
          rw [hget]
          exact hs.1
      | motion x y => exact ih (hmotion a x y h) hcalm

theorem Saved.followmon (h : Saved c k s) : Saved c k (followmon d s) := by
  unfold Dwm.followmon
  exact .ite h.sendmon.withSelmon.focus h

theorem Saved.moveMotion {nx ny : Int} (h : Saved c k s) (hcd : c ≠ d) :
    Saved c k (moveMotion d nx ny s) := by
  have hfloat : ∀ b : Bool, Saved c k (if b then Dwm.togglefloating s else s) := fun b =>
    .ite h.togglefloating h
  unfold Dwm.moveMotion
  exact .ite ((hfloat _).resize_of_ne hcd) (hfloat _)

/-- A drag of `movemouse` spares the client: `e` is the one that is dragged. -/
def MoveCalm (c : ClientId) (d : Drag) (s : State) : Prop :=
  ∀ e x y, s.sel = some e → e ≠ c → d.grabbed = true → d.rootptr = some (x, y) →
    CalmLoop c id (fun s _ => s) (fun mx my =>
      moveMotion e ((s.rect e).x + (mx - x)) ((s.rect e).y + (my - y))) d.events s

/-- A drag of `resizemouse` spares the client. -/
def ResizeCalm (c : ClientId) (d : Drag) (s : State) : Prop :=
  ∀ e, s.sel = some e → e ≠ c → d.grabbed = true →
    CalmLoop c id (fun s _ => s) (fun mx my u =>
      if !u.arranges || (u.client e).isfloating then
        u.resize e { u.rect e with
          w := max ((s.rect e).w + (mx - (d.rootptr.getD (0, 0)).1)) 1
          h := max ((s.rect e).h + (my - (d.rootptr.getD (0, 0)).2)) 1 } true
      else u) d.events s

/-- A drag of `placemouse` spares the client. -/
def PlaceCalm (c : ClientId) (i : Int) (d : Drag) (s : State) : Prop :=
  ∀ e x y, s.sel = some e → e ≠ c → d.grabbed = true → d.rootptr = some (x, y) →
    CalmLoop c Placing.s (fun s p => { p with s := s }) (placeMotion i d.wa x y e) d.events
      ⟨placeStart e s, e, none, none⟩

/-- The selected client is fullscreen, or it is another one. -/
theorem Saved.ne_of_drag (h : Saved c k s) (hd : ¬ (s.client d).isfullscreen = true) :
    c ≠ d := by
  intro hcd
  subst hcd
  exact hd h.full

theorem Saved.movemouse {d : Drag} (h : Saved c k s) (hd : MoveCalm c d s) :
    Post (movemouse d s) (Saved c k) := by
  unfold Dwm.movemouse
  split
  · rename_i e he
    split
    · exact (post_ok _).mpr h
    · rename_i hfull
      have hce := h.ne_of_drag hfull
      split
      · rename_i x y hgrab hptr
        have hloop := dragLoop_calm id (fun _ _ => rfl)
          (fun u mx my hu => Saved.moveMotion hu hce) d.events h
          (hd e x y he hce.symm hgrab hptr)
        exact hloop.bind fun u hu => (post_pure _).mpr (Saved.followmon hu)
      · exact (post_ok _).mpr h
  · exact (post_ok _).mpr h

theorem Saved.resizemouse {d : Drag} (h : Saved c k s) (hd : ResizeCalm c d s) :
    Post (resizemouse d s) (Saved c k) := by
  unfold Dwm.resizemouse
  split
  · rename_i e he
    split
    · exact (post_ok _).mpr h
    · rename_i hgo
      rw [Bool.or_eq_true, not_or] at hgo
      have hce := h.ne_of_drag hgo.1
      dsimp only
      split
      · exact (post_ok _).mpr h
      · have hloop := dragLoop_calm id (fun _ _ => rfl)
          (fun u mx my hu => Saved.ite (Saved.resize_of_ne hu hce) hu) d.events h
          (hd e he hce.symm (by simpa using hgo.2))
        refine hloop.bind fun u hu => (post_pure _).mpr (Saved.followmon ?_)
        exact .ite hu (Saved.modSettings hu).arrangesel
  · exact (post_ok _).mpr h

theorem Saved.reattach {above : Bool} {e r : ClientId} (h : Saved c k s) :
    Saved c k (reattach above e r s) := by
  have hout : Saved c k (Dwm.detach e (Dwm.detachstack e s)) := h.detachstack.detach
  unfold Dwm.reattach
  generalize Dwm.detach e (Dwm.detachstack e s) = u at hout ⊢
  dsimp only
  exact (Saved.ite hout.rearrange.modClient hout).modClient.modMon.attachstack.rearrange

theorem Saved.placeAt {above : Bool} {e r : ClientId} {p : Placing} (h : Saved c k p.s) :
    Saved c k (placeAt above e r p).s := by
  unfold Dwm.placeAt
  split
  · exact h.reattach
  · exact h

theorem Saved.placeMotion {i : Int} {wa : Rect} {x y mx my : Int} {e : ClientId} {p : Placing}
    (h : Saved c k p.s) : Saved c k (placeMotion i wa x y e mx my p).s := by
  have hmoved : Saved c k { p.s with selmon := recttomon mx my 1 1 p.s } := h.withSelmon
  unfold Dwm.placeMotion
  dsimp only
  split
  · split
    · exact hmoved
    · exact Saved.placeAt hmoved
  · exact hmoved

theorem Saved.placeOn {e : ClientId} {m : MonId} (h : Saved c k s) :
    Saved c k (placeOn e m s) := by
  unfold Dwm.placeOn
  exact .ite h.detach.detachstack.rearrange.modClient.attach.attachstack.withSelmon h

theorem Saved.placemouse {i : Int} {d : Drag} (h : Saved c k s) (hd : PlaceCalm c i d s) :
    Post (placemouse i d s) (Saved c k) := by
  unfold Dwm.placemouse
  split
  · rename_i e he
    split
    · exact (post_ok _).mpr h
    · rename_i hgo
      rw [Bool.or_eq_true, Bool.or_eq_true, not_or, not_or] at hgo
      have hce := h.ne_of_drag hgo.1.2
      have hstart : Saved c k (placeStart e s) := (h.modClient_of_ne hce).modGeom_of_ne hce
      dsimp only
      split
      · rename_i x y hptr
        change Post (placeLoop i d x y e (placeStart e s) >>= fun p => pure (placeEnd d e p)) _
        have hloop := dragLoop_calm Placing.s (fun _ _ => rfl)
          (fun p mx my hp => Saved.placeMotion hp) d.events
          (a := Placing.mk (placeStart e s) e none none) hstart
          (hd e x y he hce.symm (by simpa using hgo.2) hptr)
        refine hloop.bind fun p hp => (post_pure _).mpr ?_
        have hfocus : ∀ m, Saved c k ((Dwm.focus (some e) (Dwm.placeOn e m p.s)).modGeom e
            fun g => { g with beingmoved := false }) := fun m =>
          (Saved.placeOn hp).focus.modGeom_of_ne hce
        unfold placeEnd
        refine Saved.rearrange ?_
        split
        · exact (hfocus _).resize_of_ne hce
        · exact hfocus _
      · exact (post_ok _).mpr hstart
  · exact (post_ok _).mpr h

/-! ## Events -/

/-- The functions by which a key moves or resizes the selected client. -/
def Func.moves : Func → Bool
  | .setmfact | .setsmfact | .setwfact | .sethfact | .fsnap | .fdeck => true
  | _ => false

/-- The user moves or resizes the client explicitly. -/
def MovesClient (c : ClientId) (e : Event) (s : State) : Prop :=
  ∃ b cls, e = .keypress b cls ∧ b ∈ keys ∧ b.1.moves = true ∧ s.sel = some c ∧
    (s.client c).isfixed = false

/-- The event calls `setfullscreen(c, 1)` on a client that is not fullscreen. -/
def Enters (c : ClientId) (e : Event) (s : State) : Prop :=
  (s.client c).isfullscreen = false ∧
    match e with
    | .keypress b _ => b ∈ keys ∧ b.1 = .togglefullscr ∧ s.sel = some c
    | .clientmessage w (.netWMState a true _) => s.wintoclient w = some c ∧ (a = 1 ∨ a = 2)
    | .propertynotify w (.windowType .fullscreen _) => s.wintoclient w = some c
    | _ => False

/-- The event calls `setfullscreen(c, 0)` on a fullscreen client. -/
def Leaves (c : ClientId) (e : Event) (s : State) : Prop :=
  (s.client c).isfullscreen = true ∧
    match e with
    | .keypress b _ => b ∈ keys ∧ b.1 = .togglefullscr ∧ s.sel = some c
    | .clientmessage w (.netWMState a true _) => s.wintoclient w = some c ∧ a ≠ 1
    | _ => False

/-- The geometry that `setfullscreen` brings back. -/
def Geom.restored (g : Geom) : Geom :=
  { g with bw := g.oldbw, x := g.oldx, y := g.oldy, w := g.oldw, h := g.oldh }

/-- The saved geometry satisfies `applysizehints` where the client is now. -/
def FitsBack (c : ClientId) (s : State) : Prop :=
  s.visible c = true →
    applysizehints s (Function.update s.geom c (s.geom c).restored) c (s.oldrect c) false = none

/-- A command spares the saved geometry. -/
def KeySparesSave (c : ClientId) (b : Binding) (s : State) : Prop :=
  match b.1 with
  | .fmaximize => MaximizeSpares c s
  | .tagswapmon => ¬ s.mons.length < 2 → Swaps b.2.int s c → AtHome c s
  | _ => True

/-- A command of a button spares the saved geometry. -/
def DragSparesSave (c : ClientId) (d : Drag) (b : Binding) (s : State) : Prop :=
  match b.1 with
  | .moveorplace =>
      if !s.arranges || (s.sel.any fun c => (s.client c).isfloating) then MoveCalm c d s
      else PlaceCalm c b.2.int d s
  | .resizemouse => ResizeCalm c d s
  | _ => True

/-- **The guard.**  The event writes nothing new to the fields in which the
client has its geometry saved, and when the client leaves fullscreen, the
saved geometry fits. -/
def SparesSave (c : ClientId) (e : Event) (s : State) : Prop :=
  (Leaves c e s → FitsBack c s) ∧
    match e with
    | .buttonpress t wheel (some (_, f, a)) d =>
        DragSparesSave c d (f, buttonArg (press t wheel s).2 a) (press t wheel s).1
    | .configurenotify w h l => RefillSpares c w h l s
    | .configurerequest w r => RequestSpares c w r s
    | .keypress b _ => b ∈ keys → KeySparesSave c b s
    | .propertynotify w (.motifHints border) =>
        s.wintoclient w = some c → MotifSpares c border s
    | _ => True

theorem Saved.runKey {cls : Window → Option String} {b : Binding} (h : Saved c k s)
    (hfiled : Filed lost base s) (hmove : b.1.moves = true → Unmovable c s)
    (hleave : b.1 = .togglefullscr → s.sel ≠ some c) (hb : KeySparesSave c b s) :
    Post (runKey cls b s) (Saved c k) := by
  have hdone : ∀ {t : State}, Saved c k t → Post (.ok t : Except Fault State) (Saved c k) :=
    fun ht => (post_ok _).mpr ht
  obtain ⟨f, a⟩ := b
  cases f with
  | spawn | killclient | quit | incfloat | moveorplace | resizemouse => exact hdone h
  | togglebar => exact hdone h.modSettings.arrangesel
  | incnmaster =>
      change Post (incnmaster a.int s) _
      unfold incnmaster
      refine (post_any _).bind fun b _ => ?_
      split
      · exact (post_pure _).mpr h
      · exact (post_pure _).mpr h.modSettings.arrangesel
  | resetnmaster => exact hdone h.modSettings.arrangesel
  | zoom => exact hdone h.zoom
  | view => exact hdone h.view
  | setlayout => exact hdone h.setlayout
  | togglefloating => exact hdone h.togglefloating
  | focusmaster => exact h.focusmaster
  | resetmfact =>
      unfold Dwm.runKey resetmfact
      exact hdone (.ite h.modSettings.arrangesel h)
  | togglefullscr =>
      unfold Dwm.runKey togglefullscr
      dsimp only
      split
      · rename_i d hd
        refine hdone (h.setfullscreen fun hcd => ?_)
        subst hcd
        exact absurd hd (hleave rfl)
      · exact hdone h
  | togglesticky =>
      unfold Dwm.runKey togglesticky
      dsimp only
      split
      · exact hdone h.setsticky.arrangesel
      · exact hdone h
  | swapfocus => exact h.swapfocus
  | tag => exact h.tag
  | setmfact =>
      exact h.setfact (Settings.setmfact a.fact) fun d =>
        .ite (h.moveclient (hmove rfl)) h
  | setgaps => exact hdone h.modSettings.arrangesel
  | focusmon => exact hdone h.focusmon
  | tagmon =>
      unfold Dwm.runKey tagmon
      dsimp only
      split
      · exact hdone (.ite h h.sendmon)
      · exact hdone h
  | tagswapmon => exact hdone (h.tagswapmon hfiled hb)
  | rotatetags =>
      unfold Dwm.runKey rotatetags
      exact hdone (.ite h.refocus h)
  | rotatestack => exact hdone h.rotatestack
  | cyclelayout => exact hdone h.setlayout
  | shiftviewclients =>
      change Post (shiftviewclients a.int s) _
      unfold shiftviewclients
      split
      · exact hdone h.view
      · exact post_error _
  | focusstack => exact h.focusstack
  | setsmfact =>
      exact h.setfact (Settings.setsmfact a.fact) fun d =>
        .ite (h.moveclient (hmove rfl)) h
  | fmaximize => exact h.fmaximize hb
  | setwfact =>
      change Post (setwfact a.fact s) _
      unfold setwfact
      exact h.setsize (hmove rfl)
  | sethfact =>
      change Post (sethfact a.fact s) _
      unfold sethfact
      exact h.setsize (hmove rfl)
  | fsnap => exact h.fsnap (hmove rfl)
  | fdeck => exact hdone (h.fdeck (hmove rfl))
  | focussame => exact h.focussame
  | toggleview =>
      unfold Dwm.runKey toggleview
      exact hdone (.ite h.refocus h)
  | swaptag => exact hdone h.swaptag
  | toggletag => exact hdone h.toggletag

theorem Saved.press (x : Target) (wheel : Bool) (h : Saved c k s) :
    Saved c k (press x wheel s).1 := by
  have hmon : Saved c k (if wintomon x s ≠ s.selmon ∧ (focusonwheel ∨ !wheel) then
      Dwm.focus none { Dwm.unfocus s.sel s with selmon := wintomon x s } else s) :=
    .ite h.unfocus.withSelmon.focus h
  unfold Dwm.press
  dsimp only
  cases x with
  | root o => exact hmon
  | bar m part => exact hmon
  | window w =>
      dsimp only
      split
      · exact .ite hmon.focus hmon
      · exact hmon

/-- No button moves the selected client or makes it leave fullscreen. -/
theorem buttons_spare : ∀ b ∈ buttons, b.2.1.moves = false ∧ b.2.1 ≠ .togglefullscr ∧
    b.2.1 ≠ .fmaximize ∧ b.2.1 ≠ .tagswapmon := by decide

theorem keySparesSave_of_ne {f : Func} {a : Arg} (hmax : f ≠ .fmaximize)
    (hswap : f ≠ .tagswapmon) : KeySparesSave c (f, a) s := by
  unfold KeySparesSave
  split
  · exact absurd ‹_› hmax
  · exact absurd ‹_› hswap
  · trivial

theorem Saved.moveorplace {d : Drag} {a : Arg} (h : Saved c k s)
    (hd : DragSparesSave c d (.moveorplace, a) s) :
    Post (moveorplace a.int d s) (Saved c k) := by
  have hd' : if !s.arranges || (s.sel.any fun c => (s.client c).isfloating) then MoveCalm c d s
      else PlaceCalm c a.int d s := hd
  unfold Dwm.moveorplace
  split
  · rename_i hfloat
    rw [if_pos hfloat] at hd'
    exact h.movemouse hd'
  · rename_i hfloat
    rw [if_neg hfloat] at hd'
    exact h.placemouse hd'

protected theorem Saved.buttonpress {x : Target} {wheel : Bool} {b : Option (Click × Binding)}
    {d : Drag} (h : Saved c k s) (hfiled : Filed lost base s)
    (hb : SparesSave c (.buttonpress x wheel b d) s) :
    Post (buttonpress x wheel b d s) (Saved c k) := by
  have hpress := h.press x wheel
  have hfiled' := hfiled.press x wheel
  unfold Dwm.buttonpress
  dsimp only
  split
  · rename_i waits f a
    split
    · rename_i hbound
      obtain ⟨hmove, hleave, hmax, hswap⟩ := buttons_spare _ hbound.1
      have hdrag : DragSparesSave c d (f, buttonArg (Dwm.press x wheel s).2 a)
        (Dwm.press x wheel s).1 := hb.2
      generalize Dwm.press x wheel s = r at *
      by_cases hplace : f = .moveorplace
      · subst hplace
        exact hpress.moveorplace hdrag
      by_cases hresize : f = .resizemouse
      · subst hresize
        exact hpress.resizemouse hdrag
      rw [runButton_of_ne hplace hresize]
      refine hpress.runKey hfiled' (fun ht => ?_) (fun ht => absurd ht hleave)
        (keySparesSave_of_ne hmax hswap)
      exact absurd (hmove.symm.trans ht) (by decide)
    · exact (post_ok _).mpr hpress
  · exact (post_ok _).mpr hpress

protected theorem Saved.clientmessage {w : Window} {x : Message} (h : Saved c k s)
    (hleave : ¬ Leaves c (.clientmessage w x) s) : Saved c k (clientmessage w x s) := by
  unfold Dwm.clientmessage
  split
  · rename_i d hd
    split
    · rename_i a fullscreen sticky
      have hfull : Saved c k (if fullscreen then
          Dwm.setfullscreen d (a = 1 || a = 2 && !(s.client d).isfullscreen) s else s) := by
        split
        · rename_i hset
          subst hset
          refine h.setfullscreen fun hcd => ?_
          subst hcd
          by_contra hb
          refine hleave ⟨h.full, hd, fun ha => hb ?_⟩
          simp [ha]
        · exact h
      exact .ite hfull.setsticky hfull
    · unfold activate
      dsimp only
      exact .ite h.withSelmon.view.focus h
    · exact h.modClient.arrange
    · exact h
    · exact h
  · exact h

protected theorem Saved.propertynotify {w : Window} {x : Property} (h : Saved c k s)
    (hspare : SparesSave c (.propertynotify w x) s) : Saved c k (propertynotify w x s) := by
  unfold Dwm.propertynotify
  split
  · rename_i d hd
    cases x with
    | transientFor parent => exact .ite h.makeFloating.arrange h
    | windowType state dialog => exact h.updatewindowtype
    | motifHints border =>
        refine h.updatemotifhints fun hcd => ?_
        subst hcd
        exact hspare.2 hd
    | other => exact h
  · exact h

/-- **One event.**  What a fullscreen client has saved stays, unless the event
unmanages the client, makes it leave fullscreen, moves it or writes to the
saved geometry. -/
theorem saved_step (h : Saved c k s) (hfiled : Filed lost base s) (hun : unmanages e s ≠ some c)
    (hleave : ¬ Leaves c e s) (hmove : ¬ MovesClient c e s) (hspare : SparesSave c e s) :
    Post (step e s) (Saved c k) := by
  cases e with
  | buttonpress x wheel b d => exact h.buttonpress hfiled hspare
  | clientmessage w x => exact (post_ok _).mpr (h.clientmessage hleave)
  | configurenotify w x l => exact h.configurenotify hfiled hspare.2
  | configurerequest w r => exact (post_ok _).mpr (h.configurerequest hspare.2)
  | destroynotify w =>
      refine (post_ok _).mpr ?_
      unfold destroynotify
      split
      · rename_i d hd
        refine h.unmanage fun hcd => hun ?_
        subst hcd
        exact hd
      · exact h
  | keypress b cls =>
      change Post (keypress b cls s) _
      unfold keypress
      split
      · rename_i hb
        refine h.runKey hfiled (fun hmoves hsel => ?_) (fun hfun hsel => ?_) (hspare.2 hb)
        · by_contra hfixed
          exact hmove ⟨b, cls, rfl, hb, hmoves, hsel, by simpa using hfixed⟩
        · exact hleave ⟨h.full, hb, hfun, hsel⟩
      · exact (post_ok _).mpr h
  | maprequest d w i => exact h.maprequest
  | propertynotify w x => exact (post_ok _).mpr (h.propertynotify hspare)
  | unmapnotify w sendevent =>
      refine (post_ok _).mpr ?_
      unfold unmapnotify
      split
      · exact h
      · rename_i hsent
        unfold destroynotify
        split
        · rename_i d hd
          refine h.unmanage fun hcd => hun ?_
          subst hcd
          cases sendevent with
          | true => exact absurd rfl hsent
          | false => exact hd
        · exact h

/-! ## Entering and leaving -/

/-- **Entering fullscreen** saves the geometry that a floating client has. -/
theorem saved_setfullscreen (hlive : s.live c = true) (hfloat : (s.client c).isfloating = true)
    (hfull : (s.client c).isfullscreen = false) :
    Saved c ⟨s.rect c, (s.geom c).bw⟩ (setfullscreen c true s) := by
  unfold setfullscreen
  rw [hfull]
  let v := (s.modClient c fun k => { k with
    isfullscreen := true, oldstate := k.isfloating, isfloating := true }).modGeom c fun g =>
      { g with oldbw := g.bw, bw := 0 }
  have hfull' : (v.client c).isfullscreen = true := by simp [v, State.modClient, State.modGeom]
  have hgeom : ∀ r, (v.resizeclient c r).geom c = _ := geom_resizeclient hfull'
  have hrect : v.rect c = s.rect c := by simp [v, State.rect, State.modClient, State.modGeom]
  refine ⟨hlive, hfull', ?_, ?_, ?_, ?_⟩
  · simp [State.modClient, State.modGeom, State.resizeclient]
  · simpa [State.modClient, State.modGeom, State.resizeclient] using hfloat
  · refine Eq.trans ?_ hrect
    exact congrArg (fun g : Geom => (⟨g.oldx, g.oldy, g.oldw, g.oldh⟩ : Rect)) (hgeom _)
  · refine (congrArg Geom.oldbw (hgeom _)).trans ?_
    simp [v, State.modClient, State.modGeom]

/-- **An event by which a floating client enters fullscreen.** -/
theorem saved_of_enters (hfiled : Filed lost base s) (hfloat : (s.client c).isfloating = true)
    (he : Enters c e s) : Post (step e s) (Saved c ⟨s.rect c, (s.geom c).bw⟩) := by
  obtain ⟨hfull, he⟩ := he
  cases e with
  | keypress b cls =>
      obtain ⟨hb, hfun, hsel⟩ := he
      have hset := saved_setfullscreen (hfiled.here_of_sel hsel).1.1 hfloat hfull
      have hrun : runKey cls b s = .ok (setfullscreen c (!(s.client c).isfullscreen) s) := by
        obtain ⟨f, a⟩ := b
        cases hfun
        simp only [runKey, togglefullscr, hsel]
      change Post (keypress b cls s) _
      unfold keypress
      rw [if_pos hb, hrun, hfull]
      exact (post_ok _).mpr hset
  | clientmessage w x =>
      cases x with
      | netWMState a fullscreen sticky =>
          cases fullscreen with
          | false => exact he.elim
          | true =>
              obtain ⟨hwin, ha⟩ := he
              have hset := saved_setfullscreen (hfiled.here_of_window hwin).1 hfloat hfull
              have harg : (a = 1 || a = 2 && !(s.client c).isfullscreen) = true := by
                rw [hfull]
                rcases ha with ha | ha <;> simp [ha]
              refine (post_ok _).mpr ?_
              simp only [clientmessage, hwin, harg, if_true]
              exact .ite hset.setsticky hset
      | _ => exact he.elim
  | propertynotify w x =>
      cases x with
      | windowType state dialog =>
          cases state with
          | fullscreen =>
              have hset := saved_setfullscreen (hfiled.here_of_window he).1 hfloat hfull
              have hwin : s.wintoclient w = some c := he
              refine (post_ok _).mpr ?_
              simp only [propertynotify, hwin, updatewindowtype]
              exact .ite hset.makeFloating hset
          | _ => exact he.elim
      | _ => exact he.elim
  | _ => exact he.elim

/-- A floating client with the geometry that it had. -/
structure Restored (c : ClientId) (k : Save) (s : State) : Prop where
  rect : s.rect c = k.rect
  bw : (s.geom c).bw = k.bw
  float : (s.client c).isfloating = true

/-- It stays where it is when its monitor is arranged. -/
def Settled (c : ClientId) (s : State) : Prop := s.visible c = true → Fits s s.geom c

theorem Restored.arrange {o : Option MonId} (h : Restored c k s) (hfits : Settled c s) :
    Restored c k (arrange o s) ∧ Settled c (arrange o s) := by
  have hgeom : (Dwm.arrange o s).geom c = s.geom c :=
    arrange_of_fits h.float (fun hv _ => hfits hv) o
  refine ⟨⟨?_, ?_, h.float⟩, fun hv => (hfits hv).congr hgeom⟩
  · rw [State.rect, hgeom]
    exact h.rect
  · rw [hgeom]
    exact h.bw

/-- `applysizehints` reads the geometry and the border, not what is saved, and
the monitor of the client. -/
theorem applysizehints_congr_state {g g' : Geoms} (hmon : t.monOf c = s.monOf c)
    (hsw : t.sw = s.sw) (hsh : t.sh = s.sh) (hbh : t.bh = s.bh) (hx : (g' c).x = (g c).x)
    (hy : (g' c).y = (g c).y) (hw : (g' c).w = (g c).w) (hh : (g' c).h = (g c).h)
    (hbw : (g' c).bw = (g c).bw) (r : Rect) (b : Bool) :
    applysizehints t g' c r b = applysizehints s g c r b := by
  unfold applysizehints Geom.width Geom.height
  dsimp only
  rw [hmon, hsw, hsh, hbh, hx, hy, hw, hh, hbw]

theorem Restored.setsticky {b : Bool} (h : Restored c k s) (hfits : Settled c s) :
    Restored c k (Dwm.setsticky c b s) := by
  have hclient : ∀ b : Bool, (s.modClient c fun k => { k with issticky := b }).client c =
      { s.client c with issticky := b } := fun b => Function.update_self ..
  have hmod : ∀ b : Bool, Restored c k (s.modClient c fun k => { k with issticky := b }) := by
    intro b
    refine ⟨h.rect, h.bw, ?_⟩
    rw [hclient]
    exact h.float
  unfold Dwm.setsticky
  split
  · exact hmod true
  · split
    · rename_i hb
      rw [Bool.and_eq_true] at hb
      refine ((hmod false).arrange fun _ => ?_).1
      -- a sticky client was in view
      have hv : s.visible c = true := by
        rw [State.visible, State.visibleOn, hb.2, Bool.or_true]
      refine Eq.trans ?_ (hfits hv)
      have hmon : (s.modClient c fun k => { k with issticky := false }).monOf c = s.monOf c := by
        rw [State.monOf, hclient]
        rfl
      exact applysizehints_congr_state hmon rfl rfl rfl rfl rfl rfl rfl rfl _ _
    · exact h

/-- **Leaving fullscreen** brings back what is saved. -/
theorem Saved.restored (h : Saved c k s) (hfits : FitsBack c s) :
    Restored c k (Dwm.setfullscreen c false s) ∧ Settled c (Dwm.setfullscreen c false s) := by
  unfold Dwm.setfullscreen
  rw [h.full]
  let v := (s.modClient c fun k => { k with
    isfullscreen := false, isfloating := k.oldstate }).modGeom c fun g =>
      { g with bw := g.oldbw, x := g.oldx, y := g.oldy, w := g.oldw, h := g.oldh }
  have hclient : v.client c = { s.client c with
      isfullscreen := false, isfloating := (s.client c).oldstate } := by
    simp [v, State.modClient, State.modGeom]
  have hfloat : (v.client c).isfloating = true := by
    rw [hclient]
    exact h.oldstate
  have hmon : v.monOf c = s.monOf c := by
    rw [State.monOf, hclient]
    rfl
  have hvis : v.visible c = s.visible c := by
    rw [State.visible, State.visibleOn, hclient, hmon]
    rfl
  have hgeom : v.geom c = (s.geom c).restored := by
    simp [v, State.modClient, State.modGeom, Geom.restored]
  have hrect : v.rect c = s.oldrect c := by
    rw [State.rect, hgeom]
    rfl
  have hres : (v.resizeclient c (v.rect c)).geom c = { (s.geom c).restored with
      oldx := (s.geom c).oldx, oldy := (s.geom c).oldy
      oldw := (s.geom c).oldw, oldh := (s.geom c).oldh } := by
    simp [State.resizeclient, Dwm.resizeclient, hfloat, hgeom, State.rect, Geom.restored]
  have hback : Restored c k (v.resizeclient c (v.rect c)) := by
    refine ⟨?_, ?_, hfloat⟩
    · rw [State.rect, hres]
      exact h.old
    · rw [hres]
      exact h.oldbw
  refine hback.arrange fun hv => ?_
  have hgoal := hfits (hvis.symm.trans hv)
  unfold Fits
  rw [hres]
  refine Eq.trans ?_ hgoal
  refine applysizehints_congr_state hmon rfl rfl rfl ?_ ?_ ?_ ?_ ?_ _ _ <;>
    rw [hres, Function.update_self]

/-- **An event by which a client leaves fullscreen.** -/
theorem restored_of_leaves (h : Saved c k s) (he : Leaves c e s) (hfits : FitsBack c s) :
    Post (step e s) (Restored c k) := by
  obtain ⟨hfull, he⟩ := he
  obtain ⟨hback, hsettled⟩ := h.restored hfits
  cases e with
  | keypress b cls =>
      obtain ⟨hb, hfun, hsel⟩ := he
      have hrun : runKey cls b s = .ok (setfullscreen c (!(s.client c).isfullscreen) s) := by
        obtain ⟨f, a⟩ := b
        cases hfun
        simp only [runKey, togglefullscr, hsel]
      change Post (keypress b cls s) _
      unfold keypress
      rw [if_pos hb, hrun, hfull]
      exact (post_ok _).mpr hback
  | clientmessage w x =>
      cases x with
      | netWMState a fullscreen sticky =>
          cases fullscreen with
          | false => exact he.elim
          | true =>
              obtain ⟨hwin, ha⟩ := he
              have harg : (a = 1 || a = 2 && !(s.client c).isfullscreen) = false := by
                rw [hfull]
                simp [ha]
              refine (post_ok _).mpr ?_
              simp only [clientmessage, hwin, harg, if_true]
              split
              · exact hback.setsticky hsettled
              · exact hback
      | _ => exact he.elim
  | _ => exact he.elim

/-! ## From entering to leaving -/

/-- The events between entering and leaving fullscreen: the client stays, and
the user does not move it. -/
def Between (c : ClientId) (e : Event) (s : State) : Prop :=
  unmanages e s ≠ some c ∧ ¬ Leaves c e s ∧ ¬ MovesClient c e s

/-- **Fullscreen restores.**  In every run in which no event between entering
and leaving fullscreen overwrites what a floating client has saved, and that
fits when the client leaves, the client comes back to the place, the size, the
border and the floating state that it had. -/
theorem fullscreen_restores {es : List Event} {e' : Event} {s₁ : State} (h : Reachable Any s)
    (hfloat : (s.client c).isfloating = true) (henter : Enters c e s) (hs : step e s = .ok s₁)
    (hrun : Run step (fun e s => Between c e s ∧ SparesSave c e s) s₁ es t)
    (hleave : Leaves c e' t) (hspare : SparesSave c e' t) (ht : step e' t = .ok u) :
    u.rect c = s.rect c ∧ (u.geom c).bw = (s.geom c).bw ∧
      (u.client c).isfloating = (s.client c).isfloating := by
  have hreach₁ : Reachable Any s₁ := h.step trivial hs
  have hstart : Reachable Any s₁ ∧ Saved c ⟨s.rect c, (s.geom c).bw⟩ s₁ :=
    ⟨hreach₁, saved_of_enters (filed_any h) hfloat henter s₁ hs⟩
  have hend := hrun.preserves (fun t => Reachable Any t ∧ Saved c ⟨s.rect c, (s.geom c).bw⟩ t)
    (fun e t v hpre hok hv => by
      obtain ⟨⟨hun, hleave, hmove⟩, hspare⟩ := hok
      exact ⟨hpre.1.step trivial hv,
        saved_step hpre.2 (filed_any hpre.1) hun hleave hmove hspare v hv⟩) hstart
  have hback := restored_of_leaves hend.2 hleave (hspare.1 hleave) u ht
  exact ⟨hback.rect, hback.bw, hback.float.trans hfloat.symm⟩

/-- A floating window goes fullscreen, another tag is viewed and a window
mapped there, and a client message ends fullscreen. -/
theorem fullscreen_restores_one_window : ∃ s u : State,
    (s.client 0).isfloating = true ∧ (u.client 0).isfullscreen = false ∧ u.rect 0 = s.rect 0 := by
  obtain ⟨s, hs, hp⟩ := exists_of_passes
    (x := play oneScreen [.maprequest 0 10 plainWindow, .press .togglefloating (.i 0)])
    (p := fun s => (s.client 0).isfloating && !(s.client 0).isfullscreen && s.sel == some 0 &&
      passes (step (.press .togglefullscr (.i 0)) s) fun s₁ =>
        passes (step (.press .view (.ui (tagBit 1))) s₁) fun s₂ =>
          passes (step (.maprequest 1 11 plainWindow) s₂) fun t =>
            (t.client 0).isfullscreen && t.wintoclient 10 == some 0 && !t.visible 0 &&
              passes (step (.clientmessage 10 (.netWMState 0 true false)) t) fun u =>
                !(u.client 0).isfullscreen) (by decide +kernel)
  simp only [Bool.and_eq_true, Bool.not_eq_true', beq_iff_eq] at hp
  obtain ⟨⟨⟨hfloat, hfull⟩, hsel⟩, hp⟩ := hp
  obtain ⟨s₁, hs₁, hp⟩ := exists_of_passes hp
  obtain ⟨s₂, hs₂, hp⟩ := exists_of_passes hp
  obtain ⟨t, ht, hp⟩ := exists_of_passes hp
  simp only [Bool.and_eq_true, Bool.not_eq_true', beq_iff_eq] at hp
  obtain ⟨⟨⟨hfull', hwin⟩, hvis⟩, hp⟩ := hp
  obtain ⟨u, hu, hp⟩ := exists_of_passes hp
  rw [Bool.not_eq_true'] at hp
  have hview : ∀ v, Between 0 (.press .view (.ui (tagBit 1))) v ∧
      SparesSave 0 (.press .view (.ui (tagBit 1))) v := fun v =>
    ⟨⟨fun h => (by cases h), fun h => (by cases h.2.2.1),
      fun ⟨b, cls, hb, _, hmoves, _⟩ => by
        cases hb
        cases hmoves⟩, fun h => (by cases h.2.2.1), fun _ => trivial⟩
  have hmap : ∀ v, Between 0 (.maprequest 1 11 plainWindow) v ∧
      SparesSave 0 (.maprequest 1 11 plainWindow) v := fun v =>
    ⟨⟨fun h => (by cases h), fun h => h.2, fun ⟨b, cls, hb, _⟩ => by cases hb⟩,
      fun h => h.2.elim, trivial⟩
  have hrun : Run step (fun e s => Between 0 e s ∧ SparesSave 0 e s) s₁ _ t :=
    .cons (hview s₁) hs₂ (.cons (hmap s₂) ht (.nil t))
  have hleave : Leaves 0 (.clientmessage 10 (.netWMState 0 true false)) t :=
    ⟨hfull', hwin, by decide⟩
  have hfits : FitsBack 0 t := fun hv => by
    rw [hvis] at hv
    cases hv
  have henter : Enters 0 (.press .togglefullscr (.i 0)) s := ⟨hfull, by decide, rfl, hsel⟩
  exact ⟨s, u, hfloat, hp, (fullscreen_restores (reachable_play hs) hfloat henter hs₁ hrun hleave
    ⟨fun _ => hfits, trivial⟩ hu).1⟩

/-- A floating window goes fullscreen and the screen gets larger: it leaves
fullscreen with the size of the old screen. -/
theorem resized_screen_loses_geometry : ¬ ∀ (c : ClientId) (s s₁ t u : State) (e e' : Event)
    (es : List Event), Reachable Any s → (s.client c).isfloating = true → Enters c e s →
      step e s = .ok s₁ → Run step (Between c) s₁ es t → Leaves c e' t → step e' t = .ok u →
      u.rect c = s.rect c ∧ (u.geom c).bw = (s.geom c).bw ∧
        (u.client c).isfloating = (s.client c).isfloating := by
  intro h
  obtain ⟨s, hs, hp⟩ := exists_of_passes
    (x := play oneScreen [.maprequest 0 10 plainWindow, .press .togglefloating (.i 0)])
    (p := fun s => (s.client 0).isfloating && !(s.client 0).isfullscreen && s.sel == some 0 &&
      passes (step (.press .togglefullscr (.i 0)) s) fun s₁ =>
        passes (step (.configurenotify 1200 900
          ⟨some [⟨0, 0, 1200, 900⟩], some (5, 5)⟩) s₁) fun t =>
          (t.client 0).isfullscreen && t.sel == some 0 &&
            passes (step (.press .togglefullscr (.i 0)) t) fun u => u.rect 0 ≠ s.rect 0)
    (by decide +kernel)
  simp only [Bool.and_eq_true, Bool.not_eq_true', beq_iff_eq] at hp
  obtain ⟨⟨⟨hfloat, hfull⟩, hsel⟩, hp⟩ := hp
  obtain ⟨s₁, hs₁, hp⟩ := exists_of_passes hp
  obtain ⟨t, ht, hp⟩ := exists_of_passes hp
  simp only [Bool.and_eq_true, beq_iff_eq] at hp
  obtain ⟨⟨hfull', hsel'⟩, hp⟩ := hp
  obtain ⟨u, hu, hp⟩ := exists_of_passes hp
  rw [decide_eq_true_eq] at hp
  have hbound : (.togglefullscr, .i 0) ∈ keys := by decide
  have henter : Enters 0 (.press .togglefullscr (.i 0)) s := ⟨hfull, hbound, rfl, hsel⟩
  have hleave : Leaves 0 (.press .togglefullscr (.i 0)) t := ⟨hfull', hbound, rfl, hsel'⟩
  have hrun : Run step (Between 0) s₁ _ t :=
    .cons ⟨fun h => (by cases h), fun h => h.2, fun ⟨b, cls, hb, _⟩ => by cases hb⟩ ht (.nil t)
  exact hp (h 0 s s₁ t u _ _ _ (reachable_play hs) hfloat henter hs₁ hrun hleave hu).1

end Dwm
