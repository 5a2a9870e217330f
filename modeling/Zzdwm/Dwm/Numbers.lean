import Zzdwm.Dwm.Setters

/-!
# The numbers of the monitors

`updategeom` is the only routine that numbers monitors and that links or
unlinks them.  Everything else leaves the list `mons` and the field `num` of
every monitor alone, which is recorded here as the relation `Still`.

* `Filed.still_runKey`, `Filed.still_runButton` — every command is still;
* `Filed.still_step` — so is every event but a `configurenotify`.
-/

namespace Dwm

open Machine

variable {lost base : ClientId → Prop} {s t u : State} {c r : ClientId} {m : MonId}

/-- The same monitors are linked, with the same numbers. -/
structure Still (s t : State) : Prop where
  mons : t.mons = s.mons
  num : ∀ m, (t.settings m).num = (s.settings m).num

theorem Still.refl (s : State) : Still s s := ⟨rfl, fun _ => rfl⟩

theorem Still.trans (h : Still s t) (h' : Still t u) : Still s u :=
  ⟨h'.mons.trans h.mons, fun m => (h'.num m).trans (h.num m)⟩

theorem Still.of_settings (hmons : t.mons = s.mons) (hset : t.settings = s.settings) :
    Still s t := ⟨hmons, fun m => by rw [hset]⟩

theorem Redrawn.still (h : Redrawn s t) : Still s t := .of_settings h.mons h.settings

theorem Relinked.still (h : Relinked s t) : Still s t := .of_settings h.mons h.settings

theorem Still.redraw (h : Still s t) (h' : Redrawn t u) : Still s u := h.trans h'.still

theorem Still.relink (h : Still s t) (h' : Relinked t u) : Still s u := h.trans h'.still

/-- An assignment to a client, wherever it puts the client. -/
theorem Still.modClient {f : Client → Client} (h : Still s t) : Still s (t.modClient c f) :=
  h.trans (.of_settings rfl rfl)

/-- An assignment to the settings of a monitor that leaves its number alone. -/
theorem Still.modSettings {f : Settings → Settings} (h : Still s t)
    (hf : (f (t.settings m)).num = (t.settings m).num) : Still s (t.modSettings m f) := by
  refine h.trans ⟨rfl, fun k => ?_⟩
  rw [settings_modSettings]
  by_cases hk : k = m
  · subst hk
    rw [Function.update_self]
    exact hf
  · rw [Function.update_of_ne hk]

/-! ## Assignments to settings -/

theorem Settings.num_setfact {f : Rat → Settings → Option Settings} (a : Rat) (m : Settings)
    (hf : ∀ k, f a m = some k → k.num = m.num) : ((f a m).getD m).num = m.num := by
  cases hk : f a m with
  | none => rfl
  | some k => exact hf k hk

theorem Settings.num_setmfact {a : Rat} {m k : Settings} (h : m.setmfact a = some k) :
    k.num = m.num := by
  unfold Settings.setmfact at h
  dsimp only at h
  repeat' split at h
  all_goals first
    | cases h
      rfl
    | cases h

theorem Settings.num_setsmfact {a : Rat} {m k : Settings} (h : m.setsmfact a = some k) :
    k.num = m.num := by
  unfold Settings.setsmfact at h
  dsimp only at h
  repeat' split at h
  all_goals first
    | cases h
      rfl
    | cases h

/-- **No assignment that an event makes numbers a monitor.** -/
theorem Setter.num_apply (σ : Setter) (m : Settings) : (σ.apply m).num = m.num := by
  cases σ with
  | view a =>
      change (m.view a).num = m.num
      unfold Settings.view
      dsimp only
      split <;> rfl
  | toggleview t => rfl
  | setTags t => rfl
  | setlayout a =>
      change (m.setlayout a).num = m.num
      unfold Settings.setlayout
      dsimp only
      split <;> split <;> rfl
  | incnmaster i => rfl
  | resetnmaster a => rfl
  | setmfact a =>
      exact Settings.num_setfact (f := fun a m => m.setmfact a) a m fun k => Settings.num_setmfact
  | setsmfact a =>
      exact Settings.num_setfact (f := fun a m => m.setsmfact a) a m fun k => Settings.num_setsmfact
  | resetmfact =>
      change m.resetmfact.num = m.num
      unfold Settings.resetmfact
      dsimp only
      split <;> rfl
  | resizemouse x y =>
      change (m.resizemouse x y).num = m.num
      unfold Settings.resizemouse
      split <;> rfl

/-- An assignment to the selected monitor, and a rearrangement. -/
theorem still_assign (σ : Setter) (s : State) :
    Still s (arrangesel (s.modSettings s.selmon σ.apply)) :=
  ((Still.refl s).modSettings (σ.num_apply _)).redraw (Redrawn.refl _).arrangesel

/-- An assignment to the selected monitor, with a refocus. -/
theorem still_refocus (σ : Setter) (s : State) :
    Still s (arrangesel (focus none (s.modSettings s.selmon σ.apply))) :=
  ((Still.refl s).modSettings (σ.num_apply _)).relink
    ((relinked_focus none _).redraw (Redrawn.refl _).arrangesel)

theorem still_view (a : TagSet) (s : State) : Still s (view a s) := by
  unfold view
  split
  · exact .refl s
  · exact still_refocus (.view a) s

theorem still_setlayout (a : Option Layout) (s : State) : Still s (setlayout a s) := by
  have hset := (Still.refl s).modSettings (m := s.selmon) ((Setter.setlayout a).num_apply _)
  unfold setlayout
  dsimp only
  split
  · exact hset.redraw (Redrawn.refl _).arrangesel
  · exact hset

theorem still_setfact {move : ClientId → State → State} {set : Settings → Option Settings}
    (s : State) (hmove : ∀ c, Redrawn s (move c s))
    (hset : ∀ k, set (s.settings s.selmon) = some k → k.num = (s.settings s.selmon).num) :
    Post (setfact move set s) (Still s) := by
  unfold setfact
  refine (post_any _).bind fun b _ => ?_
  split
  · exact (post_any _).bind fun c _ => (post_pure _).mpr (hmove c).arrangesel.still
  · split
    · rename_i k hk
      exact (post_pure _).mpr (((Still.refl s).modSettings (hset k hk)).redraw
        (Redrawn.refl _).arrangesel)
    · exact (post_pure _).mpr (.refl s)

theorem still_swaptag (a : TagSet) (s : State) : Still s (swaptag a s) := by
  have hloop : ∀ (cs : List ClientId) (f : Client → Client) (u : State),
      Still u (cs.foldl (fun s c => s.modClient c f) u) := by
    intro cs f
    induction cs with
    | nil => exact fun u => .refl u
    | cons c cs ih => exact fun u => (Still.refl u).modClient.trans (ih _)
  unfold swaptag
  dsimp only
  split
  · exact .refl s
  · exact (hloop _ _ s).trans (still_refocus (.setTags (a &&& tagmask)) _)

theorem still_tag (a : TagSet) (s : State) : Post (tag a s) (Still s) := by
  unfold tag
  split
  · rename_i c _
    split
    · dsimp only
      have hret := ((Still.refl s).modClient (c := c)
        (f := fun k => { k with tags := a &&& tagmask })).relink
        ((relinked_focus none _).redraw (Redrawn.refl _).arrangesel)
      refine (post_any _).bind fun _ _ => (post_pure _).mpr ?_
      split
      · exact hret.trans (still_view a _)
      · exact hret
    · exact (post_ok _).mpr (.refl s)
  · exact (post_ok _).mpr (.refl s)

theorem still_toggletag (a : TagSet) (s : State) : Still s (toggletag a s) := by
  unfold toggletag
  split
  · dsimp only
    split
    · exact (Still.refl s).modClient.relink
        ((relinked_focus none _).redraw (Redrawn.refl _).arrangesel)
    · exact .refl s
  · exact .refl s

/-! ## Clients that move -/

theorem still_setsticky (c : ClientId) (b : Bool) (s : State) : Still s (setsticky c b s) := by
  unfold setsticky
  split
  · exact (Still.refl s).modClient
  · split
    · exact (Still.refl s).modClient.redraw (Redrawn.refl _).arrange
    · exact .refl s

theorem still_updatewindowtype (c : ClientId) (n : NetState) (b : Bool) (s : State) :
    Still s (updatewindowtype c n b s) :=
  .of_settings (Unmoved.refl s).updatewindowtype.mons (handed_updatewindowtype c n b s).settings

theorem still_sendmon (c : ClientId) (m : MonId) (s : State) : Still s (sendmon c m s) :=
  .of_settings (mons_sendmon c m s) (handed_sendmon c m s).settings

theorem still_tagmon (i : Int) (s : State) : Still s (tagmon i s) := by
  unfold tagmon
  split
  · split
    · exact .refl s
    · exact still_sendmon _ _ s
  · exact .refl s

theorem still_settleAll (m : State → MonId) (cs : List ClientId) (s : State) :
    Still s (cs.foldl (fun s c => settle (m s) c s) s) := by
  induction cs generalizing s with
  | nil => exact .refl s
  | cons c cs ih =>
      obtain ⟨hmons, -, -, hset, -⟩ := settle_keeps (m s) c s
      exact (Still.of_settings hmons hset).trans (ih _)

theorem still_tagswapmon (i : Int) (s : State) : Still s (tagswapmon i s) := by
  unfold tagswapmon
  split
  · exact .refl s
  · dsimp only
    have hout := (relinked_withdrawAll (s.selM.clients.filter s.visible) s).still
    generalize (s.selM.clients.filter s.visible).foldl (fun s c => withdraw c s) s = s₁ at hout ⊢
    have hout₂ := hout.relink (relinked_withdrawAll
      ((s₁.monitor (dirtomon i s)).clients.filter s₁.visible) s₁)
    have hin := hout₂.trans (still_settleAll (fun _ => dirtomon i s)
      (s.selM.clients.filter s.visible).reverse _)
    have hin₂ := hin.trans (still_settleAll (fun s => s.selmon)
      ((s₁.monitor (dirtomon i s)).clients.filter s₁.visible).reverse _)
    exact hin₂.relink (Relinked.refl _).focus.arrange

theorem still_togglesticky (s : State) : Still s (togglesticky s) := by
  unfold togglesticky
  split
  · exact (still_setsticky _ _ s).redraw (Redrawn.refl _).arrangesel
  · exact .refl s

/-- **Commands** neither link nor number monitors. -/
theorem still_runKey (cls : Window → Option String) (k : Binding) (s : State) :
    Post (runKey cls k s) (Still s) := by
  obtain ⟨f, a⟩ := k
  cases f with
  | spawn | killclient | quit | incfloat | moveorplace | resizemouse =>
      exact (post_ok _).mpr (.refl s)
  | togglebar =>
      refine (post_ok _).mpr (((Still.refl s).modSettings ?_).redraw (Redrawn.refl _).arrangesel)
      unfold Settings.updatebarpos
      dsimp only
      split <;> rfl
  | incnmaster =>
      refine (post_any _).bind fun b _ => ?_
      split
      · exact (post_pure _).mpr (.refl s)
      · exact (post_pure _).mpr (still_assign (.incnmaster a.int) s)
  | resetnmaster => exact (post_ok _).mpr (still_assign (.resetnmaster a.tags) s)
  | zoom => exact (post_ok _).mpr (relinked_zoom s).still
  | view => exact (post_ok _).mpr (still_view _ s)
  | setlayout => exact (post_ok _).mpr (still_setlayout _ s)
  | togglefloating => exact (post_ok _).mpr (redrawn_togglefloating s).still
  | focusmaster => exact (relinked_focusmaster s).mono fun _ => Relinked.still
  | resetmfact =>
      refine (post_ok _).mpr ?_
      unfold resetmfact
      split
      · exact still_assign .resetmfact s
      · exact .refl s
  | togglefullscr => exact (post_ok _).mpr (redrawn_togglefullscr s).still
  | togglesticky => exact (post_ok _).mpr (still_togglesticky s)
  | swapfocus => exact (relinked_swapfocus s).mono fun _ => Relinked.still
  | tag => exact still_tag _ s
  | setmfact =>
      exact still_setfact s (fun c => .ite (redrawn_moveclient _ s) (.refl s))
        fun k => Settings.num_setmfact
  | setgaps =>
      refine (post_ok _).mpr (((Still.refl s).modSettings ?_).redraw (Redrawn.refl _).arrangesel)
      repeat' split
      all_goals rfl
  | focusmon => exact (post_ok _).mpr (relinked_focusmon _ s).still
  | tagmon => exact (post_ok _).mpr (still_tagmon _ s)
  | tagswapmon => exact (post_ok _).mpr (still_tagswapmon _ s)
  | rotatetags =>
      refine (post_ok _).mpr ?_
      unfold rotatetags
      dsimp only
      split
      · exact still_refocus (.setTags _) s
      · exact .refl s
  | rotatestack => exact (post_ok _).mpr (relinked_rotatestack _ s).still
  | cyclelayout => exact (post_ok _).mpr (still_setlayout _ s)
  | shiftviewclients =>
      change Post (shiftviewclients _ s) _
      unfold shiftviewclients
      split
      · exact (post_ok _).mpr (still_view _ s)
      · exact post_error _
  | focusstack => exact (relinked_focusstack _ s).mono fun _ => Relinked.still
  | setsmfact =>
      exact still_setfact s (fun c => .ite (redrawn_moveclient _ s) (.refl s))
        fun k => Settings.num_setsmfact
  | fmaximize => exact (redrawn_fmaximize a.tags s).mono fun _ => Redrawn.still
  | setwfact => exact (redrawn_setwfact a.fact s).mono fun _ => Redrawn.still
  | sethfact => exact (redrawn_sethfact a.fact s).mono fun _ => Redrawn.still
  | fsnap => exact (redrawn_fsnap a.tags s).mono fun _ => Redrawn.still
  | fdeck => exact (post_ok _).mpr (redrawn_fdeck _ s).still
  | focussame => exact (relinked_focussame cls _ s).mono fun _ => Relinked.still
  | toggleview =>
      refine (post_ok _).mpr ?_
      unfold toggleview
      dsimp only
      split
      · exact still_refocus (.toggleview _) s
      · exact .refl s
  | swaptag => exact (post_ok _).mpr (still_swaptag _ s)
  | toggletag => exact (post_ok _).mpr (still_toggletag _ s)

/-! ## Drags and events -/

theorem still_maprequest (c : ClientId) (w : Window) (i : WinInfo) (s : State) :
    Post (maprequest c w i s) (Still s) := by
  unfold maprequest
  split
  · exact post_error _
  · split
    · exact (post_ok _).mpr (.refl s)
    · obtain ⟨-, hmons, hset⟩ := manage_keeps c w i s
      exact (post_ok _).mpr (.of_settings hmons hset)

/-- A drag loop is still if its motions are. -/
theorem still_dragLoop {motion : Int → Int → State → State}
    (hmotion : ∀ x y s, Still s (motion x y s)) (es : List DragEvent) (s : State) :
    Post (dragLoop id (fun s _ => s) motion es s) (Still s) := by
  refine dragLoop_post (Still s) ?_ ?_ ?_ es (.refl s)
  · exact fun a w r ha => ha.redraw (redrawn_configurerequest w r a)
  · exact fun a d w i ha => (still_maprequest d w i a).mono fun _ => ha.trans
  · exact fun a x y ha => ha.trans (hmotion x y a)

theorem still_followmon (c : ClientId) (s : State) : Still s (followmon c s) := by
  unfold followmon
  dsimp only
  split
  · exact (still_sendmon c _ s).relink (Relinked.refl _).withSelmon.focus
  · exact .refl s

theorem still_movemouse (d : Drag) (s : State) : Post (movemouse d s) (Still s) := by
  unfold movemouse
  split
  · split
    · exact (post_ok _).mpr (.refl s)
    · split
      · refine (still_dragLoop (fun _ _ a => (redrawn_moveMotion _ _ _ a).still) _ s).bind ?_
        exact fun a ha => (post_pure _).mpr (ha.trans (still_followmon _ a))
      · exact (post_ok _).mpr (.refl s)
  · exact (post_ok _).mpr (.refl s)

theorem still_resizemouse (d : Drag) (s : State) : Post (resizemouse d s) (Still s) := by
  unfold resizemouse
  split
  · split
    · exact (post_ok _).mpr (.refl s)
    · dsimp only
      split
      · exact (post_ok _).mpr (.refl s)
      · refine (still_dragLoop (fun _ _ a => ?_) _ s).bind fun a ha => (post_pure _).mpr ?_
        · exact (Redrawn.ite (Redrawn.refl a).resize (.refl a)).still
        · refine Still.trans ?_ (still_followmon _ _)
          split
          · exact ha
          · exact ha.trans (still_assign (.resizemouse _ _) a)
  · exact (post_ok _).mpr (.refl s)

theorem still_reattach (above : Bool) (c r : ClientId) (s : State) :
    Still s (reattach above c r s) := by
  have hout := ((Relinked.refl s).detachstack (c := c)).detach (c := c)
  unfold reattach
  dsimp only
  generalize detach c (detachstack c s) = t at hout ⊢
  have htag : Still s (if t.own c ≠ t.own r then
      (rearrange (t.own c) t).modClient c fun k => { k with tags := (t.monOf r).tags }
      else t) := by
    split
    · exact (hout.still.redraw (Redrawn.refl t).rearrange).modClient
    · exact hout.still
  exact htag.modClient.relink
    ((Relinked.refl _).modMon.attachstack.redraw (Redrawn.refl _).rearrange)

theorem still_placeMotion (i : Int) (wa : Rect) (x y mx my : Int) (p : Placing) :
    Still p.s (placeMotion i wa x y c mx my p).s := by
  have hsel : Still p.s { p.s with selmon := recttomon mx my 1 1 p.s } := .of_settings rfl rfl
  unfold placeMotion placeAt
  dsimp only
  repeat' split
  all_goals first
    | exact hsel
    | exact hsel.trans (still_reattach _ _ _ _)

theorem still_placeEnd (d : Drag) (c : ClientId) (p : Placing) : Still p.s (placeEnd d c p) := by
  have hplace : Still p.s (placeOn c (recttomon d.release.1 d.release.2 1 1 p.s) p.s) := by
    unfold placeOn
    split
    · exact (((Relinked.refl p.s).detach.detachstack.redraw
        (Redrawn.refl _).rearrange).still.modClient).relink
        (Relinked.refl _).attach.attachstack.withSelmon
    · exact .refl _
  unfold placeEnd
  dsimp only
  generalize placeOn c (recttomon d.release.1 d.release.2 1 1 p.s) p.s = t at hplace ⊢
  have hfocus : Still p.s ((focus (some c) t).modGeom c fun g => { g with beingmoved := false }) :=
    hplace.relink ((relinked_focus _ t).redraw (Redrawn.refl _).modGeom)
  refine Still.redraw ?_ (Redrawn.refl _).rearrange
  split
  · exact hfocus.redraw (Redrawn.refl _).resize
  · exact hfocus

theorem still_placemouse (i : Int) (d : Drag) (s : State) : Post (placemouse i d s) (Still s) := by
  unfold placemouse
  split
  · split
    · exact (post_ok _).mpr (.refl s)
    · rename_i c _ _
      dsimp only
      have hgrab : Still s ((s.modClient c fun k => { k with isfloating := false }).modGeom c
          fun g => { g with beingmoved := true }) :=
        (Still.refl s).modClient.redraw (Redrawn.refl _).modGeom
      split
      · refine (dragLoop_post (fun p : Placing => Still s p.s) ?_ ?_ ?_ d.events hgrab).bind ?_
        · exact fun a w r ha => ha.redraw (redrawn_configurerequest w r a.s)
        · exact fun a e w i ha => (still_maprequest e w i a.s).mono fun _ => ha.trans
        · exact fun a x y ha => ha.trans (still_placeMotion _ _ _ _ _ _ a)
        · exact fun a ha => (post_pure _).mpr (ha.trans (still_placeEnd d _ a))
      · exact (post_ok _).mpr hgrab
  · exact (post_ok _).mpr (.refl s)

theorem still_runButton (d : Drag) (k : Binding) (s : State) :
    Post (runButton d k s) (Still s) := by
  obtain ⟨f, a⟩ := k
  have hkey := still_runKey (fun _ => none) (f, a) s
  cases f with
  | moveorplace =>
      change Post (moveorplace _ d s) _
      unfold moveorplace
      split
      · exact still_movemouse d s
      · exact still_placemouse _ d s
  | resizemouse => exact still_resizemouse d s
  | _ => exact hkey

theorem still_clientmessage (w : Window) (x : Message) (s : State) :
    Still s (clientmessage w x s) := by
  unfold clientmessage
  split
  · rename_i c _
    cases x with
    | netWMState a fullscreen sticky =>
        have hfull : ∀ b, Still s (if fullscreen then setfullscreen c b s else s) := fun b =>
          (Redrawn.ite (redrawn_setfullscreen c b s) (.refl s)).still
        dsimp only
        split
        · exact (hfull _).trans (still_setsticky _ _ _)
        · exact hfull _
    | netActiveWindow =>
        dsimp only
        unfold activate
        dsimp only
        split
        · have hsel : Still s { s with selmon := s.own c } := .of_settings rfl rfl
          exact (hsel.trans (still_view _ _)).relink (relinked_focus _ _)
        · exact .refl s
    | netWMDesktop data => exact (Still.refl s).modClient.redraw (Redrawn.refl _).arrange
    | netCloseWindow => exact .refl s
    | other => exact .refl s
  · exact .refl s

theorem still_propertynotify (w : Window) (x : Property) (s : State) :
    Still s (propertynotify w x s) := by
  unfold propertynotify
  split
  · cases x with
    | transientFor p =>
        dsimp only
        split
        · exact (Still.refl s).modClient.redraw (Redrawn.refl _).arrange
        · exact .refl s
    | windowType n b => exact still_updatewindowtype _ n b s
    | motifHints b => exact (redrawn_updatemotifhints _ b s).still
    | other => exact .refl s
  · exact .refl s

theorem still_destroynotify (w : Window) (s : State) : Still s (destroynotify w s) := by
  unfold destroynotify
  split
  · rename_i c _
    have hout : Still s (detachstack c (detach c s)) := (Relinked.refl s).detach.detachstack.still
    have hfree : Still s { detachstack c (detach c s) with
        live := Function.update (detachstack c (detach c s)).live c false } :=
      ⟨hout.mons, hout.num⟩
    exact hfree.relink (Relinked.refl _).focus.arrange
  · exact .refl s

/-- **Events.**  Only a `configurenotify` links or numbers monitors. -/
theorem still_step (e : Event) (s : State) :
    Post (step e s) fun t => (∃ w k l, e = .configurenotify w k l) ∨ Still s t := by
  cases e with
  | buttonpress x wheel b d =>
      refine Post.mono (P := Still s) ?_ fun _ => Or.inr
      have hpress := (relinked_press x wheel s).still
      change Post (buttonpress x wheel b d s) _
      unfold buttonpress
      generalize press x wheel s = r at hpress ⊢
      dsimp only
      split
      · split
        · exact (still_runButton d _ _).mono fun _ => hpress.trans
        · exact (post_ok _).mpr hpress
      · exact (post_ok _).mpr hpress
  | clientmessage w x => exact (post_ok _).mpr (Or.inr (still_clientmessage w x s))
  | configurenotify w k l => exact fun _ _ => Or.inl ⟨w, k, l, rfl⟩
  | configurerequest w r => exact (post_ok _).mpr (Or.inr (redrawn_configurerequest w r s).still)
  | destroynotify w => exact (post_ok _).mpr (Or.inr (still_destroynotify w s))
  | keypress k cls =>
      refine Post.mono (P := Still s) ?_ fun _ => Or.inr
      change Post (keypress k cls s) _
      unfold keypress
      split
      · exact still_runKey cls k s
      · exact (post_ok _).mpr (.refl s)
  | maprequest c w i => exact (still_maprequest c w i s).mono fun _ => Or.inr
  | propertynotify w x => exact (post_ok _).mpr (Or.inr (still_propertynotify w x s))
  | unmapnotify w b =>
      refine (post_ok _).mpr (Or.inr ?_)
      unfold unmapnotify
      split
      · exact .refl s
      · exact still_destroynotify w s

end Dwm
