import Zzdwm.Dwm.Handlers

/-!
# How tags are handed on

Most of what dwm does to its clients and monitors assigns no tag set of its
own: a client that moves takes on the tags in view on its new monitor, a
transient window the tags of its parent, a new window those of the rules.

* `Handed s t` — the settings stay, and every client of `t` has tags that some
  client of `s` had, that a monitor shows, or that are proper;
* `Filed.handed_manage`, `handed_sendmon`, `handed_tagswapmon`, … — one lemma
  for each routine that hands tags on;
* `Filed.handed_movemouse`, `Filed.handed_placemouse` — whole drags.
-/

namespace Dwm

open Machine

variable {lost base : ClientId → Prop} {s t u : State} {c r : ClientId} {m : MonId}

/-- A non-empty subset of the tags there are. -/
def Proper (t : TagSet) : Prop := t ≠ 0#32 ∧ t &&& tagmask = t

/-- Tags that are on view somewhere or come from the rules. -/
def OnView (s : State) (x : TagSet) : Prop := (∃ m, x = (s.settings m).tags) ∨ Proper x

/-- Tags that a client can take on without a command that names them. -/
def Given (s : State) (x : TagSet) : Prop :=
  (∃ d, s.live d = true ∧ x = s.tagsOf d) ∨ OnView s x

/-- Clients may come, go, move and take on tags that are there already. -/
structure Handed (s t : State) : Prop where
  settings : t.settings = s.settings
  tags : ∀ c, t.live c = true → Given s (t.tagsOf c)

theorem Given.trans {x : TagSet} (h : Handed s t) (hx : Given t x) : Given s x := by
  rcases hx with ⟨d, hd, rfl⟩ | ⟨m, rfl⟩ | hx
  · exact h.tags d hd
  · rw [h.settings]
    exact Or.inr (Or.inl ⟨m, rfl⟩)
  · exact Or.inr (Or.inr hx)

/-- No client changes its tags. -/
theorem Handed.of_same (hset : t.settings = s.settings) (hlive : t.live = s.live)
    (htags : t.tagsOf = s.tagsOf) : Handed s t :=
  ⟨hset, fun c hc => Or.inl ⟨c, hlive ▸ hc, congrFun htags c⟩⟩

theorem Handed.refl (s : State) : Handed s s := .of_same rfl rfl rfl

theorem Handed.trans (h : Handed s t) (h' : Handed t u) : Handed s u :=
  ⟨h'.settings.trans h.settings, fun c hc => (h'.tags c hc).trans h⟩

theorem Relinked.tagsOf (h : Relinked s t) : t.tagsOf = s.tagsOf := by
  funext c
  rw [State.tagsOf, State.tagsOf, h.seat]

theorem Relinked.handed (h : Relinked s t) : Handed s t := .of_same h.settings h.live h.tagsOf

theorem Redrawn.handed (h : Redrawn s t) : Handed s t := h.relinked.handed

theorem tagsOf_modClient {f : Client → Client} [KeepsTags f] (c : ClientId) (s : State) :
    (s.modClient c f).tagsOf = s.tagsOf := by
  funext d
  by_cases hd : d = c
  · subst hd
    simp [State.tagsOf, State.seat, State.modClient, KeepsTags.tags (f := f)]
  · simp [State.tagsOf, State.seat, State.modClient, hd]

/-- A client takes on some tags. -/
theorem Handed.modClient {f : Client → Client} (h : Handed s t)
    (hf : Given t (f (t.client c)).tags) : Handed s (t.modClient c f) := by
  refine h.trans ⟨rfl, fun d hd => ?_⟩
  by_cases hdc : d = c
  · subst hdc
    have heq : (t.modClient d f).tagsOf d = (f (t.client d)).tags := by
      simp [State.tagsOf, State.seat, State.modClient]
    rw [heq]
    exact hf
  · have heq : (t.modClient c f).tagsOf d = t.tagsOf d := by
      simp [State.tagsOf, State.seat, State.modClient, hdc]
    rw [heq]
    exact Or.inl ⟨d, hd, rfl⟩

theorem onView_monitor (m : MonId) (s : State) : OnView s (s.monitor m).tags := Or.inl ⟨m, rfl⟩

/-! ## Clients that move -/

theorem tagsOf_setsticky (c : ClientId) (b : Bool) (s : State) :
    (setsticky c b s).tagsOf = s.tagsOf := by
  unfold setsticky
  split
  · exact tagsOf_modClient c s
  · split
    · exact (Redrawn.refl _).arrange.relinked.tagsOf.trans (tagsOf_modClient c s)
    · rfl

theorem tagsOf_updatewindowtype (c : ClientId) (n : NetState) (b : Bool) (s : State) :
    (updatewindowtype c n b s).tagsOf = s.tagsOf := by
  have hdialog : ∀ {u : State}, u.tagsOf = s.tagsOf → (if b then
      u.modClient c fun k => { k with isfloating := true } else u).tagsOf = s.tagsOf := by
    intro u hu
    split
    · exact (tagsOf_modClient c _).trans hu
    · exact hu
  cases n with
  | fullscreen => exact hdialog (redrawn_setfullscreen c true s).relinked.tagsOf
  | sticky => exact hdialog (tagsOf_setsticky c true s)
  | other => exact hdialog rfl

theorem tagsOf_dress (c : ClientId) (i : WinInfo) (s : State) :
    (dress c i s).tagsOf = s.tagsOf := by
  unfold dress
  dsimp only
  refine (@tagsOf_modClient _ ⟨fun k => ?_⟩ c _).trans ?_
  · split <;> rfl
  · rw [(Redrawn.refl _).modGeom.relinked.tagsOf,
      (redrawn_updatemotifhints _ _ _).relinked.tagsOf, tagsOf_modClient c,
      tagsOf_updatewindowtype, (Redrawn.refl _).modGeom.relinked.tagsOf]

/-- Stickiness is no tag. -/
theorem handed_setsticky (c : ClientId) (b : Bool) (s : State) : Handed s (setsticky c b s) := by
  have hset : ∀ b, Handed s (s.modClient c fun k => { k with issticky := b }) := fun _ =>
    .of_same rfl rfl (tagsOf_modClient c s)
  unfold setsticky
  split
  · exact hset true
  · split
    · exact (hset false).trans (Redrawn.refl _).arrange.handed
    · exact .refl s

theorem handed_updatewindowtype (c : ClientId) (n : NetState) (b : Bool) (s : State) :
    Handed s (updatewindowtype c n b s) := by
  have hdialog : ∀ {u : State}, Handed s u → Handed s (if b then
      u.modClient c fun k => { k with isfloating := true } else u) := by
    intro u hu
    split
    · exact hu.trans (Redrawn.refl _).modClient.handed
    · exact hu
  cases n with
  | fullscreen => exact hdialog (redrawn_setfullscreen c true s).handed
  | sticky => exact hdialog (handed_setsticky c true s)
  | other => exact hdialog (.refl s)

theorem handed_sendmon (c : ClientId) (m : MonId) (s : State) : Handed s (sendmon c m s) := by
  unfold sendmon
  split
  · exact .refl s
  · have hgive := (relinked_withdraw c s).handed.modClient (c := c)
      (f := fun k => { k with mon := m, tags := ((withdraw c s).monitor m).tags }) (Or.inr (onView_monitor m _))
    exact hgive.trans ((Relinked.refl _).attachx.attachstack.focus.arrange).handed

theorem handed_settle (m : MonId) (c : ClientId) (s : State) : Handed s (settle m c s) := by
  have hgive := (Handed.refl s).modClient (c := c)
    (f := fun k => { k with mon := m, tags := (s.monitor m).tags }) (Or.inr (onView_monitor m s))
  have hback := hgive.trans ((Relinked.refl _).attach (c := c) |>.attachstack (c := c)).handed
  unfold settle
  dsimp only
  split
  · exact hback.trans (Redrawn.refl _).resizeclient.handed
  · exact hback

theorem handed_settleAll (m : State → MonId) (cs : List ClientId) (s : State) :
    Handed s (cs.foldl (fun s c => settle (m s) c s) s) := by
  induction cs generalizing s with
  | nil => exact .refl s
  | cons c cs ih => exact (handed_settle (m s) c s).trans (ih _)

theorem handed_tagswapmon (i : Int) (s : State) : Handed s (tagswapmon i s) := by
  unfold tagswapmon
  split
  · exact .refl s
  · dsimp only
    have hout := (relinked_withdrawAll (s.selM.clients.filter s.visible) s).handed
    generalize (s.selM.clients.filter s.visible).foldl (fun s c => withdraw c s) s = s₁
      at hout ⊢
    have hout₂ := hout.trans (relinked_withdrawAll
      ((s₁.monitor (dirtomon i s)).clients.filter s₁.visible) s₁).handed
    have hin := hout₂.trans (handed_settleAll (fun _ => dirtomon i s)
      (s.selM.clients.filter s.visible).reverse _)
    have hin₂ := hin.trans (handed_settleAll (fun s => s.selmon)
      ((s₁.monitor (dirtomon i s)).clients.filter s₁.visible).reverse _)
    exact hin₂.trans (Relinked.refl _).focus.arrange.handed

/-- A re-attach step of `placemouse`. -/
theorem handed_reattach (above : Bool) (c r : ClientId) (s : State) :
    Handed s (reattach above c r s) := by
  have hout := ((Relinked.refl s).detachstack (c := c) |>.detach (c := c)).handed
  unfold reattach
  dsimp only
  generalize detach c (detachstack c s) = t at hout ⊢
  have htag : Handed s (if t.own c ≠ t.own r then
      (rearrange (t.own c) t).modClient c fun k => { k with tags := (t.monOf r).tags }
      else t) := by
    split
    · exact (hout.trans (Redrawn.refl t).rearrange.handed).modClient (Or.inr (onView_monitor (t.own r) _))
    · exact hout
  generalize (if t.own c ≠ t.own r then
      (rearrange (t.own c) t).modClient c fun k => { k with tags := (t.monOf r).tags }
      else t) = u at htag ⊢
  have hmon : Handed u (u.modClient c fun k => { k with mon := u.own r }) :=
    .of_same rfl rfl (tagsOf_modClient c u)
  exact (htag.trans hmon).trans
    ((Relinked.refl _).modMon.attachstack.redraw (Redrawn.refl _).rearrange).handed

theorem handed_placeOn (c : ClientId) (m : MonId) (s : State) : Handed s (placeOn c m s) := by
  unfold placeOn
  split
  · dsimp only
    have hout := (((Relinked.refl s).detach (c := c) |>.detachstack (c := c)).redraw
      ((Redrawn.refl _).rearrange (m := s.own c))).handed
    generalize rearrange (s.own c) (detachstack c (detach c s)) = t at hout ⊢
    have hgive := hout.modClient (c := c)
      (f := fun k => { k with mon := m, tags := (t.monitor m).tags }) (Or.inr (onView_monitor m t))
    exact hgive.trans ((Relinked.refl _).attach.attachstack.withSelmon).handed
  · exact .refl s

/-- The end of `movemouse` and `resizemouse`. -/
theorem handed_followmon (c : ClientId) (s : State) : Handed s (followmon c s) := by
  unfold followmon
  dsimp only
  split
  · exact (handed_sendmon c _ s).trans ((Relinked.refl _).withSelmon.focus).handed
  · exact .refl s

/-! ## Clients that come and go -/

theorem tagsOf_modClient_self (c : ClientId) (f : Client → Client) (s : State) :
    (s.modClient c f).tagsOf c = (f (s.client c)).tags := by
  simp [State.tagsOf, State.seat, State.modClient]

/-- The rules give a client proper tags, or else those its monitor shows. -/
theorem onView_applyrules (c : ClientId) (i : WinInfo) (s : State) :
    OnView s ((applyrules c i s).tagsOf c) := by
  have hset : (applyrules c i s).settings = s.settings :=
    ((Assigned.refl c s).applyrules i).settings
  have hview : OnView (applyrules c i s) ((applyrules c i s).tagsOf c) := by
    unfold applyrules
    dsimp only
    rw [tagsOf_modClient_self]
    dsimp only
    split
    · rename_i hne
      exact Or.inr ⟨hne, by rw [BitVec.and_assoc, BitVec.and_self]⟩
    · exact onView_monitor _ _
  rcases hview with ⟨m, hm⟩ | hx
  · exact Or.inl ⟨m, by rw [hm, hset]⟩
  · exact Or.inr hx

/-- A new client takes its tags over from its parent or gets them from the rules. -/
theorem Filed.handed_manage (w : Window) (i : WinInfo) (h : Filed lost base s)
    (hfresh : s.live c = false) : Handed s (manage c w i s) := by
  obtain ⟨hseat, -, hset⟩ := manage_keeps c w i s
  refine ⟨hset, fun d hd => ?_⟩
  unfold manage at hd hset hseat ⊢
  split at hd
  · rw [if_pos ‹_›]
    exact Or.inl ⟨d, hd, rfl⟩
  · rename_i hdesktop
    rw [if_neg hdesktop] at hseat ⊢
    have hassigned := (Assigned.refl c (newclient c w i s)).adopt (i.transient.bind s.wintoclient) i
    have hlive := (relinked_enroll c _).live.trans (hassigned.dress i).live
    by_cases hdc : d = c
    · subst hdc
      rw [(relinked_enroll d _).tagsOf, tagsOf_dress]
      cases ht : i.transient.bind s.wintoclient with
      | none => exact Or.inr (onView_applyrules d i _)
      | some p =>
          obtain ⟨w', -, hw'⟩ := Option.bind_eq_some_iff.mp ht
          have hp := (h.here_of_window hw').1
          have hpd : p ≠ d := by
            rintro rfl
            exact Bool.noConfusion (hfresh.symm.trans hp)
          refine Or.inl ⟨p, hp, ?_⟩
          rw [adopt, tagsOf_modClient_self]
          simp [State.tagsOf, State.seat, newclient, hpd]
    · have hlive' : s.live d = true := by
        rw [hlive] at hd
        exact (Function.update_of_ne hdc ..).symm.trans hd
      exact Or.inl ⟨d, hlive', by rw [State.tagsOf, State.tagsOf, hseat d hdc]⟩

theorem Filed.handed_maprequest (c : ClientId) (w : Window) (i : WinInfo)
    (h : Filed lost base s) : Post (maprequest c w i s) (Handed s) := by
  unfold maprequest
  split
  · exact post_error _
  · rename_i hlive
    split
    · exact (post_ok _).mpr (.refl s)
    · exact (post_ok _).mpr (h.handed_manage w i (by simpa using hlive))

theorem handed_unmanage (c : ClientId) (s : State) : Handed s (unmanage c s) := by
  have hout := (Relinked.refl s).detach (c := c) |>.detachstack (c := c)
  unfold unmanage
  dsimp only
  generalize detachstack c (detach c s) = t at hout ⊢
  have hfree : Handed t { t with live := Function.update t.live c false } := by
    refine ⟨rfl, fun d hd => Or.inl ⟨d, ?_, rfl⟩⟩
    change Function.update t.live c false d = true at hd
    by_cases hdc : d = c
    · subst hdc
      rw [Function.update_self] at hd
      cases hd
    · rwa [Function.update_of_ne hdc] at hd
  exact (hout.handed.trans hfree).trans (Relinked.refl _).focus.arrange.handed

/-! ## Commands and drags -/

theorem relinked_focus (o : Option ClientId) (s : State) : Relinked s (focus o s) :=
  (Relinked.refl s).focus

theorem relinked_zoom (s : State) : Relinked s (zoom s) := by
  have hprev : ∀ o, Relinked s { s with prevclient := o } := fun _ => ⟨rfl, rfl, rfl, rfl, rfl⟩
  unfold zoom
  dsimp only
  split
  · split
    · exact hprev _
    · split
      · split
        · exact (hprev _).trans (relinked_pop _ _)
        · exact hprev _
      · exact (hprev _).trans (relinked_pop _ _)
  · exact hprev _

theorem relinked_rotatestack (i : Int) (s : State) : Relinked s (rotatestack i s) := by
  unfold rotatestack
  split
  · split
    · split
      · exact ((Relinked.refl s).detach.attach.detachstack.attachstack.redraw
          (Redrawn.refl _).arrangesel).focus
      · exact .refl s
    · split
      · exact ((Relinked.refl s).detach.enqueue.detachstack.enqueuestack.redraw
          (Redrawn.refl _).arrangesel).focus
      · exact .refl s
  · exact .refl s

theorem relinked_focusmaster (s : State) : Post (focusmaster s) (Relinked s) := by
  unfold focusmaster
  split
  · dsimp only
    split
    · exact (post_ok _).mpr (.refl s)
    · split
      · split
        · split
          · exact post_error _
          · split
            · exact (post_ok _).mpr (relinked_focus _ s)
            · exact (post_ok _).mpr (.refl s)
        · exact (post_ok _).mpr (.refl s)
      · exact (post_ok _).mpr ((Redrawn.refl s).modMon.relinked.focus)
  · exact (post_ok _).mpr (.refl s)

theorem relinked_focusmon (i : Int) (s : State) : Relinked s (focusmon i s) := by
  unfold focusmon
  dsimp only
  split
  · exact .refl s
  · exact (Redrawn.refl s).unfocus.relinked.withSelmon.focus

theorem relinked_focusstack (i : Int) (s : State) : Post (focusstack i s) (Relinked s) := by
  unfold focusstack
  split
  · split
    · exact (post_ok _).mpr (.refl s)
    · refine (post_any _).bind fun o _ => ?_
      split
      · exact (post_pure _).mpr (relinked_focus _ s)
      · exact (post_pure _).mpr (.refl s)
  · exact (post_ok _).mpr (.refl s)

theorem relinked_focussame (cls : Window → Option String) (i : Int) (s : State) :
    Post (focussame cls i s) (Relinked s) := by
  unfold focussame
  split
  · split
    · dsimp only
      split
      · exact (post_ok _).mpr (relinked_focus _ s)
      · split
        · exact post_error _
        · exact (post_ok _).mpr (.refl s)
    · exact (post_ok _).mpr (.refl s)
  · exact (post_ok _).mpr (.refl s)

theorem relinked_swapfocus (s : State) : Post (swapfocus s) (Relinked s) := by
  unfold swapfocus
  split
  · split
    · refine (post_ok _).mpr ?_
      split
      · exact relinked_focus _ s
      · exact .refl s
    · exact relinked_focusstack (-1) s
  · exact (post_ok _).mpr (.refl s)

theorem handed_tagmon (i : Int) (s : State) : Handed s (tagmon i s) := by
  unfold tagmon
  split
  · split
    · exact .refl s
    · exact handed_sendmon _ _ s
  · exact .refl s

theorem handed_togglesticky (s : State) : Handed s (togglesticky s) := by
  unfold togglesticky
  split
  · exact (handed_setsticky _ _ s).trans (Redrawn.refl _).arrangesel.handed
  · exact .refl s

theorem Filed.handed_movemouse (d : Drag) (h : Filed lost base s) :
    Post (movemouse d s) (Handed s) := by
  unfold movemouse
  split
  · rename_i c hc
    split
    · exact (post_ok _).mpr (.refl s)
    · split
      · refine (dragLoop_post (fun t => Dragging lost base c t ∧ Handed s t) ?_ ?_ ?_ d.events
          ⟨h.dragging (h.here_of_sel hc).1, .refl s⟩).bind ?_
        · rintro a w r ⟨ha, hs⟩
          have hr := redrawn_configurerequest w r a
          exact ⟨ha.redrawn hr, hs.trans hr.handed⟩
        · rintro a d w i ⟨ha, hs⟩ b hb
          exact ⟨ha.maprequest d w i b hb, hs.trans (ha.1.handed_maprequest d w i b hb)⟩
        · rintro a x y ⟨ha, hs⟩
          exact ⟨ha.redrawn (redrawn_moveMotion c _ _ a),
            hs.trans (redrawn_moveMotion c _ _ a).handed⟩
        · exact fun a ha => (post_pure _).mpr (ha.2.trans (handed_followmon c a))
      · exact (post_ok _).mpr (.refl s)
  · exact (post_ok _).mpr (.refl s)

theorem Handed.placeAt (above : Bool) {p : Placing} (h : Handed s p.s) :
    Handed s (placeAt above c r p).s := by
  unfold Dwm.placeAt
  split
  · exact h.trans (handed_reattach above c r p.s)
  · exact h

/-- A motion in `placemouse`. -/
theorem handed_placeMotion (i : Int) (wa : Rect) (x y mx my : Int) (p : Placing) :
    Handed p.s (placeMotion i wa x y c mx my p).s := by
  have hsel : Handed p.s { p.s with selmon := recttomon mx my 1 1 p.s } :=
    (Relinked.refl p.s).withSelmon.handed
  unfold placeMotion
  dsimp only
  split
  · split
    · exact hsel
    · exact Handed.placeAt _ hsel
  · exact hsel

theorem handed_placeEnd (d : Drag) (c : ClientId) (p : Placing) :
    Handed p.s (placeEnd d c p) := by
  unfold placeEnd
  dsimp only
  have hon := (handed_placeOn c (recttomon d.release.1 d.release.2 1 1 p.s) p.s).trans
    ((relinked_focus (some c) _).redraw ((Redrawn.refl _).modGeom (c := c)
      (f := fun g => { g with beingmoved := false }))).handed
  refine Handed.trans ?_ (Redrawn.refl _).rearrange.handed
  split
  · exact hon.trans (Redrawn.refl _).resize.handed
  · exact hon

theorem Filed.handed_placemouse (i : Int) (d : Drag) (h : Filed lost base s) :
    Post (placemouse i d s) (Handed s) := by
  unfold placemouse
  split
  · rename_i c hc
    split
    · exact (post_ok _).mpr (.refl s)
    · dsimp only
      have hstart := (Redrawn.refl s).modClient (c := c)
        (f := fun k => { k with isfloating := false }) |>.modGeom (c := c)
        (f := fun g => { g with beingmoved := true })
      split
      · refine (dragLoop_post (fun p : Placing => Dragging lost base c p.s ∧ Handed s p.s)
          ?_ ?_ ?_ d.events (a := Placing.mk _ c none none)
          ⟨(h.dragging (h.here_of_sel hc).1).redrawn hstart, hstart.handed⟩).bind ?_
        · rintro a w r ⟨ha, hs⟩
          have hr := redrawn_configurerequest w r a.s
          exact ⟨ha.redrawn hr, hs.trans hr.handed⟩
        · rintro a d w i ⟨ha, hs⟩ b hb
          exact ⟨ha.maprequest d w i b hb, hs.trans (ha.1.handed_maprequest d w i b hb)⟩
        · rintro a x y ⟨ha, hs⟩
          exact ⟨ha.placeMotion _ _ _ _ _ _, hs.trans (handed_placeMotion _ _ _ _ _ _ a)⟩
        · exact fun p hp => (post_pure _).mpr (hp.2.trans (handed_placeEnd d c p))
      · exact (post_ok _).mpr hstart.handed
  · exact (post_ok _).mpr (.refl s)

end Dwm
