import Zzdwm.Dwm.TagSets

/-!
# Every client can be brought on screen

The tags of the managed clients over whole runs.  Every writer of `c->tags`
keeps them a non-empty subset of the tags there are, but for the client
message `_NET_WM_DESKTOP`, whose word is stored as it comes.

* `tagged_step` — one event;
* `clients_have_tags` — every state of a run whose messages carry proper words.
-/

namespace Dwm

open Machine

variable {lost base : ClientId → Prop} {s t : State} {c : ClientId}

/-- Every managed client has proper tags. -/
def Tagged (s : State) : Prop := ∀ c, s.live c = true → Proper (s.tagsOf c)

/-- Every monitor shows proper tags. -/
def Showing (s : State) : Prop := ∀ m, (s.settings m).Viewing

theorem Tagged.of_same (h : Tagged s) (hlive : t.live = s.live) (htags : t.tagsOf = s.tagsOf) :
    Tagged t := by
  intro c hc
  rw [htags]
  exact h c (hlive ▸ hc)

theorem Tagged.relinked (h : Tagged s) (hst : Relinked s t) : Tagged t :=
  h.of_same hst.live hst.tagsOf

theorem Tagged.redrawn (h : Tagged s) (hst : Redrawn s t) : Tagged t := h.relinked hst.relinked

theorem Tagged.quiet (h : Tagged s) (hst : Quiet s t) : Tagged t :=
  h.of_same hst.live (by funext c; rw [State.tagsOf, State.tagsOf, hst.seat])

/-- Tags that are handed on are proper. -/
theorem Tagged.handed (h : Tagged s) (hshow : Showing s) (hst : Handed s t) : Tagged t := by
  intro c hc
  rcases hst.tags c hc with ⟨d, hd, heq⟩ | ⟨m, heq⟩ | hx
  · rw [heq]
    exact h d hd
  · rw [heq]
    exact hshow m _
  · exact hx

/-- A client is given proper tags. -/
theorem Tagged.modClient {f : Client → Client} (h : Tagged s)
    (hf : Proper (s.tagsOf c) → Proper (f (s.client c)).tags) : Tagged (s.modClient c f) := by
  intro d hd
  by_cases hdc : d = c
  · subst hdc
    rw [tagsOf_modClient_self]
    exact hf (h d hd)
  · have heq : (s.modClient c f).tagsOf d = s.tagsOf d := by
      simp [State.tagsOf, State.seat, State.modClient, hdc]
    rw [heq]
    exact h d hd

/-! ## Commands -/

/-- Setting the view of the selected monitor touches no client. -/
theorem Tagged.refocus (f : Settings → Settings) (h : Tagged s) :
    Tagged (arrangesel (focus none (s.modSettings s.selmon f))) :=
  (h.of_same (t := s.modSettings s.selmon f) rfl rfl).relinked
    ((relinked_focus none _).redraw (Redrawn.refl _).arrangesel)

protected theorem Tagged.view (a : TagSet) (h : Tagged s) : Tagged (view a s) := by
  unfold view
  split
  · exact h
  · exact h.refocus _

theorem proper_swapped {cur new x : TagSet} (hcur : Proper cur) (hnew : Proper new)
    (hx : Proper x) : Proper (swapped cur new x) := by
  unfold swapped
  dsimp only
  have hxor : cur ^^^ new = (cur ^^^ new) &&& tagmask := by
    by_cases hne : cur ^^^ (new &&& tagmask) = 0#32
    · rw [hnew.2] at hne
      rw [hne, BitVec.zero_and]
    · have hprop := (hcur.xor new hne).2
      rw [hnew.2] at hprop
      exact hprop.symm
  split
  · split
    · exact hnew
    · rename_i hne
      rw [hxor] at hne ⊢
      exact hx.xor _ hne
  · split
    · exact hnew
    · exact hx

theorem Tagged.swapLoop {cur new : TagSet} (hcur : Proper cur) (hnew : Proper new)
    (cs : List ClientId) (h : Tagged s) :
    Tagged (cs.foldl (fun s c =>
      s.modClient c fun k => { k with tags := swapped cur new k.tags }) s) := by
  induction cs generalizing s with
  | nil => exact h
  | cons c cs ih => exact ih (h.modClient (c := c) fun hc => proper_swapped hcur hnew hc)

protected theorem Tagged.swaptag {a : TagSet} (h : Tagged s) (hshow : Showing s)
    (ha : a &&& tagmask ≠ 0#32) : Tagged (swaptag a s) := by
  unfold swaptag
  dsimp only
  split
  · exact h
  · exact (h.swapLoop (hshow s.selmon _) (proper_mask ha) s.selM.clients).refocus _

protected theorem Tagged.tag (a : TagSet) (h : Tagged s) : Post (tag a s) Tagged := by
  unfold tag
  split
  · rename_i c _
    split
    · dsimp only
      have hret : Tagged (arrangesel (focus none
          (s.modClient c fun k => { k with tags := a &&& tagmask }))) :=
        (h.modClient (c := c) fun _ => proper_mask ‹_›).relinked
          ((relinked_focus none _).redraw (Redrawn.refl _).arrangesel)
      refine (post_any _).bind fun _ _ => (post_pure _).mpr ?_
      split
      · exact hret.view a
      · exact hret
    · exact (post_ok _).mpr h
  · exact (post_ok _).mpr h

protected theorem Tagged.toggletag (a : TagSet) (h : Tagged s) : Tagged (toggletag a s) := by
  unfold toggletag
  split
  · rename_i c _
    dsimp only
    split
    · exact (h.modClient (c := c) fun hc => hc.xor a ‹_›).relinked
        ((relinked_focus none _).redraw (Redrawn.refl _).arrangesel)
    · exact h
  · exact h

/-- **Commands.**  No command takes all tags from a client or gives it one that
does not exist. -/
protected theorem Tagged.runKey (cls : Window → Option String) (k : Binding) (h : Tagged s)
    (hshow : Showing s) (hk : k.1 = .swaptag → k.2.tags &&& tagmask ≠ 0#32) :
    Post (runKey cls k s) Tagged := by
  obtain ⟨f, a⟩ := k
  cases f with
  | spawn | killclient | quit | incfloat | moveorplace | resizemouse => exact (post_ok _).mpr h
  | togglebar => exact (post_ok _).mpr (h.quiet (quiet_togglebar s))
  | incnmaster => exact (quiet_incnmaster a.int s).mono fun _ => h.quiet
  | resetnmaster => exact (post_ok _).mpr (h.quiet (quiet_resetnmaster _ s))
  | zoom => exact (post_ok _).mpr (h.relinked (relinked_zoom s))
  | view => exact (post_ok _).mpr (h.view _)
  | setlayout => exact (post_ok _).mpr (h.quiet (quiet_setlayout _ s))
  | togglefloating => exact (post_ok _).mpr (h.redrawn (redrawn_togglefloating s))
  | focusmaster => exact (relinked_focusmaster s).mono fun _ => h.relinked
  | resetmfact => exact (post_ok _).mpr (h.quiet (quiet_resetmfact s))
  | togglefullscr => exact (post_ok _).mpr (h.redrawn (redrawn_togglefullscr s))
  | togglesticky => exact (post_ok _).mpr (h.handed hshow (handed_togglesticky s))
  | swapfocus => exact (relinked_swapfocus s).mono fun _ => h.relinked
  | tag => exact h.tag _
  | setmfact => exact (quiet_setmfact a.fact s).mono fun _ => h.quiet
  | setgaps => exact (post_ok _).mpr (h.quiet (quiet_setgaps _ s))
  | focusmon => exact (post_ok _).mpr (h.relinked (relinked_focusmon _ s))
  | tagmon => exact (post_ok _).mpr (h.handed hshow (handed_tagmon _ s))
  | tagswapmon => exact (post_ok _).mpr (h.handed hshow (handed_tagswapmon _ s))
  | rotatetags =>
      refine (post_ok _).mpr ?_
      unfold rotatetags
      dsimp only
      split
      · exact h.refocus _
      · exact h
  | rotatestack => exact (post_ok _).mpr (h.relinked (relinked_rotatestack _ s))
  | cyclelayout => exact (post_ok _).mpr (h.quiet (quiet_cyclelayout _ s))
  | shiftviewclients =>
      change Post (shiftviewclients _ s) _
      unfold shiftviewclients
      split
      · exact (post_ok _).mpr (h.view _)
      · exact post_error _
  | focusstack => exact (relinked_focusstack _ s).mono fun _ => h.relinked
  | setsmfact => exact (quiet_setsmfact a.fact s).mono fun _ => h.quiet
  | fmaximize => exact (redrawn_fmaximize a.tags s).mono fun _ => h.redrawn
  | setwfact => exact (redrawn_setwfact a.fact s).mono fun _ => h.redrawn
  | sethfact => exact (redrawn_sethfact a.fact s).mono fun _ => h.redrawn
  | fsnap => exact (redrawn_fsnap a.tags s).mono fun _ => h.redrawn
  | fdeck => exact (post_ok _).mpr (h.redrawn (redrawn_fdeck _ s))
  | focussame => exact (relinked_focussame cls _ s).mono fun _ => h.relinked
  | toggleview =>
      refine (post_ok _).mpr ?_
      unfold toggleview
      dsimp only
      split
      · exact h.refocus _
      · exact h
  | swaptag => exact (post_ok _).mpr (h.swaptag hshow (hk rfl))
  | toggletag => exact (post_ok _).mpr (h.toggletag _)

/-! ## Events -/

/-- The mouse sets fractions, not tags. -/
theorem Tagged.assigning {o : Option Setter} (h : Tagged s) (hshow : Showing s)
    (ho : ∀ σ m, o = some σ → ((σ.apply m).tagset = m.tagset)) (hst : Assigning o s t) :
    Tagged t := by
  cases o with
  | none => exact h.handed hshow hst
  | some σ =>
      obtain ⟨a, ha, -, ht⟩ := hst
      have htag : Tagged (arrangesel (a.modSettings a.selmon σ.apply)) :=
        ((h.handed hshow ha).of_same (t := a.modSettings a.selmon σ.apply) rfl rfl).redrawn
          (Redrawn.refl _).arrangesel
      refine htag.handed (fun m b => ?_) ht
      rw [settings_assign]
      by_cases hm : m = a.selmon
      · subst hm
        rw [Function.update_self, ho σ _ rfl, ha.settings]
        exact hshow _ b
      · rw [Function.update_of_ne hm, ha.settings]
        exact hshow m b

theorem Settings.tagset_resizemouse (x y : Int) (m : Settings) :
    (m.resizemouse x y).tagset = m.tagset := by
  unfold Settings.resizemouse
  split <;> rfl

theorem Filed.tagged_runButton (d : Drag) (k : Binding) (h : Filed lost base s) (ht : Tagged s)
    (hshow : Showing s) (hk : k.1 ≠ .swaptag) : Post (runButton d k s) Tagged := by
  obtain ⟨f, a⟩ := k
  have hkey := ht.runKey (fun _ => none) (f, a) hshow fun hf => absurd hf hk
  cases f with
  | moveorplace =>
      change Post (moveorplace _ d s) _
      unfold moveorplace
      split
      · exact (h.handed_movemouse d).mono fun _ => ht.handed hshow
      · exact (h.handed_placemouse _ d).mono fun _ => ht.handed hshow
  | resizemouse =>
      refine (h.resizemouse_assigning d).mono fun t => ht.assigning hshow ?_
      intro σ m hσ
      simp only [buttonSetter] at hσ
      split at hσ
      · cases hσ
        exact Settings.tagset_resizemouse _ _ m
      · cases hσ
  | _ => exact hkey

theorem Filed.tagged_buttonpress (x : Target) (wheel : Bool) (b : Option (Click × Binding))
    (d : Drag) (h : Filed lost base s) (ht : Tagged s) (hshow : Showing s) :
    Post (buttonpress x wheel b d s) Tagged := by
  have hrel := relinked_press x wheel s
  have hpress := h.press x wheel
  unfold buttonpress
  generalize press x wheel s = r at hrel hpress ⊢
  obtain ⟨u, click⟩ := r
  have hu := ht.relinked hrel
  have hshowu : Showing u := fun m => by
    rw [hrel.settings]
    exact hshow m
  dsimp only
  split
  · rename_i waits f a
    split
    · rename_i hb
      exact hpress.tagged_runButton d (f, buttonArg click a) hu hshowu
        (buttons_no_swaptag (waits, f, a) hb.1)
    · exact (post_ok _).mpr hu
  · exact (post_ok _).mpr hu

/-- The message stores proper tags: the word, truncated to an `unsigned int`, is
a non-empty subset of the tags there are. -/
def StoresProper (e : Event) (s : State) : Prop :=
  ∀ w data, e = .clientmessage w (.netWMDesktop data) → (s.wintoclient w).isSome →
    Proper (BitVec.ofInt 32 data)

theorem Tagged.setdesktop {data : Int} (h : Tagged s) (hdata : Proper (BitVec.ofInt 32 data)) :
    Tagged (setdesktop c data s) :=
  (h.modClient (c := c) fun _ => hdata).redrawn (Redrawn.refl _).arrange

theorem Tagged.clientmessage (w : Window) (x : Message) (h : Tagged s) (hshow : Showing s)
    (hok : StoresProper (.clientmessage w x) s) : Tagged (clientmessage w x s) := by
  unfold Dwm.clientmessage
  cases hc : s.wintoclient w with
  | none => exact h
  | some c =>
      cases x with
      | netWMState a fullscreen sticky =>
          have hfull : Handed s (if fullscreen then
              setfullscreen c (a = 1 || a = 2 && !(s.client c).isfullscreen) s else s) := by
            split
            · exact (redrawn_setfullscreen _ _ s).handed
            · exact .refl s
          dsimp only
          split
          · exact h.handed hshow (hfull.trans (handed_setsticky _ _ _))
          · exact h.handed hshow hfull
      | netActiveWindow =>
          dsimp only
          unfold activate
          dsimp only
          split
          · exact ((h.relinked (Relinked.refl s).withSelmon).view _).relinked (relinked_focus _ _)
          · exact h
      | netWMDesktop data => exact h.setdesktop (hok w data rfl (hc ▸ rfl))
      | netCloseWindow => exact h
      | other => exact h

protected theorem Tagged.configurenotify (w k : Int) (l : Layouts) (hfiled : Filed lost base s)
    (h : Tagged s) : Post (configurenotify w k l s) Tagged := by
  unfold configurenotify
  obtain ⟨outC, -, hinv⟩ := hfiled.inv
  have hsize : Inv outC nobody { s with sw := w, sh := k } :=
    hinv.redrawn ⟨rfl, rfl, rfl, rfl, rfl, rfl, rfl⟩
  refine (updategeom_spec l hsize (Or.inl hfiled.selmon)).bind fun r hr => ?_
  have ht : Tagged r.1 := h.of_same hr.2.1.live (funext hr.2.1.tags)
  dsimp only
  split
  · exact (post_pure _).mpr
      ((ht.redrawn (redrawn_refillAll _ r.1)).relinked (Relinked.refl _).focus.arrange)
  · exact (post_pure _).mpr ht

/-- **One event.**  The tags of the managed clients stay proper. -/
theorem tagged_step (e : Event) (hfiled : Filed lost base s) (h : Tagged s) (hshow : Showing s)
    (hok : StoresProper e s) : Post (step e s) Tagged := by
  cases e with
  | buttonpress x wheel b d => exact hfiled.tagged_buttonpress x wheel b d h hshow
  | clientmessage w x => exact (post_ok _).mpr (h.clientmessage w x hshow hok)
  | configurenotify w k l => exact h.configurenotify w k l hfiled
  | configurerequest w r => exact (post_ok _).mpr (h.redrawn (redrawn_configurerequest w r s))
  | destroynotify w => exact (post_ok _).mpr (h.handed hshow (handed_destroynotify w s))
  | keypress k cls =>
      change Post (keypress k cls s) _
      unfold keypress
      split
      · exact h.runKey cls k hshow (keys_swaptag k ‹_›)
      · exact (post_ok _).mpr h
  | maprequest c w i => exact (hfiled.handed_maprequest c w i).mono fun _ => h.handed hshow
  | propertynotify w x => exact (post_ok _).mpr (h.handed hshow (handed_propertynotify w x s))
  | unmapnotify w b => exact (post_ok _).mpr (h.handed hshow (handed_unmapnotify w b s))

protected theorem Tagged.setdeflayouts (h : Tagged s) : Tagged (setdeflayouts s) := by
  unfold Dwm.setdeflayouts
  refine Tagged.view _ ?_
  refine List.foldlRecOn (motive := Tagged) _ _ h fun u hu a _ => ?_
  dsimp only
  split
  · exact (hu.view _).quiet (quiet_setlayout _ _)
  · exact hu

/-- There are no clients when the event loop starts. -/
theorem tagged_setup (d : Display) : Post (setup d) Tagged := by
  unfold setup
  split
  · exact post_error _
  · rename_i hpos
    have hsw : d.sw ≠ 0 := fun h0 => hpos (Or.inl (by omega))
    refine (updategeom_spec d.layouts (Inv.empty d.sw d.sh d.bh d.lrpad)
      (Or.inr ⟨rfl, hsw⟩)).bind fun r hr => (post_pure _).mpr ?_
    have hempty : Tagged (State.empty d.sw d.sh d.bh d.lrpad) := fun c hc => by cases hc
    exact (hempty.of_same hr.2.1.live (funext hr.2.1.tags)).setdeflayouts.relinked
      (relinked_focus none _)

/-- **Clients have tags.**  In every state of a run whose `_NET_WM_DESKTOP`
messages carry proper words, every managed client has proper tags, and such a
message for a managed client keeps that so exactly if its word is proper. -/
theorem clients_have_tags (h : Reachable StoresProper s) :
    Tagged s ∧ ∀ w data c, s.wintoclient w = some c →
      (Tagged (clientmessage w (.netWMDesktop data) s) ↔ Proper (BitVec.ofInt 32 data)) := by
  have hfiled := filed_any h
  have htagged : Tagged s := h.invariant Tagged tagged_setup fun e u hreach hu hok =>
    tagged_step e (filed_any hreach) hu (viewing_of_reachable hreach) hok
  refine ⟨htagged, fun w data c hc => ⟨fun ht => ?_, fun hdata => ?_⟩⟩
  · have heq : (clientmessage w (.netWMDesktop data) s).tagsOf c = BitVec.ofInt 32 data := by
      simp only [clientmessage, hc, setdesktop]
      rw [(Redrawn.refl _).arrange.relinked.tagsOf, tagsOf_modClient_self]
    rw [← heq]
    refine ht c ?_
    simp only [clientmessage, hc]
    exact (hfiled.here_of_window hc).1
  · simp only [clientmessage, hc]
    exact htagged.setdesktop hdata

/-- A window is mapped and sent to tags 1 and 2 by a message. -/
theorem clients_have_tags_moved : ∃ s : State, s.live 0 = true ∧ s.tagsOf 0 = 3#32 ∧
    Proper (s.tagsOf 0) := by
  obtain ⟨s, hs, hp⟩ := exists_of_passes
    (x := play oneScreen [.maprequest 0 10 plainWindow, .clientmessage 10 (.netWMDesktop 3)])
    (p := fun s => s.live 0 ∧ s.tagsOf 0 = 3#32) (by decide +kernel)
  obtain ⟨hlive, htags⟩ := of_decide_eq_true hp
  have hreach : Reachable StoresProper s := reachable_play_of hs fun e he t w data hw _ => by
    simp only [List.mem_cons, List.not_mem_nil, or_false] at he
    rcases he with rfl | rfl
    · cases hw
    · cases hw
      exact (by decide : (BitVec.ofInt 32 3 : TagSet) ≠ 0#32 ∧
        BitVec.ofInt 32 3 &&& tagmask = BitVec.ofInt 32 3)
  exact ⟨s, hlive, htags, (clients_have_tags hreach).1 0 hlive⟩

/-- A window is mapped, and a message with the word 0 takes all its tags. -/
theorem desktop_message_takes_tags : ¬ ∀ s, Reachable Any s → Tagged s := by
  intro h
  obtain ⟨s, hs, hp⟩ := exists_of_passes
    (x := play oneScreen [.maprequest 0 10 plainWindow, .clientmessage 10 (.netWMDesktop 0)])
    (p := fun s => s.live 0 ∧ s.tagsOf 0 = 0#32) (by decide +kernel)
  obtain ⟨hlive, htags⟩ := of_decide_eq_true hp
  exact (h s (reachable_play hs) 0 hlive).1 htags

end Dwm
