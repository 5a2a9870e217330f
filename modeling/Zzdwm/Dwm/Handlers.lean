import Zzdwm.Dwm.Lifecycle

/-!
# Every handler keeps the clients filed

The commands of the keyboard, the drag loops and the event handlers, each with
the lemma that every client is filed after it; `Filed.step` puts them
together.  The one condition is on `rotatestack`.

* `Filed.runKey` — one command;
* `Filed.movemouse`, `Filed.placemouse`, `Filed.resizemouse` — whole drags;
* `Filed.step`, `filed_setup` — one event, and the start.
-/

namespace Dwm

open Machine

variable {lost base : ClientId → Prop} {s t : State} {c r : ClientId} {m : MonId}

/-! ## Commands -/

theorem Filed.quiet (h : Filed lost base s) (hst : Quiet s t) : Filed lost base t :=
  h.unmoved hst.unmoved

/-- A command that sets the view of the selected monitor and refocuses. -/
theorem Filed.refocus (f : Settings → Settings) (h : Filed lost base s) :
    Filed lost base (arrangesel (focus none (s.modSettings s.selmon f))) :=
  ((h.unmoved (unmoved_modSettings _ f s)).focusNone).redrawn (Redrawn.refl _).arrangesel

theorem Filed.focusOn (h : Filed lost base s) (hc : Here s c) :
    Filed lost base (focus (some c) s) :=
  h.focus fun d hd => by
    cases hd
    exact hc

protected theorem Filed.view (a : TagSet) (h : Filed lost base s) :
    Filed lost base (view a s) := by
  unfold view
  split
  · exact h
  · exact h.refocus _

protected theorem Filed.toggleview (a : TagSet) (h : Filed lost base s) :
    Filed lost base (toggleview a s) := by
  unfold toggleview
  dsimp only
  split
  · exact h.refocus _
  · exact h

protected theorem Filed.rotatetags (i : Int) (h : Filed lost base s) :
    Filed lost base (rotatetags i s) := by
  unfold rotatetags
  dsimp only
  split
  · exact h.refocus _
  · exact h

protected theorem Filed.shiftviewclients (i : Int) (h : Filed lost base s) :
    Post (shiftviewclients i s) (Filed lost base) := by
  unfold shiftviewclients
  split
  · exact (post_ok _).mpr (h.view _)
  · exact post_error _

/-- The loop of `swaptag` moves no client. -/
theorem unmoved_swapLoop (cs : List ClientId) (f : Client → Client) [KeepsMon f] (s : State) :
    Unmoved s (cs.foldl (fun s c => s.modClient c f) s) := by
  induction cs generalizing s with
  | nil => exact .refl s
  | cons c cs ih => exact (Unmoved.refl s).modClient.trans (ih _)

protected theorem Filed.swaptag (a : TagSet) (h : Filed lost base s) :
    Filed lost base (swaptag a s) := by
  unfold swaptag
  dsimp only
  split
  · exact h
  · have hswap := h.unmoved (unmoved_swapLoop s.selM.clients (fun k => { k with
      tags := swapped s.selM.tags (a &&& tagmask) k.tags }) s)
    exact hswap.refocus _

/-- Retagging a client and refocusing. -/
theorem Filed.retag (f : Client → Client) [KeepsMon f] (h : Filed lost base s) :
    Filed lost base (arrangesel (focus none (s.modClient c f))) :=
  ((h.unmoved (Unmoved.refl s).modClient).focusNone).redrawn (Redrawn.refl _).arrangesel

protected theorem Filed.tag (a : TagSet) (h : Filed lost base s) :
    Post (tag a s) (Filed lost base) := by
  unfold tag
  split
  · rename_i c _
    split
    · dsimp only
      have hret := h.retag (c := c) (fun k => { k with tags := a &&& tagmask })
      refine (post_any _).bind fun _ _ => (post_pure _).mpr ?_
      split
      · exact hret.view a
      · exact hret
    · exact (post_ok _).mpr h
  · exact (post_ok _).mpr h

protected theorem Filed.toggletag (a : TagSet) (h : Filed lost base s) :
    Filed lost base (toggletag a s) := by
  unfold toggletag
  split
  · dsimp only
    split
    · exact h.retag _
    · exact h
  · exact h

protected theorem Filed.togglesticky (h : Filed lost base s) :
    Filed lost base (togglesticky s) := by
  unfold togglesticky
  split
  · exact h.unmoved ((Unmoved.refl s).setsticky.redraw (Redrawn.refl _).arrangesel)
  · exact h

protected theorem Filed.zoom (h : Filed lost base s) : Filed lost base (zoom s) := by
  have hprev : ∀ o, Filed lost base { s with prevclient := o } := fun o =>
    h.redrawn ⟨rfl, rfl, rfl, rfl, rfl, rfl, rfl⟩
  unfold zoom
  dsimp only
  split
  · rename_i c hc
    split
    · exact hprev _
    · split
      · split
        · rename_i d hd
          have hmem := mem_tiled (List.mem_of_getElem? hd)
          exact (hprev _).pop (h.here_of_mem h.selmon hmem.1).1
        · exact hprev _
      · exact (hprev _).pop (h.here_of_sel hc).1
  · exact hprev _

protected theorem Filed.focusmaster (h : Filed lost base s) :
    Post (focusmaster s) (Filed lost base) := by
  unfold focusmaster
  split
  · rename_i c master hc hmaster
    dsimp only
    split
    · exact (post_ok _).mpr h
    · split
      · split
        · rename_i d _
          split
          · exact post_error _
          · rename_i hd
            rw [not_or, not_not] at hd
            split
            · exact (post_ok _).mpr (h.focusOn ⟨by simpa using hd.1, hd.2⟩)
            · exact (post_ok _).mpr h
        · exact (post_ok _).mpr h
      · have hmem := mem_tiled (List.mem_of_head? hmaster)
        have hmark := (Redrawn.refl s).modMon (m := s.selmon) (f := fun m => { m with
          tagmarked := Function.update m.tagmarked (lowestTag s.selM.tags + 1) (some c) })
        refine (post_ok _).mpr ((h.redrawn hmark).focusOn ?_)
        exact (h.here_of_mem h.selmon hmem.1).1.unmoved hmark.unmoved
  · exact (post_ok _).mpr h

protected theorem Filed.focusmon (i : Int) (h : Filed lost base s) :
    Filed lost base (focusmon i s) := by
  unfold focusmon
  dsimp only
  split
  · exact h
  · have hun := (Redrawn.refl s).unfocus (c := s.sel)
    refine Filed.focusNone ((h.redrawn hun).withSelmon ?_)
    rw [hun.mons]
    exact dirtomon_mem i h.selmon

/-- `focusstack` turns to a client of the selected monitor. -/
theorem stackNeighbour_mem (i : Int) (c : ClientId) (s : State) :
    Post (stackNeighbour i c s) fun o => ∀ d, o = some d → d ∈ s.clientsOf s.selmon := by
  unfold stackNeighbour
  dsimp only
  split
  · rw [post_ok]
    intro d hd
    rcases Option.or_eq_some_iff.mp hd with hd | ⟨-, hd⟩
    · exact (List.dropWhile_sublist _).mem (List.mem_of_mem_tail (List.mem_of_find?_eq_some hd))
    · exact List.mem_of_find?_eq_some hd
  · split
    · rw [post_ok]
      intro d hd
      rcases Option.or_eq_some_iff.mp hd with hd | ⟨-, hd⟩
      · exact (List.takeWhile_sublist _).mem (List.mem_of_mem_filter (List.mem_of_getLast? hd))
      · exact (List.dropWhile_sublist _).mem (List.mem_of_mem_filter (List.mem_of_getLast? hd))
    · exact post_error _

protected theorem Filed.focusstack (i : Int) (h : Filed lost base s) :
    Post (focusstack i s) (Filed lost base) := by
  unfold focusstack
  split
  · rename_i c _
    split
    · exact (post_ok _).mpr h
    · refine (stackNeighbour_mem i c s).bind fun o ho => ?_
      split
      · rename_i d
        exact (post_pure _).mpr (h.focusOn (h.here_of_mem h.selmon (ho d rfl)).1)
      · exact (post_pure _).mpr h
  · exact (post_ok _).mpr h

protected theorem Filed.focussame (cls : Window → Option String) (i : Int)
    (h : Filed lost base s) : Post (focussame cls i s) (Filed lost base) := by
  have hmem : ∀ (class_ : String) (k : Nat) (d : ClientId),
      (sameclass cls class_ s)[k]? = some d → Here s d := by
    intro class_ k d hd
    have hd := List.mem_of_mem_filter (List.mem_of_mem_take (List.mem_of_getElem? hd))
    exact (h.here_of_mem h.selmon hd).1
  unfold focussame
  split
  · split
    · rename_i class_ _
      dsimp only
      split
      · rename_i d hd
        refine (post_ok _).mpr (h.focusOn ?_)
        split at hd
        · exact hmem class_ _ d hd
        · split at hd
          · exact hmem class_ _ d hd
          · cases hd
      · split
        · exact post_error _
        · exact (post_ok _).mpr h
    · exact (post_ok _).mpr h
  · exact (post_ok _).mpr h

protected theorem Filed.swapfocus (h : Filed lost base s) :
    Post (swapfocus s) (Filed lost base) := by
  unfold swapfocus
  split
  · split
    · refine (post_ok _).mpr ?_
      split
      · exact h.focusOn (h.here_of_mem h.selmon ‹_›).1
      · exact h
    · exact h.focusstack (-1)
  · exact (post_ok _).mpr h

protected theorem Filed.tagmon (i : Int) (h : Filed lost base s) :
    Filed lost base (tagmon i s) := by
  unfold tagmon
  split
  · split
    · exact h
    · exact h.sendmon (h.here_of_sel ‹_›).1 (dirtomon_mem i h.selmon)
  · exact h

/-- Does a command drop a client? -/
def DropsAt (k : Binding) (s : State) : Prop := k.1 = .rotatestack ∧ Drops k.2.int s

/-- **Commands.**  Only `rotatestack` can drop a client. -/
protected theorem Filed.runKey (cls : Window → Option String) (k : Binding) (h : Filed lost base s)
    (hdrop : DropsAt k s → ∀ c, s.selM.clients = [c] → lost c) :
    Post (runKey cls k s) (Filed lost base) := by
  obtain ⟨f, a⟩ := k
  cases f with
  | spawn | killclient | quit | incfloat | moveorplace | resizemouse => exact (post_ok _).mpr h
  | togglebar => exact (post_ok _).mpr (h.quiet (quiet_togglebar s))
  | incnmaster => exact (quiet_incnmaster a.int s).mono fun _ => h.quiet
  | resetnmaster => exact (post_ok _).mpr (h.quiet (quiet_resetnmaster _ s))
  | zoom => exact (post_ok _).mpr h.zoom
  | view => exact (post_ok _).mpr (h.view _)
  | setlayout => exact (post_ok _).mpr (h.quiet (quiet_setlayout _ s))
  | togglefloating => exact (post_ok _).mpr (h.redrawn (redrawn_togglefloating s))
  | focusmaster => exact h.focusmaster
  | resetmfact => exact (post_ok _).mpr (h.quiet (quiet_resetmfact s))
  | togglefullscr => exact (post_ok _).mpr (h.redrawn (redrawn_togglefullscr s))
  | togglesticky => exact (post_ok _).mpr h.togglesticky
  | swapfocus => exact h.swapfocus
  | tag => exact h.tag _
  | setmfact => exact (quiet_setmfact a.fact s).mono fun _ => h.quiet
  | setgaps => exact (post_ok _).mpr (h.quiet (quiet_setgaps _ s))
  | focusmon => exact (post_ok _).mpr (h.focusmon _)
  | tagmon => exact (post_ok _).mpr (h.tagmon _)
  | tagswapmon => exact (post_ok _).mpr (h.tagswapmon _)
  | rotatetags => exact (post_ok _).mpr (h.rotatetags _)
  | rotatestack => exact (post_ok _).mpr (h.rotatestack _ fun hd => hdrop ⟨rfl, hd⟩)
  | cyclelayout => exact (post_ok _).mpr (h.quiet (quiet_cyclelayout _ s))
  | shiftviewclients => exact h.shiftviewclients a.int
  | focusstack => exact h.focusstack _
  | setsmfact => exact (quiet_setsmfact a.fact s).mono fun _ => h.quiet
  | fmaximize => exact (redrawn_fmaximize a.tags s).mono fun _ => h.redrawn
  | setwfact => exact (redrawn_setwfact a.fact s).mono fun _ => h.redrawn
  | sethfact => exact (redrawn_sethfact a.fact s).mono fun _ => h.redrawn
  | fsnap => exact (redrawn_fsnap a.tags s).mono fun _ => h.redrawn
  | fdeck => exact (post_ok _).mpr (h.redrawn (redrawn_fdeck _ s))
  | focussame => exact h.focussame cls _
  | toggleview => exact (post_ok _).mpr (h.toggleview _)
  | swaptag => exact (post_ok _).mpr (h.swaptag _)
  | toggletag => exact (post_ok _).mpr (h.toggletag _)

/-! ## Drags -/

protected theorem Filed.maprequest (c : ClientId) (w : Window) (i : WinInfo)
    (h : Filed lost base s) : Post (maprequest c w i s) (Filed lost base) := by
  unfold maprequest
  split
  · exact post_error _
  · rename_i hlive
    split
    · exact (post_ok _).mpr h
    · exact (post_ok _).mpr (h.manage w i (by simpa using hlive)).1

/-- A drag holds on to its client while windows are mapped. -/
theorem maprequest_here (d : ClientId) (w : Window) (i : WinInfo) (hc : Here s c) :
    Post (maprequest d w i s) fun t => t.live c = true → Here t c := by
  unfold maprequest
  split
  · exact post_error _
  · rename_i hlive
    split
    · exact (post_ok _).mpr fun _ => hc
    · refine (post_ok _).mpr fun hl => ⟨hl, ?_⟩
      have hcd : c ≠ d := by
        rintro rfl
        exact hlive hc.1
      obtain ⟨hseat, hmons, -⟩ := manage_keeps d w i s
      rw [State.own, hseat c hcd, hmons]
      exact hc.2

/-- **Drag rule.**  What every event of a drag loop preserves, the loop
preserves. -/
theorem dragLoop_post {σ : Type} {get : σ → State} {set : State → σ → σ}
    {motion : Int → Int → σ → σ} (P : σ → Prop)
    (hconf : ∀ a w r, P a → P (set (configurerequest w r (get a)) a))
    (hmap : ∀ a d w i, P a → Post (maprequest d w i (get a)) fun s => P (set s a))
    (hmotion : ∀ a x y, P a → P (motion x y a)) (es : List DragEvent) {a : σ} (h : P a) :
    Post (dragLoop get set motion es a) P := by
  induction es generalizing a with
  | nil => exact (post_ok _).mpr h
  | cons e es ih =>
      cases e with
      | configurerequest w r => exact ih (hconf a w r h)
      | maprequest d w i => exact (hmap a d w i h).bind fun s hs => ih hs
      | motion x y => exact ih (hmotion a x y h)

/-- What a drag preserves: the clients stay filed, and the dragged one stays. -/
def Dragging (lost base : ClientId → Prop) (c : ClientId) (s : State) : Prop :=
  Filed lost (fun d => base d ∨ d = c) s ∧ Here s c

theorem Filed.dragging (h : Filed lost base s) (hc : Here s c) : Dragging lost base c s :=
  ⟨⟨h.inv, h.selmon, fun d hd => hd.elim (h.alive d) fun hdc => hdc ▸ hc.1⟩, hc⟩

theorem Dragging.filed (h : Dragging lost base c s) : Filed lost base s :=
  ⟨h.1.inv, h.1.selmon, fun d hd => h.1.alive d (Or.inl hd)⟩

theorem Dragging.unmoved (h : Dragging lost base c s) (hst : Unmoved s t) :
    Dragging lost base c t := ⟨h.1.unmoved hst, h.2.unmoved hst⟩

theorem Dragging.redrawn (h : Dragging lost base c s) (hst : Redrawn s t) :
    Dragging lost base c t := h.unmoved hst.unmoved

theorem Dragging.maprequest (d : ClientId) (w : Window) (i : WinInfo)
    (h : Dragging lost base c s) : Post (maprequest d w i s) (Dragging lost base c) := by
  intro t ht
  have hfiled := h.1.maprequest d w i t ht
  exact ⟨hfiled, maprequest_here d w i h.2 t ht (hfiled.alive c (Or.inr rfl))⟩

/-- The end of `movemouse` and `resizemouse`. -/
protected theorem Filed.followmon (h : Filed lost base s) (hc : Here s c) :
    Filed lost base (followmon c s) := by
  unfold followmon
  dsimp only
  split
  · refine Filed.focusNone ((h.sendmon hc (recttomon_mem _ _ _ _ h.selmon)).withSelmon ?_)
    rw [mons_sendmon]
    exact recttomon_mem _ _ _ _ h.selmon
  · exact h

theorem redrawn_moveMotion (c : ClientId) (nx ny : Int) (s : State) :
    Redrawn s (moveMotion c nx ny s) := by
  unfold moveMotion
  dsimp only
  have hfloat : ∀ (b : Bool), Redrawn s (if b then togglefloating s else s) := fun b =>
    .ite (redrawn_togglefloating s) (.refl s)
  exact .ite (hfloat _).resize (hfloat _)

protected theorem Filed.movemouse (d : Drag) (h : Filed lost base s) :
    Post (movemouse d s) (Filed lost base) := by
  unfold movemouse
  split
  · rename_i c hc
    split
    · exact (post_ok _).mpr h
    · split
      · refine (dragLoop_post (Dragging lost base c) ?_ ?_ ?_ d.events
          (h.dragging (h.here_of_sel hc).1)).bind ?_
        · exact fun a w r ha => ha.redrawn (redrawn_configurerequest w r a)
        · exact fun a d w i ha => ha.maprequest d w i
        · exact fun a x y ha => ha.redrawn (redrawn_moveMotion _ _ _ a)
        · exact fun a ha => (post_pure _).mpr (ha.filed.followmon ha.2)
      · exact (post_ok _).mpr h
  · exact (post_ok _).mpr h

protected theorem Filed.resizemouse (d : Drag) (h : Filed lost base s) :
    Post (resizemouse d s) (Filed lost base) := by
  unfold resizemouse
  split
  · rename_i c hc
    split
    · exact (post_ok _).mpr h
    · dsimp only
      split
      · exact (post_ok _).mpr h
      · refine (dragLoop_post (Dragging lost base c) ?_ ?_ ?_ d.events
          (h.dragging (h.here_of_sel hc).1)).bind ?_
        · exact fun a w r ha => ha.redrawn (redrawn_configurerequest w r a)
        · exact fun a d w i ha => ha.maprequest d w i
        · exact fun a x y ha => ha.redrawn (.ite (Redrawn.refl a).resize (.refl a))
        · intro a ha
          refine (post_pure _).mpr ?_
          split
          · exact ha.filed.followmon ha.2
          · have hset := (unmoved_modSettings a.selmon
              (Settings.resizemouse d.releaseroot.1 d.releaseroot.2) a).redraw
              (Redrawn.refl _).arrangesel
            exact (ha.unmoved hset).filed.followmon (ha.2.unmoved hset)
  · exact (post_ok _).mpr h

/-- Linking a client in and selecting another one in one go. -/
theorem linkClient_select (g : List ClientId → List ClientId) (c r : ClientId) (s : State) :
    (linkClient g c s).modMon (s.own c) (fun m => { m with sel := some r }) =
      s.modMon (s.own c) fun m => { m with sel := some r, clients := g m.clients } := by
  simp [linkClient, State.modMon]

theorem linkAt_perm (above : Bool) (r c : ClientId) (l : List ClientId) :
    (linkAt above r c l).Perm (c :: l) := by
  cases above with
  | true => exact linkBefore_perm r c l
  | false => exact linkAfter_perm r c l

/-- **A re-attach step of `placemouse`.** -/
protected theorem Filed.reattach (above : Bool) (h : Filed lost base s) (hc : Here s c)
    (hr : Here s r) (hne : r ≠ c) :
    Filed lost base (reattach above c r s) ∧ Here (reattach above c r s) c := by
  obtain ⟨outC, hle, hinv⟩ := h.inv
  have hrel : Relinked s (detach c (detachstack c s)) := (Relinked.refl s).detachstack.detach
  have hsel : (detach c (detachstack c s)).selmon = s.selmon := selmon_detachstack c s
  have hout := (hinv.detachstack c).detach c
  unfold reattach
  generalize detach c (detachstack c s) = t at hrel hsel hout ⊢
  dsimp only
  have htag : Unmoved t (if t.own c ≠ t.own r then
      (rearrange (t.own c) t).modClient c fun k => { k with tags := (t.monOf r).tags }
      else t) := by
    split
    · exact ((Redrawn.refl t).rearrange.unmoved).modClient
    · exact .refl t
  generalize (if t.own c ≠ t.own r then
      (rearrange (t.own c) t).modClient c fun k => { k with tags := (t.monOf r).tags }
      else t) = u at htag ⊢
  have hout := hout.unmoved htag
  have hrown : u.own r = s.own r := by rw [htag.own, hrel.own]
  have hmons : u.mons = s.mons := htag.mons.trans hrel.mons
  have hlive : u.live = s.live := htag.live.trans hrel.live
  have hgive := hout.give (c := c) (f := fun k => { k with mon := u.own r }) (Or.inr rfl)
    (Or.inr rfl) (by rw [hrown, hmons]; exact hr.2)
  generalize hv : (u.modClient c fun k => { k with mon := u.own r }) = v at hgive ⊢
  have hvown : v.own c = u.own r := by rw [← hv, own_modClient_self]
  have hvr : v.own r = u.own r := by
    rw [← hv]
    simp [State.own, State.seat, State.modClient, hne]
  have hvlive : v.live = s.live := by
    rw [← hv]
    exact hlive
  have hvmons : v.mons = s.mons := by
    rw [← hv]
    exact hmons
  have hvsel : v.selmon = s.selmon := by
    rw [← hv]
    exact htag.selmon.trans hsel
  have hhere : Here v c := by
    rw [Here, hvlive, hvown, hrown, hvmons]
    exact ⟨hc.1, hr.2⟩
  have hlink := hgive.linkClient (c := c) (Or.inr rfl) hhere.1 hhere.2 (linkAt_perm above r c _)
  have hstack : r ∈ (linkClient (linkAt above r c) c v).stackOf (v.own c) := by
    have hrlive : v.live r = true := by
      rw [hvlive]
      exact hr.1
    have hrmons : v.own r ∈ v.mons := by
      rw [hvr, hrown, hvmons]
      exact hr.2
    have hmem := hlink.stack.listed r hrlive hrmons fun ho => ho.elim id hne
    have hown : v.own c = v.own r := hvown.trans hvr.symm
    rw [hown]
    exact hmem
  have hselect := hlink.setSel (m := v.own c) (o := some r) fun d hd => by
    cases hd
    exact hstack
  rw [linkClient_select] at hselect
  have hfile := hselect.attachstack (c := c) (Or.inr rfl) hhere.1
  rw [show v.own r = v.own c from hvr.trans hvown.symm]
  refine ⟨Filed.redrawn (Filed.of_back hle hfile ?_ ?_) (Redrawn.refl _).rearrange, hhere⟩
  · change v.selmon ∈ v.mons
    rw [hvsel, hvmons]
    exact h.selmon
  · change ∀ d, base d → v.live d = true
    rw [hvlive]
    exact h.alive

theorem Dragging.placeAt (above : Bool) {p : Placing} (h : Dragging lost base c p.s)
    (hr : Here p.s r) (hne : r ≠ c) : Dragging lost base c (placeAt above c r p).s := by
  unfold Dwm.placeAt
  split
  · exact h.1.reattach above h.2 hr hne
  · exact h

/-- A motion in `placemouse`. -/
theorem Dragging.placeMotion (i : Int) (wa : Rect) (x y mx my : Int) {p : Placing}
    (h : Dragging lost base c p.s) :
    Dragging lost base c (placeMotion i wa x y c mx my p).s := by
  have hsel := recttomon_mem mx my 1 1 h.1.selmon
  have hmoved : Dragging lost base c { p.s with selmon := recttomon mx my 1 1 p.s } :=
    ⟨h.1.withSelmon hsel, h.2⟩
  unfold Dwm.placeMotion
  dsimp only
  split
  · rename_i r hr
    split
    · exact hmoved
    · rename_i hne
      have hmem := recttoclient_mem hr
      exact Dragging.placeAt _ hmoved (hmoved.1.here_of_mem hmoved.1.selmon hmem).1 hne
  · exact hmoved

/-- The last re-attachment of `placemouse`. -/
protected theorem Filed.placeOn (h : Filed lost base s) (hc : Here s c) (hm : m ∈ s.mons) :
    Filed lost base (placeOn c m s) ∧ Here (placeOn c m s) c := by
  unfold placeOn
  split
  · have hrel : Relinked s (detachstack c (detach c s)) := (Relinked.refl s).detach.detachstack
    have hsel : (detachstack c (detach c s)).selmon = s.selmon := selmon_detachstack c _
    dsimp only
    have hout : ∀ outC, Inv outC nobody s → Inv (fun d => outC d ∨ d = c)
        (fun d => nobody d ∨ d = c) (detachstack c (detach c s)) :=
      fun _ hi => (hi.detach c).detachstack c
    generalize detachstack c (detach c s) = t at hrel hsel hout ⊢
    have hgeom := (Redrawn.refl t).rearrange (m := s.own c)
    generalize rearrange (s.own c) t = u at hgeom ⊢
    have humons : u.mons = s.mons := hgeom.mons.trans hrel.mons
    have hulive : u.live = s.live := hgeom.live.trans hrel.live
    have hmove := h.move (t := u) (f := fun k => { k with mon := m, tags := (u.monitor m).tags })
      (g := (c :: ·)) hc humons hulive (hgeom.selmon.trans hsel)
      (fun _ hi => (hout _ hi).redrawn hgeom) hm (.refl _)
    refine ⟨hmove.withSelmon ?_, ?_, ?_⟩
    · change m ∈ u.mons
      rw [humons]
      exact hm
    · change u.live c = true
      rw [hulive]
      exact hc.1
    · change (u.modClient c fun k => { k with mon := m, tags := (u.monitor m).tags }).own c ∈ u.mons
      rw [own_modClient_self, humons]
      exact hm
  · exact ⟨h, hc⟩

protected theorem Filed.placemouse (i : Int) (d : Drag) (h : Filed lost base s) :
    Post (placemouse i d s) (Filed lost base) := by
  unfold placemouse
  split
  · rename_i c hc
    split
    · exact (post_ok _).mpr h
    · dsimp only
      have hstart := (Redrawn.refl s).modClient (c := c)
        (f := fun k => { k with isfloating := false }) |>.modGeom (c := c)
        (f := fun g => { g with beingmoved := true })
      have hdrag := (h.dragging (h.here_of_sel hc).1).redrawn hstart
      split
      · refine (dragLoop_post (fun p : Placing => Dragging lost base c p.s) ?_ ?_ ?_ d.events
          (a := Placing.mk _ c none none) hdrag).bind ?_
        · exact fun a w r ha => ha.redrawn (redrawn_configurerequest w r a.s)
        · exact fun a d w i ha => ha.maprequest d w i
        · exact fun a x y ha => ha.placeMotion _ _ _ _ _ _
        · intro p hp
          refine (post_pure _).mpr ?_
          obtain ⟨hfiled, hhere⟩ :=
            hp.filed.placeOn hp.2 (recttomon_mem d.release.1 d.release.2 1 1 hp.1.selmon)
          unfold placeEnd
          have hfocus := (hfiled.focusOn hhere).redrawn ((Redrawn.refl _).modGeom (c := c)
            (f := fun g => { g with beingmoved := false }))
          refine Filed.redrawn ?_ (Redrawn.refl _).rearrange
          split
          · exact hfocus.redrawn (Redrawn.refl _).resize
          · exact hfocus
      · exact (post_ok _).mpr hdrag.filed
  · exact (post_ok _).mpr h

/-! ## Events -/

theorem wintomon_mem (x : Target) (h : Filed lost base s) : wintomon x s ∈ s.mons := by
  cases x with
  | root p => exact rootmon_mem p h.selmon
  | bar m part =>
      rw [wintomon]
      split
      · assumption
      · exact h.selmon
  | window w =>
      rw [wintomon]
      split
      · exact (h.here_of_window ‹_›).2
      · exact h.selmon

protected theorem Filed.press (x : Target) (wheel : Bool) (h : Filed lost base s) :
    Filed lost base (press x wheel s).1 := by
  have hfocus : Filed lost base (if wintomon x s ≠ s.selmon ∧ (focusonwheel ∨ !wheel) then
      focus none { unfocus s.sel s with selmon := wintomon x s } else s) := by
    split
    · have hun := (Redrawn.refl s).unfocus (c := s.sel)
      refine Filed.focusNone ((h.redrawn hun).withSelmon ?_)
      rw [hun.mons]
      exact wintomon_mem x h
    · exact h
  unfold Dwm.press
  dsimp only
  generalize (if wintomon x s ≠ s.selmon ∧ (focusonwheel ∨ !wheel) then
      focus none { unfocus s.sel s with selmon := wintomon x s } else s) = u at hfocus ⊢
  cases x with
  | root p => exact hfocus
  | bar m part => exact hfocus
  | window w =>
      dsimp only
      split
      · dsimp only
        split
        · exact hfocus.focusOn (hfocus.here_of_window ‹_›)
        · exact hfocus
      · exact hfocus

/-- No button is bound to `rotatestack`. -/
theorem buttons_no_rotate : ∀ b ∈ buttons, b.2.1 ≠ .rotatestack := by decide

protected theorem Filed.buttonpress (x : Target) (wheel : Bool) (b : Option (Click × Binding))
    (d : Drag) (h : Filed lost base s) :
    Post (buttonpress x wheel b d s) (Filed lost base) := by
  have hpress := h.press x wheel
  unfold buttonpress
  dsimp only
  split
  · rename_i waits f a
    split
    · rename_i hb
      unfold runButton
      split
      · unfold moveorplace
        split
        · exact hpress.movemouse d
        · exact hpress.placemouse _ d
      · exact hpress.resizemouse d
      · exact hpress.runKey _ _ fun hdrop => absurd hdrop.1 (buttons_no_rotate _ hb.1)
    · exact (post_ok _).mpr hpress
  · exact (post_ok _).mpr hpress

protected theorem Filed.clientmessage (w : Window) (x : Message) (h : Filed lost base s) :
    Filed lost base (clientmessage w x s) := by
  unfold clientmessage
  split
  · rename_i c hc
    have hhere := h.here_of_window hc
    cases x with
    | netWMState a fullscreen sticky =>
        dsimp only
        have hfull : Unmoved s (if fullscreen then
            setfullscreen c (a = 1 || a = 2 && !(s.client c).isfullscreen) s else s) := by
          split
          · exact (redrawn_setfullscreen _ _ s).unmoved
          · exact .refl s
        split
        · exact h.unmoved hfull.setsticky
        · exact h.unmoved hfull
    | netActiveWindow =>
        dsimp only
        unfold activate
        dsimp only
        split
        · have hview := (h.withSelmon hhere.2).view (tagBit (lowestTag (s.client c).tags))
          refine hview.focusOn ?_
          have hhere' : Here { s with selmon := s.own c } c := hhere
          unfold view
          split
          · exact hhere'
          · exact (hhere'.unmoved (unmoved_modSettings _ _ _)).relinked
              (((Relinked.refl _).focus).redraw (Redrawn.refl _).arrangesel)
        · exact h
    | netWMDesktop data =>
        exact h.unmoved ((Unmoved.refl s).modClient.redraw (Redrawn.refl _).arrange)
    | netCloseWindow => exact h
    | other => exact h
  · exact h

protected theorem Filed.propertynotify (w : Window) (x : Property) (h : Filed lost base s) :
    Filed lost base (propertynotify w x s) := by
  unfold propertynotify
  split
  · cases x with
    | transientFor p =>
        dsimp only
        split
        · exact h.redrawn (Redrawn.refl s).modClient.arrange
        · exact h
    | windowType n b => exact h.unmoved (Unmoved.refl s).updatewindowtype
    | motifHints b => exact h.redrawn (redrawn_updatemotifhints _ b s)
    | other => exact h
  · exact h

protected theorem Filed.configurenotify (w k : Int) (l : Layouts) (h : Filed lost base s) :
    Post (configurenotify w k l s) (Filed lost base) := by
  have hsize : Filed lost base { s with sw := w, sh := k } :=
    h.redrawn ⟨rfl, rfl, rfl, rfl, rfl, rfl, rfl⟩
  unfold configurenotify
  refine (hsize.updategeom l).bind fun r hr => ?_
  dsimp only
  split
  · exact (post_pure _).mpr
      ((hr.redrawn (redrawn_refillAll _ r.1)).focusNone.redrawn (Redrawn.refl _).arrange)
  · exact (post_pure _).mpr hr

/-- The client that an event unmanages. -/
def unmanages (e : Event) (s : State) : Option ClientId :=
  match e with
  | .destroynotify w => s.wintoclient w
  | .unmapnotify w false => s.wintoclient w
  | _ => none

/-- The event is a `rotatestack` that drops a client. -/
def DropsOn (e : Event) (s : State) : Prop :=
  ∃ k cls, e = .keypress k cls ∧ k ∈ keys ∧ DropsAt k s

/-- **One event.**  Every client stays filed, only `rotatestack` can drop one,
and only `unmanage` makes one go. -/
protected theorem Filed.step (e : Event) (h : Filed lost base s)
    (hdrop : DropsOn e s → ∀ c, s.selM.clients = [c] → lost c)
    (hbase : ∀ c, unmanages e s = some c → ¬ base c) :
    Post (step e s) (Filed lost base) := by
  cases e with
  | buttonpress x wheel b d => exact h.buttonpress x wheel b d
  | clientmessage w x => exact (post_ok _).mpr (h.clientmessage w x)
  | configurenotify w k l => exact h.configurenotify w k l
  | configurerequest w r => exact (post_ok _).mpr (h.redrawn (redrawn_configurerequest w r s))
  | destroynotify w =>
      refine (post_ok _).mpr ?_
      unfold destroynotify
      split
      · exact h.unmanage (hbase _ ‹_›)
      · exact h
  | keypress k cls =>
      change Post (keypress k cls s) _
      unfold keypress
      split
      · exact h.runKey cls k fun hd => hdrop ⟨k, cls, rfl, ‹_›, hd⟩
      · exact (post_ok _).mpr h
  | maprequest c w i => exact h.maprequest c w i
  | propertynotify w x => exact (post_ok _).mpr (h.propertynotify w x)
  | unmapnotify w sendevent =>
      refine (post_ok _).mpr ?_
      unfold unmapnotify
      split
      · exact h
      · rename_i hs
        unfold destroynotify
        split
        · refine h.unmanage (hbase _ ?_)
          cases sendevent with
          | true => exact absurd rfl hs
          | false => assumption
        · exact h

/-! ## The start -/

theorem Inv.empty (sw sh bh lrpad : Int) : Inv nobody nobody (State.empty sw sh bh lrpad) where
  nodup := List.nodup_nil
  fresh := fun _ hk => by cases hk
  ownFresh := fun _ hc => by cases hc
  clients := ⟨fun _ hk => (by cases hk), fun _ hk => (by cases hk), fun _ hc => (by cases hc)⟩
  stack := ⟨fun _ hk => (by cases hk), fun _ hk => (by cases hk), fun _ hc => (by cases hc)⟩
  home := fun _ hc => by cases hc
  sel := fun _ hk => by cases hk

protected theorem Filed.setdeflayouts (h : Filed lost base s) : Filed lost base (setdeflayouts s) := by
  unfold Dwm.setdeflayouts
  refine Filed.view _ ?_
  refine List.foldlRecOn (motive := Filed lost base) _ _ h fun u hu a _ => ?_
  dsimp only
  split
  · exact (hu.view _).quiet (quiet_setlayout _ _)
  · exact hu

/-- **The start.**  When the event loop starts, every client is filed. -/
theorem filed_setup (d : Display) : Post (setup d) (Filed nobody nobody) := by
  unfold setup
  split
  · exact post_error _
  · rename_i hpos
    have hsw : d.sw ≠ 0 := fun h0 => hpos (Or.inl (by omega))
    refine (updategeom_spec d.layouts (Inv.empty d.sw d.sh d.bh d.lrpad)
      (Or.inr ⟨rfl, hsw⟩)).bind fun r hr => ?_
    obtain ⟨hinv, -, hsel⟩ := hr
    have hfiled : Filed nobody nobody r.1 := ⟨⟨nobody, fun _ => id, hinv⟩, hsel, fun _ => False.elim⟩
    exact (post_pure _).mpr hfiled.setdeflayouts.focusNone

end Dwm
