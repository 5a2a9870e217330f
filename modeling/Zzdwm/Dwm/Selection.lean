import Mathlib
import Zzdwm.Dwm.Setters

/-!
# The selected client

Between two events the selected client is the first visible one on the stack of
the selected monitor.  `focus` sees to that, so every event that ends with it
does; the events that make a client visible or hide it without a refocus, and
an `updategeom` that removes the selected monitor and nothing else, may not.

* `shown_focus` — `focus` establishes it;
* `shown_setsticky_iff`, `shown_setdesktop_iff` — when an event may leave the
  focus alone;
* `selection_is_first_visible` — every state of a run whose events refocus
  where they have to.
-/

namespace Dwm

open Machine

variable {lost base : ClientId → Prop} {s t u : State} {c d : ClientId} {m : MonId}
  {arg : Option ClientId}

/-- The selected client is the first visible one on the stack. -/
def Shown (s : State) : Prop := s.sel = s.firstVisible s.selmon

theorem shown_congr (hlists : t.lists = s.lists) (hselmon : t.selmon = s.selmon)
    (hvis : t.visible = s.visible) (h : Shown s) : Shown t := by
  change (t.lists t.selmon).sel = (t.lists t.selmon).stack.find? t.visible
  rw [hlists, hselmon, hvis]
  exact h

theorem Shown.quiet (h : Shown s) (hst : Quiet s t) : Shown t :=
  shown_congr hst.lists hst.selmon hst.visible h

theorem Shown.redrawn (h : Shown s) (hst : Redrawn s t) : Shown t := h.quiet hst.quiet

theorem firstVisible_of_target (h : focusTarget arg s = none) : s.firstVisible s.selmon = none := by
  cases arg with
  | none => exact h
  | some d =>
      rw [focusTarget] at h
      split at h
      · cases h
      · exact h

/-- **`focus`** selects the first visible client of the stack, for it puts the
client it settles on in front. -/
theorem shown_focus (arg : Option ClientId) (s : State) : Shown (focus arg s) := by
  have hvis : (focus arg s).visible = s.visible := (relinked_focus arg s).visible
  cases ht : focusTarget arg s with
  | none =>
      have hsel := selmon_focus arg s
      rw [ht] at hsel
      obtain ⟨u, hu, heq⟩ := focus_none ht
      change ((focus arg s).lists (focus arg s).selmon).sel =
        ((focus arg s).lists (focus arg s).selmon).stack.find? (focus arg s).visible
      rw [hvis, hsel, heq, lists_modMon, if_pos rfl]
      change none = (u.lists s.selmon).stack.find? s.visible
      rw [hu.lists]
      exact (firstVisible_of_target ht).symm
  | some c =>
      have hsel := selmon_focus arg s
      rw [ht] at hsel
      obtain ⟨u, hu, heq⟩ := focus_some ht
      have hown : (detachstack c { u with selmon := s.own c }).own c = s.own c := by
        rw [(Relinked.refl { u with selmon := s.own c }).detachstack.own]
        exact congrFun hu.unmoved.own c
      change ((focus arg s).lists (focus arg s).selmon).sel =
        ((focus arg s).lists (focus arg s).selmon).stack.find? (focus arg s).visible
      rw [hvis, hsel, heq, lists_modMon, if_pos rfl]
      change some c = ((linkStack (c :: ·) c (detachstack c
        { u with selmon := s.own c })).lists (s.own c)).stack.find? s.visible
      rw [lists_linkStack, if_pos hown.symm]
      exact (List.find?_cons_of_pos (focusTarget_visible ht)).symm

theorem shown_refocus (h : Redrawn (focus arg s) t) : Shown t := (shown_focus arg s).redrawn h

/-- A client is selected exactly if one is visible. -/
theorem Filed.sel_eq_none_iff (h : Filed lost base s) (hshown : Shown s) :
    s.sel = none ↔ ∀ c, s.live c = true → s.own c = s.selmon → s.visible c = false := by
  have hfirst : s.sel = (s.stackOf s.selmon).find? s.visible := hshown
  rw [hfirst, List.find?_eq_none]
  constructor
  · intro hall c hc hown
    have hmem := h.mem_stackOf (c := c) ⟨hc, hown ▸ h.selmon⟩
    rw [hown] at hmem
    simpa using hall c hmem
  · intro hall c hc
    obtain ⟨hhere, hown⟩ := h.here_of_stack h.selmon hc
    simpa using hall c hhere.1 hown

/-! ## Commands that refocus -/

theorem Shown.prevclient {o : Option ClientId} (h : Shown s) : Shown { s with prevclient := o } :=
  h

theorem shown_pop (c : ClientId) (s : State) : Shown (pop c s) := by
  unfold pop
  exact shown_refocus (Redrawn.refl _).arrange

theorem shown_view (a : TagSet) (h : Shown s) : Shown (view a s) := by
  unfold view
  split
  · exact h
  · exact shown_refocus (Redrawn.refl _).arrangesel

theorem shown_sendmon (c : ClientId) (m : MonId) (h : Shown s) : Shown (sendmon c m s) := by
  unfold sendmon
  split
  · exact h
  · exact shown_refocus (Redrawn.refl _).arrange

theorem shown_zoom (h : Shown s) : Shown (zoom s) := by
  unfold zoom
  dsimp only
  split
  · split
    · exact h.prevclient
    · split
      · split
        · exact shown_pop _ _
        · exact h.prevclient
      · exact shown_pop _ _
  · exact h.prevclient

theorem shown_rotatestack (i : Int) (h : Shown s) : Shown (rotatestack i s) := by
  unfold rotatestack
  split
  · split
    · split
      · exact shown_focus _ _
      · exact h
    · split
      · exact shown_focus _ _
      · exact h
  · exact h

theorem shown_tagswapmon (i : Int) (h : Shown s) : Shown (tagswapmon i s) := by
  unfold tagswapmon
  split
  · exact h
  · exact shown_refocus (Redrawn.refl _).arrange

theorem shown_focusmaster (h : Shown s) : Post (focusmaster s) Shown := by
  unfold focusmaster
  split
  · dsimp only
    split
    · exact (post_ok _).mpr h
    · split
      · split
        · split
          · exact post_error _
          · split
            · exact (post_ok _).mpr (shown_focus _ _)
            · exact (post_ok _).mpr h
        · exact (post_ok _).mpr h
      · exact (post_ok _).mpr (shown_focus _ _)
  · exact (post_ok _).mpr h

theorem shown_focusmon (i : Int) (h : Shown s) : Shown (focusmon i s) := by
  unfold focusmon
  dsimp only
  split
  · exact h
  · exact shown_focus _ _

theorem shown_focusstack (i : Int) (h : Shown s) : Post (focusstack i s) Shown := by
  unfold focusstack
  split
  · split
    · exact (post_ok _).mpr h
    · refine (post_any _).bind fun o _ => ?_
      split
      · exact (post_pure _).mpr (shown_focus _ _)
      · exact (post_pure _).mpr h
  · exact (post_ok _).mpr h

theorem shown_focussame (cls : Window → Option String) (i : Int) (h : Shown s) :
    Post (focussame cls i s) Shown := by
  unfold focussame
  split
  · split
    · dsimp only
      split
      · exact (post_ok _).mpr (shown_focus _ _)
      · split
        · exact post_error _
        · exact (post_ok _).mpr h
    · exact (post_ok _).mpr h
  · exact (post_ok _).mpr h

theorem shown_swapfocus (h : Shown s) : Post (swapfocus s) Shown := by
  unfold swapfocus
  split
  · split
    · refine (post_ok _).mpr ?_
      split
      · exact shown_focus _ _
      · exact h
    · exact shown_focusstack (-1) h
  · exact (post_ok _).mpr h

theorem shown_tagmon (i : Int) (h : Shown s) : Shown (tagmon i s) := by
  unfold tagmon
  split
  · split
    · exact h
    · exact shown_sendmon _ _ h
  · exact h

theorem shown_tag (a : TagSet) (h : Shown s) : Post (tag a s) Shown := by
  unfold tag
  split
  · rename_i c _
    split
    · dsimp only
      have hret : Shown (arrangesel (focus none
          (s.modClient c fun k => { k with tags := a &&& tagmask }))) :=
        shown_refocus (Redrawn.refl _).arrangesel
      refine (post_any _).bind fun _ _ => (post_pure _).mpr ?_
      split
      · exact shown_view a hret
      · exact hret
    · exact (post_ok _).mpr h
  · exact (post_ok _).mpr h

theorem shown_toggletag (a : TagSet) (h : Shown s) : Shown (toggletag a s) := by
  unfold toggletag
  split
  · dsimp only
    split
    · exact shown_refocus (Redrawn.refl _).arrangesel
    · exact h
  · exact h

theorem shown_swaptag (a : TagSet) (h : Shown s) : Shown (swaptag a s) := by
  unfold swaptag
  dsimp only
  split
  · exact h
  · exact shown_refocus (Redrawn.refl _).arrangesel

/-! ## Making a client visible, and hiding it -/

section Flip

variable {A : Type} [DecidableEq A] {p q : A → Bool} {a : A}

/-- An element that comes to satisfy the test is found unless one before it is. -/
theorem find?_show (hpq : ∀ b, b ≠ a → q b = p b) (hp : p a = false) (hq : q a = true)
    {l : List A} (ha : a ∈ l) :
    l.find? q = l.find? p ↔ ∃ b, l.find? p = some b ∧ l.idxOf b < l.idxOf a := by
  induction l with
  | nil => cases ha
  | cons b l ih =>
      by_cases hb : b = a
      · subst hb
        rw [List.find?_cons_of_pos hq, List.find?_cons_of_neg (by simp [hp])]
        constructor
        · intro h
          have hpb := List.find?_some h.symm
          rw [hp] at hpb
          cases hpb
        · rintro ⟨d, -, hlt⟩
          rw [List.idxOf_cons_self] at hlt
          exact absurd hlt (Nat.not_lt_zero _)
      · have hmem : a ∈ l := (List.mem_cons.mp ha).resolve_left (Ne.symm hb)
        have hidx : (b :: l).idxOf a = l.idxOf a + 1 := List.idxOf_cons_ne l hb
        by_cases hpb : p b = true
        · rw [List.find?_cons_of_pos hpb, List.find?_cons_of_pos (by rw [hpq b hb]; exact hpb)]
          refine iff_of_true rfl ⟨b, rfl, ?_⟩
          rw [List.idxOf_cons_self, hidx]
          exact Nat.succ_pos _
        · rw [List.find?_cons_of_neg hpb, List.find?_cons_of_neg (by rw [hpq b hb]; exact hpb),
            ih hmem, hidx]
          refine exists_congr fun d => and_congr_right fun hd => ?_
          have hdb : b ≠ d := by
            rintro rfl
            exact hpb (List.find?_some hd)
          rw [List.idxOf_cons_ne l hdb]
          exact Nat.succ_lt_succ_iff.symm

/-- An element that no longer satisfies the test is missed if it was found. -/
theorem find?_hide (hpq : ∀ b, b ≠ a → q b = p b) (hp : p a = true) (hq : q a = false)
    (l : List A) : l.find? q = l.find? p ↔ l.find? p ≠ some a := by
  induction l with
  | nil => exact iff_of_true rfl (by simp)
  | cons b l ih =>
      by_cases hb : b = a
      · subst hb
        rw [List.find?_cons_of_pos hp, List.find?_cons_of_neg (by simp [hq])]
        refine iff_of_false (fun h => ?_) (by simp)
        have hqb := List.find?_some h
        rw [hq] at hqb
        cases hqb
      · by_cases hpb : p b = true
        · rw [List.find?_cons_of_pos hpb, List.find?_cons_of_pos (by rw [hpq b hb]; exact hpb)]
          exact iff_of_true rfl fun h => hb (Option.some.inj h)
        · rw [List.find?_cons_of_neg hpb, List.find?_cons_of_neg (by rw [hpq b hb]; exact hpb), ih]

end Flip

/-- The visibility that a client has with some tags and some stickiness. -/
def State.shownWith (s : State) (c : ClientId) (tags : TagSet) (sticky : Bool) : Bool :=
  tags &&& (s.settings (s.own c)).tags ≠ 0#32 || sticky

/-- The selection stands although `c` becomes visible, or hidden: `c` is on
another monitor, nothing changes, a hidden client was not selected, or a client
that becomes visible is behind the selected one. -/
def Harmless (c : ClientId) (visible : Bool) (s : State) : Prop :=
  s.own c ≠ s.selmon ∨ s.visible c = visible ∨
    if visible then ∃ d, s.sel = some d ∧
      (s.stackOf s.selmon).idxOf d < (s.stackOf s.selmon).idxOf c
    else s.sel ≠ some c

/-- Nothing but the visibility of one client changed. -/
structure Flipped (c : ClientId) (visible : Bool) (s t : State) : Prop where
  lists : t.lists = s.lists
  selmon : t.selmon = s.selmon
  other : ∀ d, d ≠ c → t.visible d = s.visible d
  self : t.visible c = visible

theorem Flipped.redrawn {b : Bool} (h : Flipped c b s t) (hst : Redrawn t u) :
    Flipped c b s u :=
  ⟨hst.lists.trans h.lists, hst.selmon.trans h.selmon,
    fun d hd => by rw [hst.quiet.visible, h.other d hd], by rw [hst.quiet.visible, h.self]⟩

/-- **Without a refocus** the selection stands exactly if the change is harmless. -/
theorem Flipped.shown_iff {b : Bool} (h : Flipped c b s t) (hfiled : Filed lost base s)
    (hc : Here s c) (hs : Shown s) : Shown t ↔ Harmless c b s := by
  have hsel : s.sel = (s.stackOf s.selmon).find? s.visible := hs
  have hshown : Shown t ↔
      (s.stackOf s.selmon).find? t.visible = (s.stackOf s.selmon).find? s.visible := by
    rw [← hsel]
    change (t.lists t.selmon).sel = (t.lists t.selmon).stack.find? t.visible ↔ _
    rw [h.lists, h.selmon]
    exact eq_comm
  rw [hshown, Harmless]
  by_cases hown : s.own c = s.selmon
  · by_cases hvis : s.visible c = b
    · have heq : t.visible = s.visible := by
        funext d
        by_cases hd : d = c
        · rw [hd, h.self, hvis]
        · exact h.other d hd
      rw [heq]
      exact iff_of_true rfl (Or.inr (Or.inl hvis))
    · have hmem : c ∈ s.stackOf s.selmon := hown ▸ hfiled.mem_stackOf hc
      cases b with
      | true =>
          rw [find?_show h.other (by simpa using hvis) h.self hmem, ← hsel]
          simp [hown, hvis]
      | false =>
          rw [find?_hide h.other (by simpa using hvis) h.self, ← hsel]
          simp [hown, hvis]
  · refine iff_of_true (List.find?_congr fun d hd => ?_) (Or.inl hown)
    refine h.other d ?_
    rintro rfl
    exact hown (hfiled.here_of_stack hfiled.selmon hd).2

/-- Assigning tags or stickiness to a client without moving it. -/
theorem flipped_modClient {f : Client → Client} (c : ClientId) (s : State)
    (hf : (f (s.client c)).mon = (s.client c).mon) :
    Flipped c (s.shownWith c (f (s.client c)).tags (f (s.client c)).issticky) s
      (s.modClient c f) where
  lists := rfl
  selmon := rfl
  other := fun d hd => by
    rw [State.visible_eq, State.visible_eq]
    simp only [State.seat, State.modClient, Function.update_of_ne hd]
    rfl
  self := by
    have hmon : (s.seat c).mon = s.own c := rfl
    rw [State.visible_eq]
    simp only [State.seat, State.modClient, Function.update_self, hf]
    rfl

theorem flipped_setsticky (c : ClientId) (b : Bool) (s : State) :
    Flipped c (s.shownWith c (s.tagsOf c) b) s (setsticky c b s) := by
  have hset : ∀ b, Flipped c (s.shownWith c (s.tagsOf c) b) s
      (s.modClient c fun k => { k with issticky := b }) := fun b =>
    flipped_modClient (f := fun k => { k with issticky := b }) c s rfl
  have hsame : (s.client c).issticky = b → Flipped c (s.shownWith c (s.tagsOf c) b) s s := by
    rintro rfl
    exact ⟨rfl, rfl, fun _ _ => rfl, rfl⟩
  unfold setsticky
  cases b with
  | true =>
      split
      · exact hset true
      · rename_i h
        exact hsame (by simpa using h)
  | false =>
      rw [if_neg (by simp)]
      split
      · exact (hset false).redrawn (Redrawn.refl _).arrange
      · rename_i h
        exact hsame (by simpa using h)

theorem flipped_setdesktop (c : ClientId) (data : Int) (s : State) :
    Flipped c (s.shownWith c (BitVec.ofInt 32 data) (s.client c).issticky) s
      (setdesktop c data s) :=
  (flipped_modClient (f := fun k => { k with tags := BitVec.ofInt 32 data }) c s rfl).redrawn
    (Redrawn.refl _).arrange

theorem shown_setsticky_iff (hfiled : Filed lost base s) (hc : Here s c) (hs : Shown s) (b : Bool) :
    Shown (setsticky c b s) ↔ Harmless c (s.shownWith c (s.tagsOf c) b) s :=
  (flipped_setsticky c b s).shown_iff hfiled hc hs

theorem shown_setdesktop_iff (hfiled : Filed lost base s) (hc : Here s c) (hs : Shown s)
    (data : Int) : Shown (setdesktop c data s) ↔
      Harmless c (s.shownWith c (BitVec.ofInt 32 data) (s.client c).issticky) s :=
  (flipped_setdesktop c data s).shown_iff hfiled hc hs

/-! ## Drags -/

theorem shown_manage (c : ClientId) (w : Window) (i : WinInfo) (h : Shown s) :
    Shown (manage c w i s) := by
  unfold manage
  split
  · exact h
  · exact shown_focus _ _

theorem shown_maprequest (c : ClientId) (w : Window) (i : WinInfo) (h : Shown s) :
    Post (maprequest c w i s) Shown := by
  unfold maprequest
  split
  · exact post_error _
  · split
    · exact (post_ok _).mpr h
    · exact (post_ok _).mpr (shown_manage c w i h)

theorem shown_followmon (c : ClientId) (h : Shown s) : Shown (followmon c s) := by
  unfold followmon
  dsimp only
  split
  · exact shown_focus _ _
  · exact h

theorem shown_movemouse (d : Drag) (h : Shown s) : Post (movemouse d s) Shown := by
  unfold movemouse
  split
  · split
    · exact (post_ok _).mpr h
    · split
      · refine (dragLoop_post Shown ?_ ?_ ?_ d.events h).bind ?_
        · exact fun a w r ha => ha.redrawn (redrawn_configurerequest w r a)
        · exact fun a c w i ha => shown_maprequest c w i ha
        · exact fun a x y ha => ha.redrawn (redrawn_moveMotion _ _ _ a)
        · exact fun a ha => (post_pure _).mpr (shown_followmon _ ha)
      · exact (post_ok _).mpr h
  · exact (post_ok _).mpr h

theorem Settings.tags_resizemouse (x y : Int) (m : Settings) :
    (m.resizemouse x y).tags = m.tags := by
  unfold Settings.resizemouse
  split <;> rfl

theorem shown_resizemouse (d : Drag) (h : Shown s) : Post (resizemouse d s) Shown := by
  unfold resizemouse
  split
  · split
    · exact (post_ok _).mpr h
    · dsimp only
      split
      · exact (post_ok _).mpr h
      · refine (dragLoop_post Shown ?_ ?_ ?_ d.events h).bind ?_
        · exact fun a w r ha => ha.redrawn (redrawn_configurerequest w r a)
        · exact fun a c w i ha => shown_maprequest c w i ha
        · exact fun a x y ha => ha.redrawn (.ite (Redrawn.refl a).resize (.refl a))
        · intro a ha
          refine (post_pure _).mpr (shown_followmon _ ?_)
          split
          · exact ha
          · exact ha.quiet (quiet_assign a (Settings.tags_resizemouse _ _ _))
  · exact (post_ok _).mpr h

theorem shown_placemouse (i : Int) (d : Drag) (h : Shown s) : Post (placemouse i d s) Shown := by
  unfold placemouse
  split
  · rename_i c _
    split
    · exact (post_ok _).mpr h
    · dsimp only
      have hstart := (Redrawn.refl s).modClient (c := c)
        (f := fun k => { k with isfloating := false }) |>.modGeom (c := c)
        (f := fun g => { g with beingmoved := true })
      split
      · refine (post_any _).bind fun p _ => (post_pure _).mpr ?_
        unfold placeEnd
        have hfocus := (shown_focus (some c) (placeOn c (recttomon d.release.1 d.release.2 1 1 p.s)
          p.s)).redrawn ((Redrawn.refl _).modGeom (c := c)
          (f := fun g => { g with beingmoved := false }))
        refine Shown.redrawn ?_ (Redrawn.refl _).rearrange
        split
        · exact hfocus.redrawn (Redrawn.refl _).resize
        · exact hfocus
      · exact (post_ok _).mpr (h.redrawn hstart)
  · exact (post_ok _).mpr h

theorem shown_press (x : Target) (wheel : Bool) (h : Shown s) : Shown (press x wheel s).1 := by
  have hfocus : Shown (if wintomon x s ≠ s.selmon ∧ (focusonwheel ∨ !wheel) then
      focus none { unfocus s.sel s with selmon := wintomon x s } else s) := by
    split
    · exact shown_focus _ _
    · exact h
  unfold press
  dsimp only
  generalize (if wintomon x s ≠ s.selmon ∧ (focusonwheel ∨ !wheel) then
      focus none { unfocus s.sel s with selmon := wintomon x s } else s) = u at hfocus ⊢
  cases x with
  | root p => exact hfocus
  | bar m part => exact hfocus
  | window w =>
      dsimp only
      split
      · dsimp only
        split
        · exact shown_focus _ _
        · exact hfocus
      · exact hfocus

/-! ## Monitors that go -/

/-- What `configurenotify` takes as a reason to refocus: the display, a screen
or the monitors that still have clients have changed. -/
def Reconfigures (w h : Int) (unique : List Screen) (s : State) : Prop :=
  s.sw ≠ w ∨ s.sh ≠ h ∨
    (∃ p ∈ s.mons.zip unique, p.2 ≠ ⟨(s.settings p.1).mx, (s.settings p.1).my,
      (s.settings p.1).mw, (s.settings p.1).mh⟩) ∨
    ∃ m ∈ s.mons.drop unique.length, s.clientsOf m ≠ []

/-- Screens that are all as their monitors know them. -/
theorem fitAll_clean {n i : Nat} {ms : List MonId} {rs : List Screen} {s : State} {b : Bool}
    (h : (fitAll n i ms rs (s, b)).2 = false) :
    fitAll n i ms rs (s, b) = (s, false) ∧
      ∀ p ∈ ms.zip rs, p.2 = ⟨(s.settings p.1).mx, (s.settings p.1).my,
        (s.settings p.1).mw, (s.settings p.1).mh⟩ := by
  induction ms generalizing i rs with
  | nil =>
      have hb : b = false := by
        cases rs <;> exact h
      subst hb
      cases rs <;> exact ⟨rfl, fun p hp => by cases hp⟩
  | cons m ms ih =>
      cases rs with
      | nil =>
          have hb : b = false := h
          subst hb
          exact ⟨rfl, fun p hp => by cases hp⟩
      | cons r rs =>
          rw [fitAll] at h ⊢
          split at h
          · rw [fitAll_dirty] at h
            cases h
          · rename_i hclean
            rw [if_neg hclean]
            obtain ⟨heq, hall⟩ := ih h
            refine ⟨heq, fun p hp => ?_⟩
            rcases List.mem_cons.mp hp with rfl | hp
            · exact not_not.mp fun hne => hclean (Or.inr hne)
            · exact hall p hp

/-- More screens than monitors are a change. -/
theorem fitAll_more {n i : Nat} {ms : List MonId} {rs : List Screen} (s : State) (b : Bool)
    (hi : i ≤ n) (hms : n < i + ms.length) (hrs : n < i + rs.length) :
    (fitAll n i ms rs (s, b)).2 = true := by
  induction ms generalizing i rs s b with
  | nil =>
      rw [List.length_nil] at hms
      omega
  | cons m ms ih =>
      cases rs with
      | nil =>
          rw [List.length_nil] at hrs
          omega
      | cons r rs =>
          rw [List.length_cons] at hms hrs
          rw [fitAll]
          by_cases hn : i ≥ n
          · rw [if_pos (Or.inl hn)]
            exact fitAll_dirty _ _ _ _ _
          · split
            · exact fitAll_dirty _ _ _ _ _
            · exact ih s b (by omega) (by omega) (by omega)

/-- Keeping the first monitors only. -/
def State.keepmons (n : Nat) (s : State) : State :=
  { s with
    mons := s.mons.take n
    selmon := if s.selmon ∈ s.mons.take n then s.selmon else s.mons.headD s.selmon }

theorem removemons_dirty (n : Nat) (s : State) : (removemons n (s, true)).2 = true := by
  induction n generalizing s with
  | zero => rfl
  | succ n ih => exact ih _

/-- A monitor that goes without any client. -/
theorem removemon_empty {l : List MonId} (hmons : s.mons = l ++ [m]) (hm : m ∉ l)
    (hnil : s.clientsOf m = []) :
    removemon m s = { s with
      mons := l, selmon := if m = s.selmon then s.mons.headD s.selmon else s.selmon } := by
  have hclients : (s.monitor m).clients = [] := hnil
  have herase : s.mons.erase m = l := by
    rw [hmons, List.erase_append_right _ hm, List.erase_cons_head, List.append_nil]
  unfold removemon cleanupmon
  rw [hclients]
  dsimp only [List.foldl_nil]
  split
  · rw [← herase]
  · rw [← herase]

/-- Keeping the first monitors after the last one has gone. -/
theorem keepmons_append {k : MonId} {ks : List MonId} {j : Nat}
    (hmons : s.mons = (k :: ks) ++ [m]) (hm : m ∉ k :: ks) (hj : j < (k :: ks).length) :
    State.keepmons (j + 1) { s with
      mons := k :: ks, selmon := if m = s.selmon then k else s.selmon } = s.keepmons (j + 1) := by
  have htake : s.mons.take (j + 1) = (k :: ks).take (j + 1) := by
    rw [hmons, List.take_append_of_le_length hj]
  have hhead : s.mons.headD s.selmon = k := by
    rw [hmons]
    rfl
  have hk : k ∈ (k :: ks).take (j + 1) := List.mem_cons_self
  unfold State.keepmons
  dsimp only
  rw [htake, hhead]
  by_cases hms : m = s.selmon
  · rw [if_pos hms, if_pos hk, if_neg fun hin => hm (hms ▸ List.mem_of_mem_take hin)]
  · rw [if_neg hms]
    rfl

/-- Monitors that go without any client leave the lists as they are. -/
theorem removemons_clean {n : Nat} {s : State} {b : Bool} (hnd : s.mons.Nodup)
    (hn : n < s.mons.length) (hsel : s.selmon ∈ s.mons)
    (h : (removemons n (s, b)).2 = false) :
    removemons n (s, b) = (s.keepmons (s.mons.length - n), false) ∧
      ∀ m ∈ s.mons.drop (s.mons.length - n), s.clientsOf m = [] := by
  induction n generalizing s b with
  | zero =>
      have hb : b = false := h
      subst hb
      refine ⟨?_, fun m hm => ?_⟩
      · rw [removemons, State.keepmons, Nat.sub_zero, List.take_length, if_pos hsel]
      · rw [Nat.sub_zero, List.drop_length] at hm
        cases hm
  | succ n ih =>
      obtain ⟨l, m, hmons⟩ : ∃ l m, s.mons = l ++ [m] := by
        rcases List.eq_nil_or_concat s.mons with hnil | ⟨l, m, hl⟩
        · rw [hnil] at hn
          exact absurd hn (Nat.not_lt_zero _)
        · exact ⟨l, m, by rw [hl, List.concat_eq_append]⟩
      have hml : m ∉ l := by
        rw [hmons] at hnd
        exact fun hm => (List.nodup_append.mp hnd).2.2 m hm m (List.mem_singleton_self m) rfl
      have hlast : s.mons.getLastD s.selmon = m := by
        rw [hmons, List.getLastD_concat]
      have hlen : s.mons.length = l.length + 1 := by
        rw [hmons, List.length_append, List.length_singleton]
      rw [removemons, hlast] at h ⊢
      cases hnil : (s.monitor m).clients.isEmpty with
      | false =>
          rw [hnil, Bool.not_false, Bool.or_true, removemons_dirty] at h
          cases h
      | true =>
          have hempty : s.clientsOf m = [] := List.isEmpty_iff.mp hnil
          rw [hnil] at h
          -- some monitor stays, and the first one stays the first
          obtain ⟨k, ks, rfl⟩ : ∃ k ks, l = k :: ks := by
            cases l with
            | nil =>
                rw [List.length_nil] at hlen
                omega
            | cons k ks => exact ⟨k, ks, rfl⟩
          have hhead : s.mons.headD s.selmon = k := by
            rw [hmons]
            rfl
          rw [removemon_empty hmons hml hempty, hhead] at h ⊢
          have hselu : (if m = s.selmon then k else s.selmon) ∈ k :: ks := by
            split
            · exact List.mem_cons_self
            · rename_i hne
              rw [hmons] at hsel
              exact (List.mem_append.mp hsel).resolve_right fun hm =>
                hne (List.mem_singleton.mp hm).symm
          have hn' : n < (k :: ks).length := by omega
          obtain ⟨heq, hall⟩ := ih (List.nodup_append.mp (hmons ▸ hnd)).1 hn' hselu h
          obtain ⟨j, hj⟩ := Nat.exists_eq_succ_of_ne_zero (Nat.sub_ne_zero_of_lt hn')
          have hj' : s.mons.length - (n + 1) = j + 1 := by omega
          rw [hj']
          refine ⟨heq.trans ?_, fun x hx => ?_⟩
          · dsimp only
            rw [hj, keepmons_append hmons hml (by omega)]
          · rw [hmons, List.drop_append_of_le_length (by omega)] at hx
            rcases List.mem_append.mp hx with hx | hx
            · exact hall x (hj ▸ hx)
            · rw [List.mem_singleton.mp hx]
              exact hempty

/-- The monitor that is selected after `updategeom` under Xinerama shows its
selection: the selected monitor stays, or something makes dwm refocus, or the
first monitor, which is selected instead, shows its own. -/
def KeepsHead (w h : Int) (unique : List Screen) (s : State) : Prop :=
  s.selmon ∈ s.mons.take unique.length ∨ Reconfigures w h unique s ∨
    (s.lists (s.mons.headD s.selmon)).sel = s.firstVisible (s.mons.headD s.selmon)

theorem shown_keepmons {n : Nat} (hs : Shown s) (h : s.selmon ∈ s.mons.take n ∨
    (s.lists (s.mons.headD s.selmon)).sel = s.firstVisible (s.mons.headD s.selmon)) :
    Shown (s.keepmons n) := by
  have hlists : (s.keepmons n).lists = s.lists := rfl
  by_cases hin : s.selmon ∈ s.mons.take n
  · have hsel : (s.keepmons n).selmon = s.selmon := if_pos hin
    exact shown_congr hlists hsel rfl hs
  · have hsel : (s.keepmons n).selmon = s.mons.headD s.selmon := if_neg hin
    change ((s.keepmons n).lists (s.keepmons n).selmon).sel =
      ((s.keepmons n).lists (s.keepmons n).selmon).stack.find? s.visible
    rw [hsel]
    exact h.resolve_left hin

/-- Nothing changed under Xinerama, so some monitors at the end may be gone. -/
theorem refit_clean {info : List Screen} (hnd : s.mons.Nodup) (hsel : s.selmon ∈ s.mons)
    (hinfo : info ≠ []) (h : (refit info s).2 = false) :
    (refit info s).1 = s.keepmons (uniqueScreens info).length ∧
      (∀ p ∈ s.mons.zip (uniqueScreens info), p.2 = ⟨(s.settings p.1).mx, (s.settings p.1).my,
        (s.settings p.1).mw, (s.settings p.1).mh⟩) ∧
      ∀ m ∈ s.mons.drop (uniqueScreens info).length, s.clientsOf m = [] := by
  have hpos := List.length_pos_of_ne_nil (uniqueScreens_ne_nil hinfo)
  have hmpos := List.length_pos_of_mem hsel
  unfold refit at h ⊢
  dsimp only at h ⊢
  generalize uniqueScreens info = unique at hpos h ⊢
  generalize hu : (List.range (unique.length - s.mons.length)).foldl (fun s _ => addmon s) s = u
    at h ⊢
  have hlen : u.mons.length = s.mons.length + (unique.length - s.mons.length) := by
    rw [← hu, length_addmons, List.length_range]
  cases hb : (fitAll s.mons.length 0 u.mons unique (u, false)).2 with
  | true =>
      generalize fitAll s.mons.length 0 u.mons unique (u, false) = r at hb h
      obtain ⟨v, b⟩ := r
      dsimp only at hb
      rw [hb, removemons_dirty] at h
      cases h
  | false =>
      have hle : unique.length ≤ s.mons.length := by
        by_contra hlt
        rw [fitAll_more u false (Nat.zero_le _) (by omega) (by omega)] at hb
        cases hb
      have hus : u = s := by
        rw [← hu, Nat.sub_eq_zero_of_le hle, List.range_zero, List.foldl_nil]
      rw [hus] at hb h ⊢
      obtain ⟨heq, hzip⟩ := fitAll_clean hb
      rw [heq] at h ⊢
      obtain ⟨hkeep, hdrop⟩ := removemons_clean hnd (by omega) hsel h
      rw [Nat.sub_sub_self hle] at hkeep hdrop
      exact ⟨congrArg Prod.fst hkeep, hzip, hdrop⟩

/-- What `configurenotify` needs to keep the selection shown. -/
def KeepsSelmon (w h : Int) (l : Layouts) (s : State) : Prop :=
  ∀ info, l.screens = some info → KeepsHead w h (uniqueScreens info) s

theorem Filed.shown_configurenotify (w k : Int) (l : Layouts) (h : Filed lost base s)
    (hs : Shown s) (hok : KeepsSelmon w k l s) : Post (configurenotify w k l s) Shown := by
  obtain ⟨outC, -, hinv⟩ := h.inv
  have hclean : Post (updategeom l { s with sw := w, sh := k }) fun r =>
      r.2 = false → s.sw = w ∧ s.sh = k → Shown r.1 := by
    unfold updategeom
    split
    · exact post_error _
    · rename_i hscreens
      dsimp only
      split
      · exact (post_ok _).mpr fun hr => by cases hr
      · rename_i hr
        refine (post_ok _).mpr fun _ hsize => ?_
        have hr' : (refitScreens l { s with sw := w, sh := k }).2 = false := by simpa using hr
        unfold refitScreens at hr' ⊢
        cases hl : l.screens with
        | none =>
            rw [hl] at hr'
            have hne : s.mons ≠ [] := List.ne_nil_of_mem h.selmon
            dsimp only at hr' ⊢
            unfold refitOne fitFirst at hr' ⊢
            rw [if_neg (show ¬ ({ s with sw := w, sh := k } : State).mons = [] from hne)] at hr' ⊢
            dsimp only at hr' ⊢
            split at hr'
            · cases hr'
            · rw [if_neg ‹_›]
              exact hs
        | some info =>
            rw [hl] at hr'
            obtain ⟨heq, hzip, hdrop⟩ := refit_clean (s := { s with sw := w, sh := k })
              hinv.nodup h.selmon (fun hnil => hscreens (hnil ▸ hl)) hr'
            dsimp only
            rw [heq]
            refine shown_keepmons hs ?_
            rcases hok info hl with hin | hre | hhead
            · exact Or.inl hin
            · rcases hre with hw | hk | ⟨p, hp, hne⟩ | ⟨m, hm, hne⟩
              · exact absurd hsize.1 hw
              · exact absurd hsize.2 hk
              · exact absurd (hzip p hp) hne
              · exact absurd (hdrop m hm) hne
            · exact Or.inr hhead
  unfold configurenotify
  refine hclean.bind fun r hr => ?_
  dsimp only
  split
  · exact (post_pure _).mpr (shown_refocus (Redrawn.refl _).arrange)
  · rename_i hno
    rw [not_or] at hno
    refine (post_pure _).mpr (hr (by simpa using hno.1) ?_)
    exact not_or.mp hno.2 |>.imp not_not.mp not_not.mp

/-! ## Events -/

/-- The events after which the selection stands: those that change what is
visible without a refocus are harmless. -/
def Refocuses (e : Event) (s : State) : Prop :=
  match e with
  | .keypress k _ => k.1 = .togglesticky → ∀ c, s.sel = some c →
      Harmless c (s.shownWith c (s.tagsOf c) (!(s.client c).issticky)) s
  | .clientmessage w (.netWMState a _ true) => ∀ c, s.wintoclient w = some c →
      Harmless c (s.shownWith c (s.tagsOf c) (a = 1 || a = 2 && !(s.client c).issticky)) s
  | .clientmessage w (.netWMDesktop data) => ∀ c, s.wintoclient w = some c →
      Harmless c (s.shownWith c (BitVec.ofInt 32 data) (s.client c).issticky) s
  | .propertynotify w (.windowType .sticky _) => ∀ c, s.wintoclient w = some c →
      Harmless c true s
  | .configurenotify w h l => KeepsSelmon w h l s
  | _ => True

/-- **Commands.**  All but `togglesticky` refocus where they have to. -/
theorem Filed.shown_runKey (cls : Window → Option String) (k : Binding) (h : Filed lost base s)
    (hs : Shown s) (hok : k.1 = .togglesticky → ∀ c, s.sel = some c →
      Harmless c (s.shownWith c (s.tagsOf c) (!(s.client c).issticky)) s) :
    Post (Dwm.runKey cls k s) Shown := by
  obtain ⟨f, a⟩ := k
  cases f with
  | spawn | killclient | quit | incfloat | moveorplace | resizemouse => exact (post_ok _).mpr hs
  | togglebar => exact (post_ok _).mpr (hs.quiet (quiet_togglebar s))
  | incnmaster => exact (quiet_incnmaster a.int s).mono fun _ => hs.quiet
  | resetnmaster => exact (post_ok _).mpr (hs.quiet (quiet_resetnmaster _ s))
  | zoom => exact (post_ok _).mpr (shown_zoom hs)
  | view => exact (post_ok _).mpr (shown_view _ hs)
  | setlayout => exact (post_ok _).mpr (hs.quiet (quiet_setlayout _ s))
  | togglefloating => exact (post_ok _).mpr (hs.redrawn (redrawn_togglefloating s))
  | focusmaster => exact shown_focusmaster hs
  | resetmfact => exact (post_ok _).mpr (hs.quiet (quiet_resetmfact s))
  | togglefullscr => exact (post_ok _).mpr (hs.redrawn (redrawn_togglefullscr s))
  | togglesticky =>
      refine (post_ok _).mpr ?_
      unfold togglesticky
      split
      · rename_i c hc
        exact ((shown_setsticky_iff h (h.here_of_sel hc).1 hs _).mpr (hok rfl c hc)).redrawn
          (Redrawn.refl _).arrangesel
      · exact hs
  | swapfocus => exact shown_swapfocus hs
  | tag => exact shown_tag _ hs
  | setmfact => exact (quiet_setmfact a.fact s).mono fun _ => hs.quiet
  | setgaps => exact (post_ok _).mpr (hs.quiet (quiet_setgaps _ s))
  | focusmon => exact (post_ok _).mpr (shown_focusmon _ hs)
  | tagmon => exact (post_ok _).mpr (shown_tagmon _ hs)
  | tagswapmon => exact (post_ok _).mpr (shown_tagswapmon _ hs)
  | rotatetags =>
      refine (post_ok _).mpr ?_
      unfold rotatetags
      dsimp only
      split
      · exact shown_refocus (Redrawn.refl _).arrangesel
      · exact hs
  | rotatestack => exact (post_ok _).mpr (shown_rotatestack _ hs)
  | cyclelayout => exact (post_ok _).mpr (hs.quiet (quiet_cyclelayout _ s))
  | shiftviewclients =>
      change Post (shiftviewclients _ s) _
      unfold shiftviewclients
      split
      · exact (post_ok _).mpr (shown_view _ hs)
      · exact post_error _
  | focusstack => exact shown_focusstack _ hs
  | setsmfact => exact (quiet_setsmfact a.fact s).mono fun _ => hs.quiet
  | fmaximize => exact (redrawn_fmaximize a.tags s).mono fun _ => hs.redrawn
  | setwfact => exact (redrawn_setwfact a.fact s).mono fun _ => hs.redrawn
  | sethfact => exact (redrawn_sethfact a.fact s).mono fun _ => hs.redrawn
  | fsnap => exact (redrawn_fsnap a.tags s).mono fun _ => hs.redrawn
  | fdeck => exact (post_ok _).mpr (hs.redrawn (redrawn_fdeck _ s))
  | focussame => exact shown_focussame cls _ hs
  | toggleview =>
      refine (post_ok _).mpr ?_
      unfold toggleview
      dsimp only
      split
      · exact shown_refocus (Redrawn.refl _).arrangesel
      · exact hs
  | swaptag => exact (post_ok _).mpr (shown_swaptag _ hs)
  | toggletag => exact (post_ok _).mpr (shown_toggletag _ hs)

/-- No button is bound to `togglesticky`. -/
theorem buttons_no_sticky : ∀ b ∈ buttons, b.2.1 ≠ .togglesticky := by decide

theorem Filed.shown_buttonpress (x : Target) (wheel : Bool) (b : Option (Click × Binding))
    (d : Drag) (h : Filed lost base s) (hs : Shown s) :
    Post (Dwm.buttonpress x wheel b d s) Shown := by
  have hpress := h.press x wheel
  have hshown := shown_press x wheel hs
  unfold Dwm.buttonpress
  dsimp only
  split
  · rename_i waits f a
    split
    · rename_i hb
      unfold runButton
      split
      · unfold moveorplace
        split
        · exact shown_movemouse d hshown
        · exact shown_placemouse _ d hshown
      · exact shown_resizemouse d hshown
      · exact hpress.shown_runKey _ _ hshown fun hf =>
          absurd hf (buttons_no_sticky (waits, f, a) hb.1)
    · exact (post_ok _).mpr hshown
  · exact (post_ok _).mpr hshown

/-- Redrawing before the change makes no difference. -/
theorem Flipped.after {b : Bool} (h : Flipped c b t u) (hst : Redrawn s t) : Flipped c b s u :=
  ⟨h.lists.trans hst.lists, h.selmon.trans hst.selmon,
    fun d hd => by rw [h.other d hd, hst.quiet.visible], h.self⟩

theorem Redrawn.shownWith (h : Redrawn s t) (c : ClientId) (tags : TagSet) (b : Bool) :
    t.shownWith c tags b = s.shownWith c tags b := by
  rw [State.shownWith, State.shownWith, h.settings, h.unmoved.own]

theorem Filed.shown_clientmessage (w : Window) (x : Message) (h : Filed lost base s)
    (hs : Shown s) (hok : Refocuses (.clientmessage w x) s) :
    Shown (Dwm.clientmessage w x s) := by
  unfold Dwm.clientmessage
  cases hc : s.wintoclient w with
  | none => exact hs
  | some c =>
      have hhere := h.here_of_window hc
      cases x with
      | netWMState a fullscreen sticky =>
          have hfull : Redrawn s (if fullscreen then
              setfullscreen c (a = 1 || a = 2 && !(s.client c).isfullscreen) s else s) :=
            .ite (redrawn_setfullscreen _ _ s) (.refl s)
          dsimp only
          generalize (if fullscreen then
              setfullscreen c (a = 1 || a = 2 && !(s.client c).isfullscreen) s else s) = u at hfull ⊢
          cases sticky with
          | false => exact hs.redrawn hfull
          | true =>
              have hsticky : (u.client c).issticky = (s.client c).issticky :=
                congrArg Seat.issticky (congrFun hfull.seat c)
              have hflip := (flipped_setsticky c
                (a = 1 || a = 2 && !(u.client c).issticky) u).after hfull
              rw [hfull.shownWith, hfull.relinked.tagsOf, hsticky] at hflip
              rw [if_pos rfl, hsticky]
              exact (hflip.shown_iff h hhere hs).mpr (hok c hc)
      | netActiveWindow =>
          dsimp only
          unfold activate
          dsimp only
          split
          · exact shown_focus _ _
          · exact hs
      | netWMDesktop data => exact (shown_setdesktop_iff h hhere hs data).mpr (hok c hc)
      | netCloseWindow => exact hs
      | other => exact hs

theorem Filed.shown_updatewindowtype {n : NetState} {b : Bool} (h : Filed lost base s)
    (hc : Here s c) (hs : Shown s) (hok : n = .sticky → Harmless c true s) :
    Shown (updatewindowtype c n b s) := by
  have hshow : s.shownWith c (s.tagsOf c) true = true := Bool.or_true _
  unfold updatewindowtype
  cases n with
  | fullscreen =>
      have hfull := hs.redrawn (redrawn_setfullscreen c true s)
      dsimp only
      split
      · exact hfull.redrawn (Redrawn.refl _).modClient
      · exact hfull
  | sticky =>
      have hsticky : Shown (setsticky c true s) := by
        refine (shown_setsticky_iff h hc hs true).mpr ?_
        rw [hshow]
        exact hok rfl
      dsimp only
      split
      · exact hsticky.redrawn (Redrawn.refl _).modClient
      · exact hsticky
  | other =>
      dsimp only
      split
      · exact hs.redrawn (Redrawn.refl _).modClient
      · exact hs

theorem Filed.shown_propertynotify (w : Window) (x : Property) (h : Filed lost base s)
    (hs : Shown s) (hok : Refocuses (.propertynotify w x) s) :
    Shown (Dwm.propertynotify w x s) := by
  unfold Dwm.propertynotify
  cases hc : s.wintoclient w with
  | none => exact hs
  | some c =>
      cases x with
      | transientFor p =>
          dsimp only
          split
          · exact hs.redrawn (Redrawn.refl s).modClient.arrange
          · exact hs
      | windowType n b =>
          refine h.shown_updatewindowtype (h.here_of_window hc) hs ?_
          rintro rfl
          exact hok c hc
      | motifHints b => exact hs.redrawn (redrawn_updatemotifhints _ b s)
      | other => exact hs

theorem shown_unmanage (c : ClientId) (s : State) : Shown (unmanage c s) := by
  unfold unmanage
  exact shown_refocus (Redrawn.refl _).arrange

theorem shown_destroynotify (w : Window) (hs : Shown s) : Shown (destroynotify w s) := by
  unfold destroynotify
  split
  · exact shown_unmanage _ s
  · exact hs

/-- **One event.**  The selection stands if the event refocuses where it has to. -/
theorem Filed.shown_step (e : Event) (h : Filed lost base s) (hs : Shown s)
    (hok : Refocuses e s) : Post (Dwm.step e s) Shown := by
  cases e with
  | buttonpress x wheel b d => exact h.shown_buttonpress x wheel b d hs
  | clientmessage w x => exact (post_ok _).mpr (h.shown_clientmessage w x hs hok)
  | configurenotify w k l => exact h.shown_configurenotify w k l hs hok
  | configurerequest w r => exact (post_ok _).mpr (hs.redrawn (redrawn_configurerequest w r s))
  | destroynotify w => exact (post_ok _).mpr (shown_destroynotify w hs)
  | keypress k cls =>
      change Post (keypress k cls s) _
      unfold keypress
      split
      · exact h.shown_runKey cls k hs hok
      · exact (post_ok _).mpr hs
  | maprequest c w i => exact shown_maprequest c w i hs
  | propertynotify w x => exact (post_ok _).mpr (h.shown_propertynotify w x hs hok)
  | unmapnotify w b =>
      refine (post_ok _).mpr ?_
      unfold unmapnotify
      split
      · exact hs
      · exact shown_destroynotify w hs

theorem shown_setup (d : Display) : Post (setup d) Shown := by
  unfold setup
  split
  · exact post_error _
  · exact (post_any _).bind fun r _ => (post_pure _).mpr (shown_focus _ _)

/-- **The selection.**  In every state of a run whose events refocus where they
have to, the first visible client of the stack is selected, and none exactly if
none is visible; stickiness and `_NET_WM_DESKTOP` keep that so exactly if the
change is harmless. -/
theorem selection_is_first_visible (h : Reachable Refocuses s) :
    s.sel = s.firstVisible s.selmon ∧
    (s.sel = none ↔ ∀ c, s.live c = true → s.own c = s.selmon → s.visible c = false) ∧
    ∀ c, Here s c →
      (∀ b, Shown (setsticky c b s) ↔ Harmless c (s.shownWith c (s.tagsOf c) b) s) ∧
      ∀ data, Shown (setdesktop c data s) ↔
        Harmless c (s.shownWith c (BitVec.ofInt 32 data) (s.client c).issticky) s := by
  have hfiled := filed_any h
  have hs : Shown s := h.invariant Shown shown_setup fun e u hreach hu hok =>
    (filed_any hreach).shown_step e hu hok
  exact ⟨hs, hfiled.sel_eq_none_iff hs, fun c hc => ⟨fun b => shown_setsticky_iff hfiled hc hs b,
    fun data => shown_setdesktop_iff hfiled hc hs data⟩⟩

/-- Two windows are mapped; the second one is selected, as the theorem says. -/
theorem selection_is_first_visible_two_windows : ∃ s : State, s.sel = some 1 ∧
    s.sel = s.firstVisible s.selmon := by
  obtain ⟨s, hs, hp⟩ := exists_of_passes
    (x := play oneScreen [.maprequest 0 10 plainWindow, .maprequest 1 11 plainWindow])
    (p := fun s => s.sel = some 1) (by decide +kernel)
  have hreach : Reachable Refocuses s := reachable_play_of hs fun e he t => by
    simp only [List.mem_cons, List.not_mem_nil, or_false] at he
    rcases he with rfl | rfl <;> trivial
  exact ⟨s, of_decide_eq_true hp, (selection_is_first_visible hreach).1⟩

/-- A window is mapped and sent off to tag 2; it is still selected. -/
theorem desktop_message_keeps_focus :
    ¬ ∀ s, Reachable Any s → s.sel = s.firstVisible s.selmon := by
  intro h
  obtain ⟨s, hs, hp⟩ := exists_of_passes
    (x := play oneScreen [.maprequest 0 10 plainWindow, .clientmessage 10 (.netWMDesktop 2)])
    (p := fun s => s.sel = some 0 ∧ s.firstVisible s.selmon = none) (by decide +kernel)
  obtain ⟨hsel, hfirst⟩ := of_decide_eq_true hp
  have hshown := h s (reachable_play hs)
  rw [hsel, hfirst] at hshown
  cases hshown

end Dwm
