import Zzdwm.Dwm.Selection
import Zzdwm.Dwm.TagSets

/-!
# Commands without a selected client

With no client in view `selmon->sel` is `NULL`.  A few commands read it all the
same: they guard it with a short circuit whose first operand an arranging layout
makes false, guard it on one branch and read it on the other, or do not guard
it.  `tag` reads it a second time, after the selected client has moved to
another tag, and is safe: `view` brings the client back.

* `DerefsSel` — the commands that read it, and where;
* `theSel_tag` — the second read of `tag`;
* `null_selection_iff` — a command dereferences `NULL` exactly then.
-/

namespace Dwm

open Machine

variable {lost base : ClientId → Prop} {s : State} {c : ClientId}

/-- The commands that read `selmon->sel` without a guard that covers it. -/
def DerefsSel (k : Binding) (s : State) : Prop :=
  match k.1 with
  | .incnmaster => s.arranges = true
  | .setmfact | .setsmfact | .setwfact | .sethfact => True
  | .fmaximize => k.2.tags.toNat = 1 ∨ k.2.tags.toNat = 2
  | .fsnap => k.2.tags.toNat < 4
  | _ => False

/-- The computation does not dereference a null selection. -/
def NullSafe {A : Type} (x : Except Fault A) : Prop := x ≠ .error .nullSel

@[simp] theorem nullSafe_ok {A : Type} (a : A) : NullSafe (.ok a) := nofun

@[simp] theorem nullSafe_pure {A : Type} (a : A) : NullSafe (pure a) := nullSafe_ok a

@[simp] theorem nullSafe_error {A : Type} (f : Fault) :
    NullSafe (.error f : Except Fault A) ↔ f ≠ .nullSel :=
  not_congr ⟨Except.error.inj, congrArg _⟩

/-- A sequence is safe exactly if its first part is, when the rest always is. -/
theorem nullSafe_bind {A B : Type} {x : Except Fault A} {k : A → Except Fault B}
    (hk : ∀ a, NullSafe (k a)) : NullSafe (x >>= k) ↔ NullSafe x := by
  cases x with
  | error f => exact (nullSafe_error f).trans (nullSafe_error f).symm
  | ok a => exact iff_of_true (hk a) (nullSafe_ok a)

theorem nullSafe_theSel : NullSafe s.theSel ↔ s.sel ≠ none := by
  unfold State.theSel
  cases hsel : s.sel <;> simp

/-- The short circuit reads the selection exactly in an arranging layout. -/
theorem nullSafe_selfloats : NullSafe s.selfloats ↔ s.sel ≠ none ∨ s.arranges = false := by
  unfold State.selfloats
  split
  · rename_i harr
    rw [nullSafe_bind fun _ => nullSafe_pure _, nullSafe_theSel]
    simp [harr]
  · rename_i harr
    simpa using Or.inr harr

/-! ## The commands that may read `NULL` -/

theorem nullSafe_incnmaster (i : Int) (s : State) :
    NullSafe (incnmaster i s) ↔ s.sel ≠ none ∨ s.arranges = false := by
  unfold incnmaster
  rw [nullSafe_bind fun b => by cases b <;> exact nullSafe_pure _]
  exact nullSafe_selfloats

/-- Either operand of the short circuit leads to a read. -/
theorem nullSafe_floats {x y : Except Fault State} {f : ClientId → Except Fault State}
    (hf : ∀ c, NullSafe (f c)) (hy : NullSafe y)
    (hx : x = s.selfloats >>= fun b => if b then s.theSel >>= f else y) :
    NullSafe x ↔ s.sel ≠ none := by
  subst hx
  by_cases hsel : s.sel = none
  · refine iff_of_false (fun h => ?_) (not_not_intro hsel)
    have hread : s.theSel = .error .nullSel := by rw [State.theSel, hsel]
    by_cases harr : s.arranges = true
    · rw [State.selfloats, if_pos harr, hread] at h
      exact h rfl
    · rw [State.selfloats, if_neg harr] at h
      change NullSafe (s.theSel >>= f) at h
      rw [hread] at h
      exact h rfl
  · refine iff_of_true ?_ hsel
    refine (nullSafe_bind fun b => ?_).mpr (nullSafe_selfloats.mpr (Or.inl hsel))
    cases b with
    | false => exact hy
    | true => exact (nullSafe_bind hf).mpr (nullSafe_theSel.mpr hsel)

theorem nullSafe_setfact (move : ClientId → State → State) (set : Settings → Option Settings)
    (s : State) : NullSafe (setfact move set s) ↔ s.sel ≠ none := by
  unfold setfact
  refine nullSafe_floats (fun c => nullSafe_pure _) ?_ rfl
  split <;> exact nullSafe_pure _

theorem nullSafe_setmfact (arg : Rat) (s : State) : NullSafe (setmfact arg s) ↔ s.sel ≠ none := by
  unfold setmfact
  exact nullSafe_setfact _ _ s

theorem nullSafe_setsmfact (arg : Rat) (s : State) :
    NullSafe (setsmfact arg s) ↔ s.sel ≠ none := by
  unfold setsmfact
  exact nullSafe_setfact _ _ s

theorem nullSafe_setsize (r : Rat → State → Rect → Rect) (arg : Rat) (s : State) :
    NullSafe (setsize r arg s) ↔ s.sel ≠ none :=
  nullSafe_floats (fun _ => nullSafe_pure _) (nullSafe_pure _) rfl

theorem nullSafe_setwfact (arg : Rat) (s : State) : NullSafe (setwfact arg s) ↔ s.sel ≠ none := by
  unfold setwfact
  exact nullSafe_setsize _ arg s

theorem nullSafe_sethfact (arg : Rat) (s : State) : NullSafe (sethfact arg s) ↔ s.sel ≠ none := by
  unfold sethfact
  exact nullSafe_setsize _ arg s

theorem nullSafe_fmaximize (a : TagSet) (s : State) :
    NullSafe (fmaximize a s) ↔ s.sel ≠ none ∨ ¬ (a.toNat = 1 ∨ a.toNat = 2) := by
  unfold fmaximize
  dsimp only
  split
  · rename_i ha
    simp [ha]
  · rename_i ha
    rw [nullSafe_bind fun _ => nullSafe_pure _, nullSafe_theSel]
    simp [ha]
  · rename_i ha
    rw [nullSafe_bind fun _ => nullSafe_pure _, nullSafe_theSel]
    simp [ha]
  · rename_i h₁ h₂
    exact iff_of_true (nullSafe_pure _) (Or.inr (not_or.mpr ⟨h₁, h₂⟩))

theorem nullSafe_fsnap (a : TagSet) (s : State) :
    NullSafe (fsnap a s) ↔ s.sel ≠ none ∨ ¬ a.toNat < 4 := by
  unfold fsnap
  dsimp only
  split
  case h_5 h₀ h₁ h₂ h₃ =>
    have hbound : ¬ a.toNat < 4 := by
      intro hlt
      have hcases : a.toNat = 0 ∨ a.toNat = 1 ∨ a.toNat = 2 ∨ a.toNat = 3 := by omega
      rcases hcases with h | h | h | h
      · exact h₀ h
      · exact h₁ h
      · exact h₂ h
      · exact h₃ h
    exact iff_of_true (nullSafe_pure _) (Or.inr hbound)
  all_goals
    rename_i ha
    rw [nullSafe_bind fun _ => nullSafe_pure _, nullSafe_theSel]
    simp [ha]

/-! ## The commands that never do -/

theorem nullSafe_shiftviewclients (i : Int) (s : State) : NullSafe (shiftviewclients i s) := by
  unfold shiftviewclients
  split <;> simp

theorem nullSafe_focusmaster (s : State) : NullSafe (focusmaster s) := by
  unfold focusmaster
  repeat' first
    | exact nullSafe_ok _
    | exact (nullSafe_error _).mpr nofun
    | split
    | dsimp only

theorem nullSafe_focusstack (i : Int) (s : State) : NullSafe (focusstack i s) := by
  have hneighbour : ∀ c, NullSafe (stackNeighbour i c s) := by
    intro c
    unfold stackNeighbour
    dsimp only
    split
    · exact nullSafe_ok _
    · split
      · exact nullSafe_ok _
      · exact (nullSafe_error _).mpr nofun
  unfold focusstack
  split
  · split
    · exact nullSafe_ok _
    · refine (nullSafe_bind fun o => ?_).mpr (hneighbour _)
      cases o <;> exact nullSafe_pure _
  · exact nullSafe_ok _

theorem nullSafe_focussame (cls : Window → Option String) (i : Int) (s : State) :
    NullSafe (focussame cls i s) := by
  unfold focussame
  split
  · split
    · dsimp only
      split
      · exact nullSafe_ok _
      · split
        · exact (nullSafe_error _).mpr nofun
        · exact nullSafe_ok _
    · exact nullSafe_ok _
  · exact nullSafe_ok _

theorem nullSafe_swapfocus (s : State) : NullSafe (swapfocus s) := by
  unfold swapfocus
  split
  · split
    · exact nullSafe_ok _
    · exact nullSafe_focusstack (-1) s
  · exact nullSafe_ok _

/-! ## The second read of `tag` -/

theorem Settings.tags_view {a : TagSet} (h : a &&& tagmask ≠ 0#32) (m : Settings) :
    (m.view a).tags = a &&& tagmask := by
  unfold Settings.view
  rw [if_pos h]
  exact Function.update_self ..

/-- A client of the selected monitor that is on a tag in view is selected, or
another one is. -/
theorem Filed.selects (h : Filed lost base s) (hshown : Shown s) (hc : s.live c = true)
    (hown : s.own c = s.selmon) (htags : s.tagsOf c &&& (s.settings s.selmon).tags ≠ 0#32) :
    s.sel ≠ none := by
  intro hsel
  have hhidden := (h.sel_eq_none_iff hshown).mp hsel c hc hown
  have hseat : (s.seat c).mon = s.selmon := hown
  rw [State.visible_eq, hseat, Bool.or_eq_false_iff] at hhidden
  exact (of_decide_eq_false hhidden.1) htags

/-- Refocus and rearrange: the client that was looked at stays where it is. -/
theorem Filed.refocused {u : State} (h : Filed lost base u) (hc : u.live c = true)
    (hown : u.own c = u.selmon) :
    (arrangesel (focus none u)).live c = true ∧
      (arrangesel (focus none u)).own c = (arrangesel (focus none u)).selmon := by
  have hlinked := (relinked_focus none u).redraw (Redrawn.refl _).arrangesel
  have hselmon : (arrangesel (focus none u)).selmon = u.selmon := h.selmon_focusNone
  rw [hlinked.live, hlinked.own, hselmon]
  exact ⟨hc, hown⟩

/-- Retag a client, refocus and rearrange, as `tag` does. -/
def retag (c : ClientId) (t : TagSet) (s : State) : State :=
  arrangesel (focus none (s.modClient c fun k => { k with tags := t }))

theorem tagsOf_retag (c : ClientId) (t : TagSet) (s : State) : (retag c t s).tagsOf c = t := by
  have hlinked := (relinked_focus none (s.modClient c fun k => { k with tags := t })).redraw
    (Redrawn.refl _).arrangesel
  rw [retag, State.tagsOf, hlinked.seat]
  exact tagsOf_modClient_self c _ s

theorem settings_retag (c : ClientId) (t : TagSet) (s : State) :
    (retag c t s).settings = s.settings :=
  ((relinked_focus none _).redraw (Redrawn.refl _).arrangesel).settings

/-- A client on the selected monitor whose tags `view` turns to is in view then. -/
theorem Filed.selects_view {a : TagSet} (h : Filed lost base s) (hshown : Shown s)
    (hc : s.live c = true) (hown : s.own c = s.selmon) (htags : s.tagsOf c = a &&& tagmask)
    (ha : a &&& tagmask ≠ 0#32) : (view a s).sel ≠ none := by
  unfold view
  split
  · rename_i hsame
    refine h.selects hshown hc hown ?_
    change _ &&& s.selM.tags ≠ 0#32
    rw [htags, ← hsame, BitVec.and_self]
    exact ha
  · have hset : Filed lost base (s.modSettings s.selmon (Settings.view a)) :=
      h.unmoved (unmoved_modSettings _ _ s)
    obtain ⟨hlive', hown'⟩ := hset.refocused (c := c) hc hown
    have hlinked := (relinked_focus none (s.modSettings s.selmon (Settings.view a))).redraw
      (Redrawn.refl _).arrangesel
    have hselmon : (arrangesel (focus none
        (s.modSettings s.selmon (Settings.view a)))).selmon = s.selmon := hset.selmon_focusNone
    refine (h.refocus (Settings.view a)).selects (shown_refocus (Redrawn.refl _).arrangesel)
      hlive' hown' ?_
    rw [State.tagsOf, hlinked.seat, settings_refocus, hselmon, Function.update_self,
      Settings.tags_view ha]
    change s.tagsOf c &&& _ ≠ 0#32
    rw [htags, BitVec.and_self]
    exact ha

/-- **`tag`** finds a selected client when it is done: either the view follows
the client to its new tags, or it has all tags and stays in view. -/
theorem nullSafe_tag (a : TagSet) (h : Filed lost base s) (hview : ∀ m, (s.settings m).Viewing) :
    NullSafe (tag a s) := by
  unfold tag
  split
  · rename_i c hsel
    split
    · rename_i ha
      dsimp only
      rw [nullSafe_bind fun _ => nullSafe_pure _, nullSafe_theSel]
      change (if viewontag ∧ a &&& tagmask ≠ tagmask
        then view a (retag c (a &&& tagmask) s) else retag c (a &&& tagmask) s).sel ≠ none
      obtain ⟨hhere, hown⟩ := h.here_of_sel hsel
      have hmoved : Unmoved s (s.modClient c fun k => { k with tags := a &&& tagmask }) :=
        (Unmoved.refl s).modClient
      obtain ⟨hlive', hown'⟩ := (h.unmoved hmoved).refocused (c := c)
        (hmoved.live ▸ hhere.1) (hmoved.own ▸ hown)
      have hret : Filed lost base (retag c (a &&& tagmask) s) := h.retag _
      have hshown : Shown (retag c (a &&& tagmask) s) := shown_refocus (Redrawn.refl _).arrangesel
      split
      · exact hret.selects_view hshown hlive' hown' (tagsOf_retag c _ s) ha
      · rename_i hall
        have hfull : a &&& tagmask = tagmask := by
          by_contra hne
          exact hall ⟨rfl, hne⟩
        refine hret.selects hshown hlive' hown' ?_
        have hproper := hview (retag c (a &&& tagmask) s).selmon
          (s.settings (retag c (a &&& tagmask) s).selmon).seltags
        rw [tagsOf_retag, settings_retag, hfull, BitVec.and_comm]
        rw [hfull] at hproper
        exact hproper.2.trans_ne hproper.1
    · exact nullSafe_ok _
  · exact nullSafe_ok _

/-- Every command of the keyboard, bound or not. -/
theorem Filed.nullSafe_runKey (cls : Window → Option String) (k : Binding)
    (h : Filed lost base s) (hview : ∀ m, (s.settings m).Viewing) :
    NullSafe (runKey cls k s) ↔ s.sel ≠ none ∨ ¬ DerefsSel k s := by
  obtain ⟨f, a⟩ := k
  cases f with
  | incnmaster =>
      refine (nullSafe_incnmaster _ s).trans (or_congr_right ?_)
      exact (Bool.not_eq_true _).symm.to_iff
  | setmfact => exact (nullSafe_setmfact _ s).trans (by simp [DerefsSel])
  | setsmfact => exact (nullSafe_setsmfact _ s).trans (by simp [DerefsSel])
  | setwfact => exact (nullSafe_setwfact _ s).trans (by simp [DerefsSel])
  | sethfact => exact (nullSafe_sethfact _ s).trans (by simp [DerefsSel])
  | fmaximize => exact nullSafe_fmaximize _ s
  | fsnap => exact nullSafe_fsnap _ s
  | shiftviewclients => exact iff_of_true (nullSafe_shiftviewclients _ s) (Or.inr id)
  | focusmaster => exact iff_of_true (nullSafe_focusmaster s) (Or.inr id)
  | focusstack => exact iff_of_true (nullSafe_focusstack _ s) (Or.inr id)
  | focussame => exact iff_of_true (nullSafe_focussame cls _ s) (Or.inr id)
  | swapfocus => exact iff_of_true (nullSafe_swapfocus s) (Or.inr id)
  | tag => exact iff_of_true (nullSafe_tag _ h hview) (Or.inr id)
  | _ => exact iff_of_true (nullSafe_ok _) (Or.inr id)

/-- **Null selections.**  In every reachable state, a bound command dereferences
no null selection exactly if a client is selected or it is none of those that
read the selection unguarded; and all bound commands are safe exactly if a client
is selected. -/
theorem null_selection_iff (h : Reachable Any s) :
    (∀ cls, ∀ k ∈ keys, NullSafe (runKey cls k s) ↔ s.sel ≠ none ∨ ¬ DerefsSel k s) ∧
    ((∀ cls, ∀ k ∈ keys, NullSafe (runKey cls k s)) ↔ s.sel ≠ none) := by
  have hsafe := fun cls k =>
    (filed_any h).nullSafe_runKey cls k (viewing_of_reachable h)
  refine ⟨fun cls k _ => hsafe cls k, fun hall => ?_, fun hsel cls k _ =>
    (hsafe cls k).mpr (Or.inl hsel)⟩
  have hbound : (.setmfact, .f (5 / 100)) ∈ keys := by decide +kernel
  exact ((hsafe (fun _ => none) _).mp (hall _ _ hbound)).resolve_right (not_not_intro trivial)

/-- With a window on the screen every bound command is safe. -/
theorem null_selection_iff_one_window : ∃ s : State, s.sel = some 0 ∧
    ∀ cls, ∀ k ∈ keys, NullSafe (runKey cls k s) := by
  obtain ⟨s, hs, hp⟩ := exists_of_passes
    (x := play oneScreen [.maprequest 0 10 plainWindow])
    (p := fun s => s.sel = some 0) (by decide +kernel)
  have hsel : s.sel = some 0 := of_decide_eq_true hp
  refine ⟨s, hsel, (null_selection_iff (reachable_play hs)).2.mpr ?_⟩
  rw [hsel]
  exact nofun

/-- On the empty screen that dwm starts with, `incnmaster` reads through `NULL`. -/
theorem incnmaster_reads_null :
    ¬ ∀ s, Reachable Any s → ∀ cls, ∀ k ∈ keys, NullSafe (runKey cls k s) := by
  intro h
  obtain ⟨s, hs, hp⟩ := exists_of_passes (x := play oneScreen [])
    (p := fun s => s.sel = none ∧ s.arranges = true) (by decide)
  obtain ⟨hsel, harr⟩ := of_decide_eq_true hp
  have hbound : (.incnmaster, .i 1) ∈ keys := by decide
  have hsafe := h s (reachable_play hs) (fun _ => none) _ hbound
  rcases (nullSafe_incnmaster 1 s).mp hsafe with hne | hflat
  · exact hne hsel
  · rw [harr] at hflat
    cases hflat

end Dwm
