import Zzdwm.Dwm.FocusCycle

/-!
# Going round the windows of a class

`focussame` collects the clients of the class into an array of 32 entries, and
it collects those on a tag in view, so that a sticky client on other tags is left
out.  The selected client is then looked for in the array by its window.

* `State.sameShown` — the visible clients of the class, which it is to go round;
* `Filed.sameclass_eq` — the array is the beginning of those on a tag in view;
* `focussame_cycles_iff` — when it goes round them nevertheless.
-/

namespace Dwm

open Machine Rounds

variable {lost base : ClientId → Prop} {s t : State} {c d e : ClientId}
  {cls : Window → Option String} {k : String} {i : Int}

/-- The visible clients of the class on the selected monitor, in the order of its
list. -/
def State.sameShown (cls : Window → Option String) (k : String) (s : State) : List ClientId :=
  s.shown.filter fun d => cls (s.client d).win = some k

/-- The first 32 of them that are on a tag in view. -/
def State.sameOnTags (cls : Window → Option String) (k : String) (s : State) : List ClientId :=
  ((s.sameShown cls k).filter fun d => (s.client d).tags &&& s.selM.tags ≠ 0#32).take 32

/-- The first of these whose window is that of `c`. -/
def State.found (cls : Window → Option String) (k : String) (c : ClientId) (s : State) :
    Option ClientId :=
  (s.sameOnTags cls k).find? fun d => (s.client d).win = (s.client c).win

/-! ## The array -/

/-- A client on a tag in view is visible. -/
theorem Filed.visible_of_onTag (h : Filed lost base s) (hd : d ∈ s.clientsOf s.selmon)
    (htag : (s.client d).tags &&& s.selM.tags ≠ 0#32) : s.visible d = true := by
  have hown : (s.client d).mon = s.selmon := (h.here_of_mem h.selmon hd).2
  have htag' : (s.client d).tags &&& (s.monOf d).tags ≠ 0#32 := by
    rw [State.monOf, hown]
    exact htag
  rw [State.visible, State.visibleOn, decide_eq_true htag', Bool.true_or]

/-- **The array** is the beginning of the part that is on a tag in view. -/
theorem Filed.sameclass_eq (h : Filed lost base s) : sameclass cls k s = s.sameOnTags cls k := by
  rw [sameclass, State.sameOnTags, State.sameShown, State.shown, List.filter_filter,
    List.filter_filter]
  refine congrArg (List.take 32) (List.filter_congr fun d hd => ?_)
  by_cases htag : (s.client d).tags &&& s.selM.tags ≠ 0#32
  · rw [h.visible_of_onTag hd htag, Bool.and_true]
  · rw [decide_eq_false htag, Bool.false_and, Bool.false_and]

theorem sameOnTags_sublist : (s.sameOnTags cls k).Sublist (s.sameShown cls k) :=
  (List.take_sublist _ _).trans List.filter_sublist

theorem Filed.nodup_sameShown (h : Filed lost base s) : (s.sameShown cls k).Nodup :=
  h.nodup_shown.filter _

/-- **The entries** that `focussame` takes: the neighbours in the array of the client
that the search finds, or else its ends. -/
theorem entries_cases {l : List ClientId} {p : ClientId → Bool} (hnd : l.Nodup) :
    (∃ e, ∃ he : e ∈ l, l.find? p = some e ∧
      l[((l.findIdx? p).map fun k => (k + 1) % l.length).getD 0]? = some (l.next e he) ∧
      l[((l.findIdx? p).map fun k => (k + l.length - 1) % l.length).getD (l.length - 1)]? =
        some (l.prev e he)) ∨
    (l.find? p = none ∧
      l[((l.findIdx? p).map fun k => (k + 1) % l.length).getD 0]? = l.head? ∧
      l[((l.findIdx? p).map fun k => (k + l.length - 1) % l.length).getD (l.length - 1)]? =
        l.getLast?) := by
  rw [List.find?_eq_bind_findIdx?_getElem?]
  cases hidx : l.findIdx? p with
  | none => exact Or.inr ⟨rfl, List.head?_eq_getElem?.symm, List.getLast?_eq_getElem?.symm⟩
  | some n =>
      obtain ⟨hn, -, -⟩ := List.findIdx?_eq_some_iff_getElem.mp hidx
      refine Or.inl ⟨l[n], List.getElem_mem hn, List.getElem?_eq_getElem hn, ?_, ?_⟩
      · rw [List.next_getElem l hnd, ← List.getElem?_eq_getElem]
        rfl
      · rw [List.prev_getElem l hnd, ← List.getElem?_eq_getElem, ← Nat.add_sub_assoc (by omega)]
        rfl

/-! ## One step -/

/-- What `focussame` does with the entry that it takes. -/
def focusEntry (o : Option ClientId) (s : State) : Except Fault State :=
  match o with
  | some d => .ok (focus (some d) s)
  | none => .error .unset

theorem focussame_up (hsel : s.sel = some c) (hcls : cls (s.client c).win = some k) :
    focussame cls 1 s = focusEntry (sameclass cls k s)[(((sameclass cls k s).findIdx? fun d =>
      (s.client d).win = (s.client c).win).map fun n => (n + 1) % (sameclass cls k s).length).getD 0]?
      s := by
  unfold focussame
  rw [hsel]
  dsimp only
  rw [hcls]
  dsimp only
  rw [if_pos rfl]
  generalize (sameclass cls k s)[(_ : Nat)]? = o
  cases o <;> rfl

theorem focussame_down (hsel : s.sel = some c) (hcls : cls (s.client c).win = some k) :
    focussame cls (-1) s = focusEntry (sameclass cls k s)[(((sameclass cls k s).findIdx? fun d =>
      (s.client d).win = (s.client c).win).map fun n =>
        (n + (sameclass cls k s).length - 1) % (sameclass cls k s).length).getD
        ((sameclass cls k s).length - 1)]? s := by
  unfold focussame
  rw [hsel]
  dsimp only
  rw [hcls]
  dsimp only
  rw [if_neg (by decide), if_pos rfl]
  generalize (sameclass cls k s)[(_ : Nat)]? = o
  cases o <;> rfl

/-- An entry that was filled is selected. -/
theorem Filed.focusEntry_iff (h : Filed lost base s) {l : List ClientId} {n : Nat}
    (hl : l.Sublist (s.sameShown cls k)) :
    (∃ t, focusEntry l[n]? s = .ok t ∧ t.sel = some d) ↔ l[n]? = some d := by
  cases ho : l[n]? with
  | none => exact iff_of_false (fun ⟨t, ht, _⟩ => by cases ht) (by simp)
  | some e =>
      have hmem : e ∈ s.shown := List.mem_of_mem_filter (hl.subset (List.mem_of_getElem? ho))
      have hsel := (h.turnTo hmem).2.2
      constructor
      · rintro ⟨t, ht, hd⟩
        cases ht
        rw [← hsel, hd]
      · intro hd
        exact ⟨_, rfl, hsel.trans hd⟩

/-! ## When it goes round -/

/-- `focussame` goes round the visible clients of the class, called on `c`. -/
structure CyclesSame (cls : Window → Option String) (k : String) (s : State) (c : ClientId) :
    Prop where
  shown : c ∈ s.sameShown cls k
  next : ∃ t, focussame cls 1 s = .ok t ∧ t.sel = some ((s.sameShown cls k).next c shown)
  prev : ∃ t, focussame cls (-1) s = .ok t ∧ t.sel = some ((s.sameShown cls k).prev c shown)

/-- Both neighbours of `c` are among the first 32 on a tag in view; and the first of
these with its window is `c` itself, or there is only one of them, or none has its
window and all are on one side of `c`. -/
structure Collected (cls : Window → Option String) (k : String) (s : State) (c : ClientId) :
    Prop where
  shown : c ∈ s.sameShown cls k
  next : (s.sameShown cls k).next c shown ∈ s.sameOnTags cls k
  prev : (s.sameShown cls k).prev c shown ∈ s.sameOnTags cls k
  found : s.found cls k c = some c ∨ (s.sameOnTags cls k).length = 1 ∨
    s.found cls k c = none ∧ OneSided (s.sameShown cls k) c (s.sameOnTags cls k)

/-- **When `focussame` goes round.** -/
theorem focussame_cycles_iff (h : Filed lost base s) (hsel : s.sel = some c)
    (hcls : cls (s.client c).win = some k) : CyclesSame cls k s c ↔ Collected cls k s c := by
  have hsub : (s.sameOnTags cls k).Sublist (s.sameShown cls k) := sameOnTags_sublist
  have hnd : (s.sameShown cls k).Nodup := h.nodup_sameShown
  have hrun : ∀ hc : c ∈ s.sameShown cls k, CyclesSame cls k s c ↔
      (∃ t, focussame cls 1 s = .ok t ∧ t.sel = some ((s.sameShown cls k).next c hc)) ∧
      ∃ t, focussame cls (-1) s = .ok t ∧ t.sel = some ((s.sameShown cls k).prev c hc) :=
    fun hc => ⟨fun hcyc => ⟨hcyc.next, hcyc.prev⟩, fun hcyc => ⟨hc, hcyc.1, hcyc.2⟩⟩
  by_cases hc : c ∈ s.sameShown cls k
  · rw [hrun hc, focussame_up hsel hcls, focussame_down hsel hcls, h.sameclass_eq,
      h.focusEntry_iff hsub, h.focusEntry_iff hsub]
    have hfind : s.found cls k c = (s.sameOnTags cls k).find? fun d =>
        (s.client d).win = (s.client c).win := rfl
    rcases entries_cases (p := fun d => (s.client d).win = (s.client c).win) (hsub.nodup hnd) with
      ⟨e, he, hf, hnext, hprev⟩ | ⟨hf, hnext, hprev⟩
    · rw [hnext, hprev, Option.some.injEq, Option.some.injEq]
      by_cases hec : e = c
      · subst hec
        rw [next_of_sublist hnd hsub he hc, prev_of_sublist hnd hsub he hc]
        exact ⟨fun hmem => ⟨hc, hmem.1, hmem.2, Or.inl (hfind.trans hf)⟩,
          fun hcol => ⟨hcol.next, hcol.prev⟩⟩
      · rw [neighbours_of_other hnd hsub hc he hec]
        refine ⟨fun hmem => ⟨hc, hmem.1, hmem.2.1, Or.inr (Or.inl hmem.2.2)⟩, fun hcol => ?_⟩
        refine ⟨hcol.next, hcol.prev, ?_⟩
        rcases hcol.found with hself | hone | ⟨hnone, -⟩
        · rw [hfind, hf] at hself
          exact absurd (Option.some.inj hself) hec
        · exact hone
        · rw [hfind, hf] at hnone
          cases hnone
    · have hnot : c ∉ s.sameOnTags cls k := fun hmem => by
        have := List.find?_eq_none.mp hf c hmem
        simp at this
      rw [hnext, hprev, ends_of_sublist hnd hsub hnot hc]
      refine ⟨fun hmem => ⟨hc, hmem.1, hmem.2.1, Or.inr (Or.inr ⟨hfind.trans hf, hmem.2.2⟩)⟩,
        fun hcol => ⟨hcol.next, hcol.prev, ?_⟩⟩
      rcases hcol.found with hself | hone | ⟨-, hside⟩
      · rw [hfind, hf] at hself
        cases hself
      · exact oneSided_of_length_one hsub hnot hone
      · exact hside
  · exact iff_of_false (fun hcyc => hc hcyc.shown) fun hcol => hc hcol.shown

/-- Two windows of a class, the second one selected. -/
theorem focussame_cycles_two : ∃ s, s.sel = some 1 ∧ CyclesSame (fun _ => some "st") "st" s 1 := by
  obtain ⟨s, hs, hp⟩ := exists_of_passes
    (x := play oneScreen [.maprequest 0 10 plainWindow, .maprequest 1 11 plainWindow])
    (p := fun s => s.sel = some 1 ∧ s.sameShown (fun _ => some "st") "st" = [1, 0] ∧
      s.sameOnTags (fun _ => some "st") "st" = [1, 0] ∧
      s.found (fun _ => some "st") "st" 1 = some 1) (by decide +kernel)
  obtain ⟨hsel, hshown, hon, hfound⟩ := of_decide_eq_true hp
  have hmem : 1 ∈ s.sameShown (fun _ => some "st") "st" := by
    rw [hshown]
    exact List.mem_cons_self
  refine ⟨s, hsel, (focussame_cycles_iff (filed_any (reachable_play hs)) hsel rfl).mpr
    ⟨hmem, ?_, ?_, Or.inl hfound⟩⟩
  · rw [hon, ← hshown]
    exact List.next_mem _ _ hmem
  · rw [hon, ← hshown]
    exact List.prev_mem _ _ hmem

/-- A sticky window is visible on another tag, but there the array stays empty and
the entry that is read was never written. -/
theorem focussame_reads_unset : ¬ ∀ s c cls k, Reachable Any s → s.sel = some c →
    s.visible c = true → cls (s.client c).win = some k → CyclesSame cls k s c := by
  intro h
  obtain ⟨s, hs, hp⟩ := exists_of_passes
    (x := play oneScreen [.maprequest 0 10 plainWindow, .press .togglesticky (.i 0),
      .press .view (.ui 2)])
    (p := fun s => s.sel = some 0 ∧ s.visible 0 ∧ sameclass (fun _ => some "st") "st" s = [])
    (by decide +kernel)
  obtain ⟨hsel, hvis, hempty⟩ := of_decide_eq_true hp
  have hcyc := h s 0 (fun _ => some "st") "st" (reachable_play hs) hsel hvis rfl
  obtain ⟨t, ht, -⟩ := hcyc.next
  rw [focussame_up hsel rfl, hempty] at ht
  cases ht

end Dwm
