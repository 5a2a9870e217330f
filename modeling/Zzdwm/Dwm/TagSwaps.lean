import Zzdwm.Dwm.ClientTags

/-!
# Swapping two tags

`swaptag` as the exchange of the tag in view with another one, on every client
of the selected monitor.

* `Exchanged i j t u` — the tag set `u` is `t` with the tags `i` and `j`
  exchanged;
* `exchanged_swapped_iff` — the one xor of the source is the exchange exactly
  on a set that has a tag, but not both of these two;
* `swaptag_exchanges_iff` — the command on the whole monitor.
-/

namespace Dwm

open Machine

variable {lost base : ClientId → Prop} {s : State} {t u v : TagSet} {i j : Nat} {a : TagSet}

/-! ## Exchanging two tags of a set -/

/-- `u` has `j` where `t` has `i`, `i` where `t` has `j`, and agrees with `t` on
all other tags. -/
structure Exchanged (i j : Nat) (t u : TagSet) : Prop where
  new : u.getLsbD j = t.getLsbD i
  cur : u.getLsbD i = t.getLsbD j
  rest : ∀ k, k ≠ i → k ≠ j → u.getLsbD k = t.getLsbD k

theorem Exchanged.back (h : Exchanged i j t u) : Exchanged j i u t :=
  ⟨h.new.symm, h.cur.symm, fun k hj hi => (h.rest k hi hj).symm⟩

/-- An exchange has only one outcome. -/
theorem Exchanged.unique (h : Exchanged i j t u) (h' : Exchanged i j t v) : u = v := by
  refine BitVec.eq_of_getLsbD_eq fun k _ => ?_
  by_cases hi : k = i
  · rw [hi, h.cur, h'.cur]
  · by_cases hj : k = j
    · rw [hj, h.new, h'.new]
    · rw [h.rest k hi hj, h'.rest k hi hj]

theorem exchanged_self (i : Nat) (t : TagSet) : Exchanged i i t t :=
  ⟨rfl, rfl, fun _ _ _ => rfl⟩

/-- The set has a tag, and not both `i` and `j`. -/
def OneOf (i j : Nat) (t : TagSet) : Prop :=
  t ≠ 0#32 ∧ ¬ (t.getLsbD i = true ∧ t.getLsbD j = true)

theorem Exchanged.oneOf (h : Exchanged i j t u) (ht : OneOf i j t) : OneOf j i u := by
  refine ⟨fun hu => ht.1 ?_, ?_⟩
  · have hz : Exchanged j i u 0#32 := ⟨by rw [hu]; simp, by rw [hu]; simp, by simp [hu]⟩
    exact h.back.unique hz
  · rintro ⟨hj, hi⟩
    exact ht.2 ⟨h.new ▸ hj, h.cur ▸ hi⟩

theorem getLsbD_tagBit {k : Nat} (hi : i < 32) : (tagBit i).getLsbD k = decide (i = k) := by
  by_cases hk : k < 32
  · have hall : ∀ i < 32, ∀ k < 32, (tagBit i).getLsbD k = decide (i = k) := by decide
    exact hall i hi k hk
  · rw [BitVec.getLsbD_of_ge _ _ (by omega), decide_eq_false (by omega)]

theorem and_tagBit_ne_zero (hi : i < 32) : t &&& tagBit i ≠ 0#32 ↔ t.getLsbD i = true := by
  refine ⟨tag_of_and_tagBit, fun ht => ne_zero_of_tag (i := i) ?_⟩
  rw [BitVec.getLsbD_and, ht, getLsbD_tagBit hi, decide_eq_true rfl]
  rfl

/-- One tag turns into the other under the xor. -/
theorem getLsbD_xor_tagBits (hi : i < 32) (hj : j < 32) (k : Nat) :
    (t ^^^ (tagBit i ^^^ tagBit j)).getLsbD k = (t.getLsbD k ^^ (decide (i = k) ^^ decide (j = k))) := by
  rw [BitVec.getLsbD_xor, BitVec.getLsbD_xor, getLsbD_tagBit hi, getLsbD_tagBit hj]

/-- A client with exactly one of two different tags. -/
theorem exchanged_xor (hi : i < 32) (hj : j < 32) (hij : i ≠ j)
    (hone : t.getLsbD j = !t.getLsbD i) : Exchanged i j t (t ^^^ (tagBit i ^^^ tagBit j)) where
  new := by
    rw [getLsbD_xor_tagBits hi hj, hone]
    simp [hij]
  cur := by
    rw [getLsbD_xor_tagBits hi hj, hone]
    simp [hij.symm]
  rest := by
    intro k hki hkj
    rw [getLsbD_xor_tagBits hi hj, decide_eq_false (Ne.symm hki), decide_eq_false (Ne.symm hkj)]
    simp

/-- **The xor of `swaptag`.**  It exchanges the two tags of a client unless the
client has both, or has no tag at all. -/
theorem exchanged_swapped_iff (hi : i < 32) (hj : j < 32) (hij : i ≠ j) :
    Exchanged i j t (swapped (tagBit i) (tagBit j) t) ↔ OneOf i j t := by
  unfold swapped
  simp only [and_tagBit_ne_zero hi, and_tagBit_ne_zero hj]
  cases hti : t.getLsbD i <;> cases htj : t.getLsbD j
  · -- neither tag: the set stays, or is filled in if it is empty
    have hor : ¬ (false = true ∨ false = true) := by simp
    rw [if_neg hor]
    by_cases ht : t = 0#32
    · rw [if_pos ht]
      refine ⟨fun h => absurd h.new ?_, fun h => absurd ht h.1⟩
      rw [getLsbD_tagBit hj, decide_eq_true rfl, hti]
      simp
    · rw [if_neg ht]
      exact ⟨fun _ => ⟨ht, by simp [hti]⟩, fun _ => ⟨by rw [hti, htj], by rw [hti, htj], fun _ _ _ => rfl⟩⟩
  · have hex := exchanged_xor (t := t) hi hj hij (by rw [hti, htj]; rfl)
    have hne : t ≠ 0#32 := ne_zero_of_tag htj
    have hone : OneOf i j t := ⟨hne, by simp [hti]⟩
    rw [if_pos (Or.inl rfl), if_neg (hex.oneOf hone).1]
    exact iff_of_true hex hone
  · have hex := exchanged_xor (t := t) hi hj hij (by rw [hti, htj]; rfl)
    have hne : t ≠ 0#32 := ne_zero_of_tag hti
    have hone : OneOf i j t := ⟨hne, by simp [htj]⟩
    rw [if_pos (Or.inr rfl), if_neg (hex.oneOf hone).1]
    exact iff_of_true hex hone
  · -- both tags: the xor takes both away
    rw [if_pos (Or.inl rfl)]
    refine iff_of_false (fun h => ?_) fun h => h.2 ⟨hti, htj⟩
    have hcur := h.cur
    rw [htj] at hcur
    split at hcur
    · rw [getLsbD_tagBit hj, decide_eq_true_eq] at hcur
      exact hij hcur.symm
    · rw [getLsbD_xor_tagBits hi hj, hti] at hcur
      simp [hij.symm] at hcur

/-! ## The command -/

/-- The loop of `swaptag` assigns to every client of a list once. -/
theorem tagsOf_swapLoop (f : TagSet → TagSet) (cs : List ClientId) (hnd : cs.Nodup) (s : State)
    (c : ClientId) :
    (cs.foldl (fun s c => s.modClient c fun k => { k with tags := f k.tags }) s).tagsOf c =
      if c ∈ cs then f (s.tagsOf c) else s.tagsOf c := by
  induction cs generalizing s with
  | nil => rfl
  | cons d ds ih =>
      obtain ⟨hd, hnd⟩ := List.nodup_cons.mp hnd
      rw [List.foldl_cons, ih hnd]
      by_cases hc : c = d
      · subst hc
        rw [if_neg hd, if_pos List.mem_cons_self, tagsOf_modClient_self]
        rfl
      · have hother : (s.modClient d fun k => { k with tags := f k.tags }).tagsOf c =
            s.tagsOf c := by
          simp [State.tagsOf, State.seat, State.modClient, hc]
        rw [hother]
        grind

/-- The early return of `swaptag`. -/
theorem swaptag_same (h : a &&& tagmask = s.selM.tags) : swaptag a s = s := by
  unfold swaptag
  exact if_pos (Or.inl h)

/-- What `swaptag` does between two tags, in terms of the parts it changes. -/
structure Swapped (i j : Nat) (s t : State) : Prop where
  tagsOf : ∀ c, t.tagsOf c =
    if c ∈ s.clientsOf s.selmon then swapped (tagBit i) (tagBit j) (s.tagsOf c) else s.tagsOf c
  selmon : t.selmon = s.selmon
  clientsOf : t.clientsOf = s.clientsOf
  view : t.selM.tags = tagBit j

theorem Filed.swapped (h : Filed lost base s) (hi : i < ntags) (hcur : s.selM.tags = tagBit i)
    (hnew : a &&& tagmask = tagBit j) (hij : tagBit j ≠ tagBit i) :
    Swapped i j s (swaptag a s) := by
  have hsingle : ∀ i < ntags, ¬ (tagBit i = 0#32 ∨ tagBit i &&& (tagBit i - 1#32) ≠ 0#32) := by
    decide
  have hguard : ¬ (tagBit j = tagBit i ∨ tagBit i = 0#32 ∨
      tagBit i &&& (tagBit i - 1#32) ≠ 0#32) := fun hor => hor.elim hij (hsingle i hi)
  unfold swaptag
  dsimp only
  rw [hcur, hnew, if_neg hguard]
  obtain ⟨outC, -, hinv⟩ := h.inv
  have hnd : (s.clientsOf s.selmon).Nodup := hinv.clients.nodup _ h.selmon
  have htags := tagsOf_swapLoop (Dwm.swapped (tagBit i) (tagBit j)) _ hnd s
  have hloop := unmoved_swapLoop s.selM.clients
    (fun k => { k with tags := Dwm.swapped (tagBit i) (tagBit j) k.tags }) s
  change ∀ c, (s.selM.clients.foldl _ s).tagsOf c = _ at htags
  generalize s.selM.clients.foldl _ s = u at htags hloop ⊢
  have hfiled : Filed lost base (u.modSettings u.selmon (Settings.setTags (tagBit j))) :=
    (h.unmoved hloop).unmoved (unmoved_modSettings _ _ _)
  have hlink := (relinked_focus none (u.modSettings u.selmon (Settings.setTags (tagBit j)))).redraw
    (Redrawn.refl _).arrangesel
  have hsel := ((Redrawn.refl _).arrangesel.selmon.trans hfiled.selmon_focusNone).trans hloop.selmon
  refine ⟨fun c => ?_, hsel, ?_, ?_⟩
  · rw [hlink.tagsOf]
    exact htags c
  · rw [(Redrawn.refl _).arrangesel.unmoved.clientsOf, clientsOf_focus,
      (unmoved_modSettings _ _ _).clientsOf, hloop.clientsOf]
  · change (State.settings _ (State.selmon _)).tags = _
    rw [hsel, hlink.settings, settings_modSettings, hloop.selmon, Function.update_self]
    exact Function.update_self ..

/-- Every client of the selected monitor has a tag, but not both `i` and `j`. -/
def NoneOnBoth (i j : Nat) (s : State) : Prop :=
  ∀ c ∈ s.clientsOf s.selmon, OneOf i j (s.tagsOf c)

/-- `swaptag` with the tag `j` exchanges it with the tag `i` in view on every
client of the monitor, and `swaptag` with the tag `i` takes that back. -/
structure Exchanges (i j : Nat) (a : TagSet) (s : State) : Prop where
  exchanged : ∀ c ∈ s.clientsOf s.selmon, Exchanged i j (s.tagsOf c) ((swaptag a s).tagsOf c)
  restored : (swaptag (tagBit i) (swaptag a s)).tagsOf = s.tagsOf
  view : (swaptag (tagBit i) (swaptag a s)).selM.tags = s.selM.tags

theorem tagBit_inj (hi : i < 32) (h : tagBit j = tagBit i) : i = j := by
  have hbit := getLsbD_tagBit (i := i) (k := i) hi
  rw [← h, decide_eq_true rfl] at hbit
  by_contra hij
  by_cases hj : j < 32
  · rw [getLsbD_tagBit hj, decide_eq_true_eq] at hbit
    exact hij hbit.symm
  · have hz : tagBit j = 0#32 := BitVec.shiftLeft_eq_zero (by omega)
    rw [hz] at hbit
    simp at hbit

/-- Swapping there and back on a monitor where no client has both tags. -/
theorem Swapped.exchanges {t u : State} (hi : i < 32) (hj : j < 32) (hij : i ≠ j)
    (hone : NoneOnBoth i j s) (hst : Swapped i j s t) (htu : Swapped j i t u) :
    (∀ c ∈ s.clientsOf s.selmon, Exchanged i j (s.tagsOf c) (t.tagsOf c)) ∧
      u.tagsOf = s.tagsOf := by
  have hthere : ∀ c ∈ s.clientsOf s.selmon, Exchanged i j (s.tagsOf c) (t.tagsOf c) := by
    intro c hc
    rw [hst.tagsOf, if_pos hc]
    exact (exchanged_swapped_iff hi hj hij).mpr (hone c hc)
  refine ⟨hthere, funext fun c => ?_⟩
  rw [htu.tagsOf, hst.clientsOf, hst.selmon]
  by_cases hc : c ∈ s.clientsOf s.selmon
  · rw [if_pos hc]
    have hback := (exchanged_swapped_iff hj hi hij.symm).mpr ((hthere c hc).oneOf (hone c hc))
    exact hback.unique (hthere c hc).back
  · rw [if_neg hc, hst.tagsOf, if_neg hc]

/-- **When `swaptag` swaps.**  While a single tag is in view, `swaptag` to a tag
exchanges the two on every client of the monitor, and can be taken back, exactly
if the tag is in view already or every client has some tag, but not both. -/
theorem swaptag_exchanges_iff (h : Filed lost base s) (hi : i < ntags) (hj : j < ntags)
    (hcur : s.selM.tags = tagBit i) (hnew : a &&& tagmask = tagBit j) :
    Exchanges i j a s ↔ i = j ∨ NoneOnBoth i j s := by
  have hmask : ∀ i < ntags, tagBit i &&& tagmask = tagBit i := by decide
  have hi32 : i < 32 := Nat.lt_trans hi (by decide)
  have hj32 : j < 32 := Nat.lt_trans hj (by decide)
  by_cases hij : i = j
  · subst hij
    have hsame : swaptag a s = s := swaptag_same (hnew.trans hcur.symm)
    have hback : swaptag (tagBit i) s = s := swaptag_same ((hmask i hi).trans hcur.symm)
    refine iff_of_true ⟨?_, ?_, ?_⟩ (Or.inl rfl)
    · intro c _
      rw [hsame]
      exact exchanged_self i _
    · rw [hsame, hback]
    · rw [hsame, hback]
  · have hne : tagBit j ≠ tagBit i := fun heq => hij (tagBit_inj hi32 heq)
    have hst := h.swapped hi hcur hnew hne
    have htu := (h.swaptag a).swapped hj hst.view (hmask i hi) hne.symm
    refine ⟨fun hex => Or.inr fun c hc => ?_, ?_⟩
    · have hthere := hex.exchanged c hc
      rw [hst.tagsOf, if_pos hc] at hthere
      exact (exchanged_swapped_iff hi32 hj32 hij).mp hthere
    · rintro (heq | hone)
      · exact absurd heq hij
      · obtain ⟨hthere, hback⟩ := hst.exchanges hi32 hj32 hij hone htu
        exact ⟨hthere, hback, htu.view.trans hcur.symm⟩

/-- A window on tag 1, which is in view, goes to tag 2 and back. -/
theorem swaptag_exchanges_one_window : ∃ s, s.live 0 = true ∧ Exchanges 0 1 (tagBit 1) s := by
  obtain ⟨s, hs, hp⟩ := exists_of_passes
    (x := play oneScreen [.maprequest 0 10 plainWindow])
    (p := fun s => s.live 0 ∧ s.selM.tags = tagBit 0 ∧ s.clientsOf s.selmon = [0] ∧
      s.tagsOf 0 = tagBit 0) (by decide +kernel)
  obtain ⟨hlive, hcur, hclients, htags⟩ := of_decide_eq_true hp
  refine ⟨s, hlive, (swaptag_exchanges_iff (filed_any (reachable_play hs)) (by decide) (by decide)
    hcur (by decide)).mpr (Or.inr fun c hc => ?_)⟩
  rw [hclients, List.mem_singleton] at hc
  rw [hc, htags]
  exact ⟨by decide, by decide⟩

/-- A window is mapped on tag 1 and put on tag 2 as well.  Swapping with tag 2
takes tag 1 from it. -/
theorem swaptag_takes_tag : ¬ ∀ s i j a, Reachable Any s → i < ntags → j < ntags →
    s.selM.tags = tagBit i → a &&& tagmask = tagBit j → Exchanges i j a s := by
  intro h
  obtain ⟨s, hs, hp⟩ := exists_of_passes
    (x := play oneScreen [.maprequest 0 10 plainWindow, .press .toggletag (.ui (tagBit 1))])
    (p := fun s => s.selM.tags = tagBit 0 ∧ 0 ∈ s.clientsOf s.selmon ∧ s.tagsOf 0 = 3#32 ∧
      (swaptag (tagBit 1) s).tagsOf 0 = tagBit 1) (by decide +kernel)
  obtain ⟨hcur, hmem, htags, hswap⟩ := of_decide_eq_true hp
  have hex := (h s 0 1 (tagBit 1) (reachable_play hs) (by decide) (by decide) hcur
    (by decide)).exchanged 0 hmem
  rw [htags, hswap] at hex
  exact absurd hex.cur (by decide)

end Dwm
