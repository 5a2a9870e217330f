import Zzdwm.Dwm.Setters

/-!
# The tag sets in view

What `lowestTag` finds, and the invariant that both tag sets of a monitor are
proper in every run: a view always shows something, and only tags that exist.

* `lowestTag_spec` — the least tag of a non-empty set;
* `eventSetter_legal` — the tag sets that commands compute are not empty;
* `proper_of_reachable` — tag sets are proper, whatever the events.
-/

namespace Dwm

open Machine

variable {s : State} {m : MonId} {k : Settings} {σ : Setter} {e : Event}

/-! ## Bits -/

theorem getLsbD_tagmask (i : Nat) : tagmask.getLsbD i = decide (i < ntags) := by
  by_cases hi : i < 32
  · have hall : ∀ i < 32, tagmask.getLsbD i = decide (i < ntags) := by decide
    exact hall i hi
  · rw [BitVec.getLsbD_of_ge _ _ (Nat.le_of_not_lt hi)]
    have hn : ¬ i < ntags := fun h => hi (Nat.lt_trans h (by decide))
    rw [decide_eq_false hn]

/-- A set that is not empty has a tag. -/
theorem exists_tag {t : TagSet} (h : t ≠ 0#32) : ∃ i < 32, t.getLsbD i = true := by
  by_contra hnone
  refine h (BitVec.eq_of_getLsbD_eq fun i hi => ?_)
  rw [BitVec.getLsbD_zero]
  by_contra hbit
  exact hnone ⟨i, hi, by simpa using hbit⟩

theorem ne_zero_of_tag {t : TagSet} {i : Nat} (h : t.getLsbD i = true) : t ≠ 0#32 := by
  rintro rfl
  simp at h

/-- `lowestTag` finds a tag, and none is lower. -/
theorem lowestTag_spec {t : TagSet} (h : t ≠ 0#32) :
    t.getLsbD (lowestTag t) = true ∧ ∀ i, t.getLsbD i = true → lowestTag t ≤ i := by
  obtain ⟨i, hi, hbit⟩ := exists_tag h
  unfold lowestTag
  cases hfind : (List.range 32).find? fun i => t.getLsbD i with
  | none =>
      rw [List.find?_range_eq_none] at hfind
      have := hfind i hi
      rw [hbit] at this
      cases this
  | some l =>
      rw [List.find?_range_eq_some] at hfind
      refine ⟨hfind.1, fun j hj => ?_⟩
      by_contra hlt
      have := hfind.2.2 j (Nat.lt_of_not_le hlt)
      rw [hj] at this
      cases this

/-- `t & 1 << i`. -/
theorem tag_of_and_tagBit {t : TagSet} {i : Nat} (h : t &&& tagBit i ≠ 0#32) :
    t.getLsbD i = true := by
  obtain ⟨j, hj, hbit⟩ := exists_tag h
  rw [BitVec.getLsbD_and, Bool.and_eq_true, tagBit, BitVec.getLsbD_shiftLeft] at hbit
  obtain ⟨ht, hone⟩ := hbit
  have heq : i = j := by
    simp only [Bool.and_eq_true, Bool.not_eq_true', decide_eq_false_iff_not] at hone
    have hlsb := hone.2
    rw [BitVec.getLsbD_one, Bool.and_eq_true, decide_eq_true_eq, decide_eq_true_eq] at hlsb
    omega
  exact heq ▸ ht

theorem Proper.lt {t : TagSet} (h : Proper t) {i : Nat} (hi : t.getLsbD i = true) : i < ntags := by
  rw [← h.2, BitVec.getLsbD_and, getLsbD_tagmask, Bool.and_eq_true] at hi
  exact of_decide_eq_true hi.2

theorem proper_mask {t : TagSet} (h : t &&& tagmask ≠ 0#32) : Proper (t &&& tagmask) :=
  ⟨h, by rw [BitVec.and_assoc, BitVec.and_self]⟩

theorem Proper.xor {t : TagSet} (h : Proper t) (a : TagSet) (hne : t ^^^ (a &&& tagmask) ≠ 0#32) :
    Proper (t ^^^ (a &&& tagmask)) := by
  refine ⟨hne, BitVec.eq_of_getLsbD_eq fun i _ => ?_⟩
  have hbit : (t.getLsbD i && tagmask.getLsbD i) = t.getLsbD i := by
    rw [← BitVec.getLsbD_and, h.2]
  simp only [BitVec.getLsbD_and, BitVec.getLsbD_xor]
  rw [← hbit]
  cases t.getLsbD i <;> cases a.getLsbD i <;> cases tagmask.getLsbD i <;> rfl

/-- The lowest tag that exists is the lowest of all if there is one. -/
theorem lowestTag_mask {a : TagSet} (h : a &&& tagmask ≠ 0#32) :
    (a &&& tagmask).getLsbD (lowestTag a) = true := by
  obtain ⟨i, -, hi⟩ := exists_tag h
  rw [BitVec.getLsbD_and, Bool.and_eq_true] at hi
  obtain ⟨hlow, hleast⟩ := lowestTag_spec (ne_zero_of_tag hi.1)
  have hlt : i < ntags := by
    simpa [getLsbD_tagmask] using hi.2
  rw [BitVec.getLsbD_and, hlow, getLsbD_tagmask, Bool.true_and, decide_eq_true_eq]
  exact Nat.lt_of_le_of_lt (hleast i hi.1) hlt

/-! ## Tag sets of a monitor -/

/-- The tag sets that commands compute from those in view. -/
def Setter.Legal : Setter → Settings → Prop
  | .toggleview t, m => ∃ a : TagSet, t = m.tags ^^^ (a &&& tagmask) ∧ t ≠ 0#32
  | .setTags t, _ => Proper t
  | _, _ => True

theorem viewSetter_legal {a : TagSet} (h : viewSetter a k = some σ) : σ.Legal k := by
  unfold viewSetter at h
  split at h
  · cases h
  · cases h
    trivial

/-- No binding swaps to an empty tag set. -/
theorem keys_swaptag : ∀ b ∈ keys, b.1 = .swaptag → b.2.tags &&& tagmask ≠ 0#32 := by
  decide +kernel

theorem keySetter_legal {b : Binding} (hb : b.1 = .swaptag → b.2.tags &&& tagmask ≠ 0#32)
    (h : keySetter b s = some σ) : σ.Legal (s.settings s.selmon) := by
  obtain ⟨f, a⟩ := b
  cases f with
  | view => exact viewSetter_legal h
  | toggleview =>
      simp only [keySetter] at h
      split at h
      · cases h
        exact ⟨a.tags, rfl, ‹_›⟩
      · cases h
  | rotatetags =>
      simp only [keySetter] at h
      split at h
      · cases h
        exact proper_mask ‹_›
      · cases h
  | shiftviewclients =>
      obtain ⟨t, -, ht⟩ := Option.bind_eq_some_iff.mp h
      exact viewSetter_legal ht
  | swaptag =>
      simp only [keySetter, swapSetter] at h
      split at h
      · cases h
      · cases h
        exact proper_mask (hb rfl)
  | tag =>
      simp only [keySetter, tagSetter] at h
      split at h
      · split at h
        · exact viewSetter_legal h
        · cases h
      · cases h
  | incnmaster | setmfact | setsmfact | resetmfact =>
      simp only [keySetter] at h
      split at h
      · cases h
        trivial
      · cases h
  | setlayout | cyclelayout | resetnmaster =>
      cases h
      trivial
  | _ => cases h

/-- No button swaps tags. -/
theorem buttons_no_swaptag : ∀ b ∈ buttons, b.2.1 ≠ .swaptag := by decide

/-- Every assignment that an event makes is to a tag set that shows something. -/
theorem eventSetter_legal (h : eventSetter e s = some (m, σ)) : σ.Legal (s.settings m) := by
  cases e with
  | keypress b cls =>
      simp only [eventSetter] at h
      split at h
      · obtain ⟨σ', hσ, heq⟩ := Option.map_eq_some_iff.mp h
        cases heq
        exact keySetter_legal (keys_swaptag b ‹_›) hσ
      · cases h
  | buttonpress x wheel b d =>
      cases b with
      | none => cases h
      | some b =>
          obtain ⟨waits, f, a⟩ := b
          have hset := (relinked_press x wheel s).settings
          simp only [eventSetter] at h
          generalize press x wheel s = r at hset h
          obtain ⟨u, click⟩ := r
          dsimp only at hset h
          split at h
          · obtain ⟨σ', hσ, heq⟩ := Option.map_eq_some_iff.mp h
            cases heq
            rw [← hset]
            unfold buttonSetter at hσ
            split at hσ
            · cases hσ
            · split at hσ
              · cases hσ
                trivial
              · cases hσ
            · have hno : f ≠ .swaptag := buttons_no_swaptag (waits, f, a) ‹_ ∧ _›.1
              exact keySetter_legal (b := (f, buttonArg click a)) (fun hf => absurd hf hno) hσ
          · cases h
  | clientmessage w x =>
      cases x with
      | netActiveWindow =>
          simp only [eventSetter] at h
          obtain ⟨c, -, hc⟩ := Option.bind_eq_some_iff.mp h
          split at hc
          · obtain ⟨σ', hσ, heq⟩ := Option.map_eq_some_iff.mp hc
            cases heq
            exact viewSetter_legal hσ
          · cases hc
      | _ => cases h
  | _ => cases h

/-- Both tag sets of a monitor show something that exists. -/
def Settings.Viewing (m : Settings) : Prop := ∀ b, Proper (m.tagset b)

theorem Settings.Viewing.update {m : Settings} (h : m.Viewing) {t : TagSet} (ht : Proper t)
    (b b' : Bool) : Proper (Function.update m.tagset b t b') := by
  by_cases hb : b' = b
  · subst hb
    rw [Function.update_self]
    exact ht
  · rw [Function.update_of_ne hb]
    exact h b'

theorem Settings.Viewing.view {m : Settings} (h : m.Viewing) (a : TagSet) : (m.view a).Viewing := by
  unfold Settings.view
  dsimp only
  split
  · exact h.update (proper_mask ‹_›) _
  · exact h

/-- Assignments to the layouts, the master count and the fractions. -/
theorem Settings.Viewing.apply {m : Settings} (h : m.Viewing) (hσ : σ.Legal m) :
    (σ.apply m).Viewing := by
  cases σ with
  | view a => exact h.view a
  | toggleview t =>
      obtain ⟨a, rfl, hne⟩ := hσ
      exact h.update ((h m.seltags).xor a hne) _
  | setTags t => exact h.update hσ _
  | setlayout a =>
      have htags : (m.setlayout a).tagset = m.tagset := by
        unfold Settings.setlayout
        dsimp only
        split <;> split <;> rfl
      exact fun b => htags ▸ h b
  | incnmaster i => exact h
  | resetnmaster a => exact h
  | setmfact a =>
      have htags : ((m.setmfact a).getD m).tagset = m.tagset := by
        unfold Settings.setmfact
        dsimp only
        repeat' split
        all_goals rfl
      exact fun b => htags ▸ h b
  | setsmfact a =>
      have htags : ((m.setsmfact a).getD m).tagset = m.tagset := by
        unfold Settings.setsmfact
        dsimp only
        repeat' split
        all_goals rfl
      exact fun b => htags ▸ h b
  | resetmfact =>
      have htags : m.resetmfact.tagset = m.tagset := by
        unfold Settings.resetmfact
        dsimp only
        split <;> rfl
      exact fun b => htags ▸ h b
  | resizemouse x y =>
      have htags : (m.resizemouse x y).tagset = m.tagset := by
        unfold Settings.resizemouse
        split <;> rfl
      exact fun b => htags ▸ h b

/-- **Views.**  In every run, whatever the events, both tag sets of every
monitor are proper. -/
theorem viewing_of_reachable {ok : Event → State → Prop} (h : Reachable ok s) (m : MonId) :
    (s.settings m).Viewing := by
  refine h.settings_invariant Settings.Viewing (fun _ => ?_) (fun hm hk b => ?_)
    (fun i m _ hm => hm.view _) (fun a m hm => Settings.Viewing.apply (σ := .setlayout a) hm trivial)
    (fun e s m σ _ hσ hm => hm.apply (eventSetter_legal hσ)) m
  · exact (by decide : (1#32 : TagSet) ≠ 0#32 ∧ 1#32 &&& tagmask = 1#32)
  · rw [hk.tagset]
    exact hm b

end Dwm
