import Mathlib

/-!
# Items filed under their owners

Every live item names an owner, and every current owner keeps a list of
items.  The lists are *placed* when each holds exactly the live items that
name its owner, once each, apart from a set `out` of items that are on no list
at the moment.  The set `out` is what makes the notion compose: an operation
that takes an item off its list and puts it back elsewhere passes through a
state in which just that item is out.

* `Placed.erase`, `Placed.insert` — taking an item off its list, and putting
  one back at any place of its owner's list;
* `Placed.reassign` — an item that is out may change its owner;
* `Placed.admit`, `Placed.dismiss` — items come and go while they are out;
* `Placed.addOwner`, `Placed.dropOwner` — owners come and go.
-/

namespace Ownership

variable {C M : Type}

/-- The lists `L` of the owners `owners` hold exactly the live items that are
not `out`, each on the list of the owner it names and only once. -/
structure Placed (owners : List M) (live : C → Bool) (own : C → M)
    (out : C → Prop) (L : M → List C) : Prop where
  nodup : ∀ m ∈ owners, (L m).Nodup
  owned : ∀ m ∈ owners, ∀ c ∈ L m, live c = true ∧ own c = m ∧ ¬ out c
  listed : ∀ c, live c = true → own c ∈ owners → ¬ out c → c ∈ L (own c)

variable {owners owners' : List M} {live live' : C → Bool} {own own' : C → M}
  {out out' : C → Prop} {L L' : M → List C}

/-- Only the lists of current owners matter. -/
theorem Placed.congr (h : Placed owners live own out L)
    (hL : ∀ m ∈ owners, L' m = L m) : Placed owners live own out L' where
  nodup := fun m hm => by
    rw [hL m hm]
    exact h.nodup m hm
  owned := fun m hm c hc => by
    rw [hL m hm] at hc
    exact h.owned m hm c hc
  listed := fun c hl ho hn => by
    rw [hL _ ho]
    exact h.listed c hl ho hn

/-- Membership on the list of a current owner, in full. -/
theorem Placed.mem_iff (h : Placed owners live own out L) {m : M}
    (hm : m ∈ owners) {c : C} :
    c ∈ L m ↔ live c = true ∧ own c = m ∧ ¬ out c := by
  constructor
  · exact h.owned m hm c
  · rintro ⟨hl, rfl, hn⟩
    exact h.listed c hl hm hn

/-- An item is on no list of an owner it does not name. -/
theorem Placed.not_mem_other (h : Placed owners live own out L) {m : M}
    (hm : m ∈ owners) {c : C} (hc : own c ≠ m) : c ∉ L m :=
  fun hmem => hc (h.owned m hm c hmem).2.1

/-- The lists of a current owner may be reordered. -/
theorem Placed.perm (h : Placed owners live own out L)
    (hL : ∀ m ∈ owners, (L' m).Perm (L m)) : Placed owners live own out L' where
  nodup := fun m hm => (hL m hm).nodup_iff.mpr (h.nodup m hm)
  owned := fun m hm c hc => h.owned m hm c ((hL m hm).mem_iff.mp hc)
  listed := fun c hl ho hn => (hL _ ho).mem_iff.mpr (h.listed c hl ho hn)

/-- The set of items that are out may be described differently. -/
theorem Placed.out_congr (h : Placed owners live own out L)
    (hout : ∀ c, live c = true → (out' c ↔ out c)) :
    Placed owners live own out' L where
  nodup := h.nodup
  owned := fun m hm c hc =>
    have hc' := h.owned m hm c hc
    ⟨hc'.1, hc'.2.1, fun ho => hc'.2.2 ((hout c hc'.1).mp ho)⟩
  listed := fun c hl ho hn => h.listed c hl ho (fun h' => hn ((hout c hl).mpr h'))

/-- An item that is out may name another owner. -/
theorem Placed.reassign {c : C} (h : Placed owners live own out L) (hc : out c)
    (hown : ∀ d, d ≠ c → own' d = own d) : Placed owners live own' out L where
  nodup := h.nodup
  owned := fun m hm d hd => by
    have hd' := h.owned m hm d hd
    have hne : d ≠ c := fun hdc => hd'.2.2 (hdc ▸ hc)
    exact ⟨hd'.1, (hown d hne).trans hd'.2.1, hd'.2.2⟩
  listed := fun d hl ho hn => by
    have hne : d ≠ c := fun hdc => hn (hdc ▸ hc)
    rw [hown d hne] at ho ⊢
    exact h.listed d hl ho hn

/-- A new item comes in out of all lists. -/
theorem Placed.admit {c : C} (h : Placed owners live own out L)
    (hfresh : live c = false) (hlive : ∀ d, d ≠ c → live' d = live d)
    (hown : ∀ d, d ≠ c → own' d = own d) :
    Placed owners live' own' (fun d => out d ∨ d = c) L where
  nodup := h.nodup
  owned := fun m hm d hd => by
    have hd' := h.owned m hm d hd
    have hne : d ≠ c := by
      rintro rfl
      rw [hfresh] at hd'
      exact Bool.noConfusion hd'.1
    refine ⟨(hlive d hne).trans hd'.1, (hown d hne).trans hd'.2.1, ?_⟩
    rintro (ho | hdc)
    · exact hd'.2.2 ho
    · exact hne hdc
  listed := fun d hl ho hn => by
    have hne : d ≠ c := fun hdc => hn (Or.inr hdc)
    rw [hown d hne] at ho ⊢
    rw [hlive d hne] at hl
    exact h.listed d hl ho (fun h' => hn (Or.inl h'))

/-- An item that is out may go for good. -/
theorem Placed.dismiss {c : C} (h : Placed owners live own out L) (hc : out c)
    (hdead : live' c = false) (hlive : ∀ d, d ≠ c → live' d = live d) :
    Placed owners live' own (fun d => out d ∧ d ≠ c) L where
  nodup := h.nodup
  owned := fun m hm d hd => by
    have hd' := h.owned m hm d hd
    have hne : d ≠ c := fun hdc => hd'.2.2 (hdc ▸ hc)
    exact ⟨(hlive d hne).trans hd'.1, hd'.2.1, fun h' => hd'.2.2 h'.1⟩
  listed := fun d hl ho hn => by
    have hne : d ≠ c := by
      rintro rfl
      rw [hdead] at hl
      exact Bool.noConfusion hl
    rw [hlive d hne] at hl
    exact h.listed d hl ho (fun h' => hn ⟨h', hne⟩)

/-- An owner that no live item names may join with an empty list. -/
theorem Placed.addOwner {m : M} (h : Placed owners live own out L)
    (howners : ∀ k, k ∈ owners' ↔ k ∈ owners ∨ k = m)
    (hfresh : ∀ c, live c = true → own c = m → out c) (hempty : L' m = [])
    (hL : ∀ k, k ∈ owners → L' k = L k) :
    Placed owners' live own out L' where
  nodup := fun k hk => by
    rcases (howners k).mp hk with hk | rfl
    · rw [hL k hk]
      exact h.nodup k hk
    · rw [hempty]
      exact List.nodup_nil
  owned := fun k hk c hc => by
    rcases (howners k).mp hk with hk | rfl
    · rw [hL k hk] at hc
      exact h.owned k hk c hc
    · rw [hempty] at hc
      cases hc
  listed := fun c hl ho hn => by
    rcases (howners _).mp ho with hk | hk
    · rw [hL _ hk]
      exact h.listed c hl hk hn
    · exact absurd (hfresh c hl hk) hn

/-- An owner may leave with its list. -/
theorem Placed.dropOwner (h : Placed owners live own out L)
    (howners : ∀ k, k ∈ owners' → k ∈ owners) : Placed owners' live own out L where
  nodup := fun k hk => h.nodup k (howners k hk)
  owned := fun k hk => h.owned k (howners k hk)
  listed := fun c hl ho hn => h.listed c hl (howners _ ho) hn

variable [DecidableEq C] [DecidableEq M]

/-- Taking an item off its owner's list. -/
theorem Placed.erase (c : C) (h : Placed owners live own out L)
    (hL : ∀ m, L' m = if m = own c then (L m).erase c else L m) :
    Placed owners live own (fun d => out d ∨ d = c) L' where
  nodup := fun m hm => by
    rw [hL m]
    split
    · exact (h.nodup m hm).erase c
    · exact h.nodup m hm
  owned := fun m hm d hd => by
    rw [hL m] at hd
    split at hd
    · have hne : d ≠ c := by
        rintro rfl
        exact (h.nodup m hm).not_mem_erase hd
      have hd' := h.owned m hm d (List.mem_of_mem_erase hd)
      exact ⟨hd'.1, hd'.2.1, fun ho => ho.elim hd'.2.2 hne⟩
    · rename_i hmc
      have hd' := h.owned m hm d hd
      refine ⟨hd'.1, hd'.2.1, ?_⟩
      rintro (ho | rfl)
      · exact hd'.2.2 ho
      · exact hmc hd'.2.1.symm
  listed := fun d hl ho hn => by
    have hd := h.listed d hl ho (fun h' => hn (Or.inl h'))
    have hne : d ≠ c := fun hdc => hn (Or.inr hdc)
    rw [hL]
    split
    · exact (List.mem_erase_of_ne hne).mpr hd
    · exact hd

/-- Putting an item that is out at any place of its owner's list. -/
theorem Placed.insert (c : C) (h : Placed owners live own out L) (hc : out c)
    (hlive : live c = true)
    (hL : ∀ m, m ≠ own c → L' m = L m) (hLc : (L' (own c)).Perm (c :: L (own c))) :
    Placed owners live own (fun d => out d ∧ d ≠ c) L' where
  nodup := fun m hm => by
    by_cases hmc : m = own c
    · subst hmc
      refine hLc.nodup_iff.mpr (List.nodup_cons.mpr ⟨?_, h.nodup _ hm⟩)
      exact fun hmem => (h.owned _ hm c hmem).2.2 hc
    · rw [hL m hmc]
      exact h.nodup m hm
  owned := fun m hm d hd => by
    by_cases hmc : m = own c
    · subst hmc
      rcases List.mem_cons.mp (hLc.mem_iff.mp hd) with rfl | hd
      · exact ⟨hlive, rfl, fun h' => h'.2 rfl⟩
      · have hd' := h.owned _ hm d hd
        exact ⟨hd'.1, hd'.2.1, fun h' => hd'.2.2 h'.1⟩
    · rw [hL m hmc] at hd
      have hd' := h.owned m hm d hd
      exact ⟨hd'.1, hd'.2.1, fun h' => hd'.2.2 h'.1⟩
  listed := fun d hl ho hn => by
    by_cases hdc : d = c
    · subst hdc
      exact hLc.mem_iff.mpr List.mem_cons_self
    · have hd := h.listed d hl ho (fun h' => hn ⟨h', hdc⟩)
      by_cases hmc : own d = own c
      · rw [hmc] at hd ⊢
        exact hLc.mem_iff.mpr (List.mem_cons_of_mem _ hd)
      · rw [hL _ hmc]
        exact hd

end Ownership
