import Mathlib
import Zzdwm.Lib.Circular

/-!
# Going round a part of a list

Some elements of a list, those with a property, are gone through in order and
from the last one on from the first again.

* `filter_toFront`, `filter_toBack` — moving one of them to an end of the list
  rotates them;
* `find_next`, `getLast_prev` — walks that find the next one and the one before.
-/

namespace Rounds

variable {α : Type} [DecidableEq α] {l : List α} {p : α → Bool} {c x : α}

/-! ## Rotating -/

theorem filter_erase (hnd : l.Nodup) : (l.erase c).filter p = (l.filter p).erase c := by
  rw [hnd.erase_eq_filter, (hnd.filter p).erase_eq_filter, List.filter_filter, List.filter_filter]
  congr 1
  funext a
  exact Bool.and_comm _ _

/-- Taking out an element without the property. -/
theorem filter_erase_of_neg (hnd : l.Nodup) (hc : p c = false) : (l.erase c).filter p = l.filter p := by
  rw [filter_erase hnd, List.erase_of_not_mem]
  intro hmem
  have := List.of_mem_filter hmem
  rw [hc] at this
  cases this

/-- The last element moves to the front. -/
theorem filter_toFront (hnd : l.Nodup) (hc : (l.filter p).getLast? = some c) :
    ((c :: l.erase c).filter p).rotate 1 = l.filter p := by
  have hpc : p c = true := List.of_mem_filter (List.mem_of_getLast? hc)
  obtain ⟨r, hr⟩ := List.getLast?_eq_some_iff.mp hc
  have hr' : c ∉ r := by
    have hnd' := hnd.filter p
    rw [hr] at hnd'
    exact fun hmem => (List.nodup_append.mp hnd').2.2 c hmem c (List.mem_singleton_self c) rfl
  rw [List.filter_cons_of_pos hpc, filter_erase hnd, hr, List.erase_append_right _ hr',
    List.erase_cons_head, List.append_nil, List.rotate_cons_succ, List.rotate_zero]

/-- The first element moves to the back. -/
theorem filter_toBack (hnd : l.Nodup) (hc : (l.filter p).head? = some c) :
    (l.erase c ++ [c]).filter p = (l.filter p).rotate 1 := by
  have hpc : p c = true := List.of_mem_filter (List.mem_of_head? hc)
  obtain ⟨r, hr⟩ := List.head?_eq_some_iff.mp hc
  rw [List.filter_append, filter_erase hnd, hr, List.erase_cons_head, List.filter_cons_of_pos hpc,
    List.rotate_cons_succ, List.rotate_zero]
  rfl

/-- Moving an element to the front or to the back keeps the others in order. -/
theorem filter_moved (hnd : l.Nodup) (hc : p c = false) :
    (c :: l.erase c).filter p = l.filter p ∧ (l.erase c ++ [c]).filter p = l.filter p := by
  have hneg : ¬ p c = true := by simp [hc]
  rw [List.filter_cons_of_neg hneg, List.filter_append, List.filter_cons_of_neg hneg,
    filter_erase_of_neg hnd hc]
  exact ⟨rfl, List.append_nil _⟩

/-! ## The next one and the one before -/

variable {a b : List α}

/-- The element after `x` in a list that is turned to begin with it. -/
theorem next_split (hnd : (a ++ x :: b).Nodup) (hx : x ∈ a ++ x :: b) :
    some ((a ++ x :: b).next x hx) = (b ++ a ++ [x]).head? := by
  have hrot : (a ++ x :: b) ~r (x :: (b ++ a)) := ⟨a.length, List.rotate_append_length_eq a (x :: b)⟩
  have hfirst : ∀ (r : List α) (hr : x ∈ x :: r), some ((x :: r).next x hr) = (r ++ [x]).head? := by
    intro r hr
    cases r with
    | nil => rfl
    | cons y r => rw [List.next_cons_cons_eq, List.cons_append, List.head?_cons]
  rw [List.isRotated_next_eq hrot hnd, hfirst]

theorem prev_split (hnd : (a ++ x :: b).Nodup) (hx : x ∈ a ++ x :: b) :
    some ((a ++ x :: b).prev x hx) = (x :: (b ++ a)).getLast? := by
  have hrot : (a ++ x :: b) ~r (x :: (b ++ a)) := ⟨a.length, List.rotate_append_length_eq a (x :: b)⟩
  rw [List.isRotated_prev_eq hrot hnd, List.prev_getLast_cons, List.getLast?_eq_some_getLast]

/-- **The walk onwards** from `x`, and from the start if it finds nothing. -/
theorem find_next (hnd : l.Nodup) (hx : x ∈ l.filter p) :
    ((l.dropWhile (· ≠ x)).tail.find? p).or (l.find? p) = some ((l.filter p).next x hx) := by
  obtain ⟨a, b, rfl, ha, -⟩ := Circular.split_of_mem (List.mem_of_mem_filter hx) hnd
  have hpx : p x = true := List.of_mem_filter hx
  have hfilter : (a ++ x :: b).filter p = a.filter p ++ x :: b.filter p := by
    rw [List.filter_append, List.filter_cons_of_pos hpx]
  have hnd' := hnd.filter p
  simp only [hfilter] at hx hnd' ⊢
  rw [next_split hnd', Circular.dropWhile_ne_append ha, List.tail_cons, ← List.head?_filter,
    ← List.head?_filter, hfilter]
  cases b.filter p with
  | nil => cases a.filter p <;> rfl
  | cons y r => rfl

/-- **The walk up to** `x`, and from there on if it finds nothing. -/
theorem getLast_prev (hnd : l.Nodup) (hx : x ∈ l.filter p) :
    ((l.takeWhile (· ≠ x)).filter p).getLast?.or ((l.dropWhile (· ≠ x)).filter p).getLast? =
      some ((l.filter p).prev x hx) := by
  obtain ⟨a, b, rfl, ha, -⟩ := Circular.split_of_mem (List.mem_of_mem_filter hx) hnd
  have hpx : p x = true := List.of_mem_filter hx
  have hfilter : (a ++ x :: b).filter p = a.filter p ++ x :: b.filter p := by
    rw [List.filter_append, List.filter_cons_of_pos hpx]
  have hnd' := hnd.filter p
  simp only [hfilter] at hx hnd' ⊢
  rw [prev_split hnd', Circular.takeWhile_ne_append ha, Circular.dropWhile_ne_append ha,
    List.filter_cons_of_pos hpx, ← List.cons_append, List.getLast?_append]

/-! ## All the way round -/

/-- The element `n` steps on. -/
def ahead (l : List α) (x : α) (n : Nat) : Option α := l[(l.idxOf x + n) % l.length]?

theorem ahead_zero (hx : x ∈ l) : ahead l x 0 = some x := by
  have hlt := List.idxOf_lt_length_of_mem hx
  rw [ahead, Nat.add_zero, Nat.mod_eq_of_lt hlt, List.getElem?_eq_getElem hlt, List.getElem_idxOf]

theorem ahead_length (hx : x ∈ l) : ahead l x l.length = some x := by
  rw [ahead, Nat.add_mod_right, ← Nat.add_zero (l.idxOf x)]
  exact ahead_zero hx

/-- One more step. -/
theorem ahead_succ (hnd : l.Nodup) {n : Nat} {y : α} (hy : y ∈ l) (h : ahead l x n = some y) :
    ahead l x (n + 1) = some (l.next y hy) := by
  obtain ⟨hlt, rfl⟩ := List.getElem?_eq_some_iff.mp h
  rw [List.next_getElem l hnd, ahead, ← List.getElem?_eq_getElem, Nat.mod_add_mod, Nat.add_assoc]

/-- Everything is less than a whole round away. -/
theorem exists_ahead (hx : x ∈ l) {y : α} (hy : y ∈ l) : ∃ n < l.length, ahead l x n = some y := by
  have hlt := List.idxOf_lt_length_of_mem hx
  have hlt' := List.idxOf_lt_length_of_mem hy
  refine ⟨(l.idxOf y + (l.length - l.idxOf x)) % l.length, Nat.mod_lt _ (by omega), ?_⟩
  have hidx : (l.idxOf x + (l.idxOf y + (l.length - l.idxOf x)) % l.length) % l.length =
      l.idxOf y := by
    rw [Nat.add_mod_mod, show l.idxOf x + (l.idxOf y + (l.length - l.idxOf x)) =
      l.idxOf y + l.length by omega, Nat.add_mod_right, Nat.mod_eq_of_lt hlt']
  rw [ahead, hidx, List.getElem?_eq_getElem hlt', List.getElem_idxOf]

/-! ## A part of a round

A list `r` that leaves out some elements of the round `l`. -/

variable {r : List α} {e : α}

omit [DecidableEq α] in
/-- A part that holds the first element begins with it. -/
theorem exists_cons_of_sublist {n : α} {w : List α} (hsub : r.Sublist (n :: w)) (hn : n ∈ r)
    (hnw : n ∉ w) : ∃ v, r = n :: v ∧ v.Sublist w := by
  cases hsub with
  | cons _ h => exact absurd (h.subset hn) hnw
  | cons_cons _ h => exact ⟨_, rfl, h⟩

omit [DecidableEq α] in
theorem head?_of_sublist {n : α} (hnd : l.Nodup) (hsub : r.Sublist l) (hl : l.head? = some n)
    (hn : n ∈ r) : r.head? = some n := by
  obtain ⟨w, rfl⟩ := List.head?_eq_some_iff.mp hl
  obtain ⟨v, rfl, -⟩ := exists_cons_of_sublist hsub hn (List.nodup_cons.mp hnd).1
  rfl

omit [DecidableEq α] in
theorem getLast?_of_sublist {n : α} (hnd : l.Nodup) (hsub : r.Sublist l) (hl : l.getLast? = some n)
    (hn : n ∈ r) : r.getLast? = some n := by
  rw [List.getLast?_eq_head?_reverse] at hl ⊢
  exact head?_of_sublist (List.nodup_reverse.mpr hnd) hsub.reverse hl (List.mem_reverse.mpr hn)

omit [DecidableEq α] in
/-- The round and its part, both turned to begin at `x`. -/
theorem exists_turned (hnd : l.Nodup) (hsub : r.Sublist l) (hx : x ∈ l) :
    ∃ w r', l ~r (x :: w) ∧ r ~r r' ∧ r'.Sublist (x :: w) := by
  obtain ⟨a, b, rfl, -⟩ := Circular.split_of_mem hx hnd
  obtain ⟨r₁, r₂, rfl, h₁, h₂⟩ := List.sublist_append_iff.mp hsub
  exact ⟨b ++ a, r₂ ++ r₁, ⟨a.length, List.rotate_append_length_eq a (x :: b)⟩,
    ⟨r₁.length, List.rotate_append_length_eq r₁ r₂⟩, h₂.append h₁⟩

theorem next_cons (w : List α) (hx : x ∈ x :: w) : some ((x :: w).next x hx) = (w ++ [x]).head? := by
  cases w with
  | nil => rfl
  | cons y w => rw [List.next_cons_cons_eq, List.cons_append, List.head?_cons]

/-- **The next one in the part** is the next one of the round if the part has it. -/
theorem next_of_sublist (hnd : l.Nodup) (hsub : r.Sublist l) (hxr : x ∈ r) (hx : x ∈ l) :
    r.next x hxr = l.next x hx ↔ l.next x hx ∈ r := by
  refine ⟨fun heq => heq ▸ List.next_mem r x hxr, fun hmem => ?_⟩
  obtain ⟨w, r', hl, hr, hsub'⟩ := exists_turned hnd hsub hx
  have hnd' : (x :: w).Nodup := hl.nodup_iff.mp hnd
  obtain ⟨v, rfl, hv⟩ := exists_cons_of_sublist hsub' (hr.mem_iff.mp hxr) (List.nodup_cons.mp hnd').1
  have hmem' := hr.mem_iff.mp hmem
  rw [List.isRotated_next_eq hl hnd] at hmem' ⊢
  rw [List.isRotated_next_eq hr (hsub.nodup hnd)]
  refine Option.some.inj ?_
  rw [next_cons, next_cons]
  cases w with
  | nil =>
      rw [List.sublist_nil.mp hv]
  | cons n w =>
      rw [List.next_cons_cons_eq] at hmem'
      have hnx : n ≠ x := fun h => (List.nodup_cons.mp hnd').1 (h ▸ List.mem_cons_self)
      have hnv : n ∈ v := List.mem_of_ne_of_mem hnx hmem'
      obtain ⟨v', rfl, -⟩ :=
        exists_cons_of_sublist hv hnv (List.nodup_cons.mp (List.nodup_cons.mp hnd').2).1
      rfl

theorem prev_of_sublist (hnd : l.Nodup) (hsub : r.Sublist l) (hxr : x ∈ r) (hx : x ∈ l) :
    r.prev x hxr = l.prev x hx ↔ l.prev x hx ∈ r := by
  rw [← List.next_reverse_eq_prev r (hsub.nodup hnd), ← List.next_reverse_eq_prev l hnd,
    next_of_sublist (List.nodup_reverse.mpr hnd) hsub.reverse, List.mem_reverse]

/-- The part lies on one side of `x`. -/
def OneSided (l : List α) (x : α) (r : List α) : Prop :=
  (∀ y ∈ r, y ∈ l.takeWhile (· ≠ x)) ∨ ∀ y ∈ r, y ∈ l.dropWhile (· ≠ x)

/-- A single element is on one side. -/
theorem oneSided_of_length_one (hsub : r.Sublist l) (hxr : x ∉ r) (hr : r.length = 1) :
    OneSided l x r := by
  obtain ⟨y, rfl⟩ := List.length_eq_one_iff.mp hr
  have hy : y ∈ l.takeWhile (· ≠ x) ++ l.dropWhile (· ≠ x) := by
    rw [List.takeWhile_append_dropWhile]
    exact hsub.subset (List.mem_singleton_self y)
  rcases List.mem_append.mp hy with htake | hdrop
  · exact Or.inl fun z hz => List.mem_singleton.mp hz ▸ htake
  · exact Or.inr fun z hz => List.mem_singleton.mp hz ▸ hdrop

/-- **The ends of a part** without `x` are its neighbours if they are in the part
and the part lies on one side. -/
theorem ends_of_sublist (hnd : l.Nodup) (hsub : r.Sublist l) (hxr : x ∉ r) (hx : x ∈ l) :
    (r.head? = some (l.next x hx) ∧ r.getLast? = some (l.prev x hx)) ↔
      l.next x hx ∈ r ∧ l.prev x hx ∈ r ∧ OneSided l x r := by
  obtain ⟨a, b, rfl, ha, hb⟩ := Circular.split_of_mem hx hnd
  obtain ⟨r₁, r₂, rfl, h₁, h₂⟩ := List.sublist_append_iff.mp hsub
  have hnext := next_split hnd hx
  have hprev := prev_split hnd hx
  generalize (a ++ x :: b).next x hx = n at hnext ⊢
  generalize (a ++ x :: b).prev x hx = q at hprev ⊢
  have hx₂ : x ∉ r₂ := fun h => hxr (List.mem_append_right _ h)
  have h₂' : r₂.Sublist b := (List.sublist_cons_iff.mp h₂).resolve_right fun ⟨v, hv, _⟩ =>
    hx₂ (hv ▸ List.mem_cons_self)
  obtain ⟨hnda, hndb, hab⟩ := List.nodup_append.mp hnd
  have hndb' := (List.nodup_cons.mp hndb).2
  have hdisj : ∀ y ∈ a, y ∉ b := fun y hya hyb => hab y hya y (List.mem_cons_of_mem _ hyb) rfl
  rw [OneSided, Circular.takeWhile_ne_append ha, Circular.dropWhile_ne_append ha]
  constructor
  · rintro ⟨hhead, hlast⟩
    refine ⟨List.mem_of_head? hhead, List.mem_of_getLast? hlast, ?_⟩
    by_cases hr₂ : r₂ = []
    · subst hr₂
      exact Or.inl fun y hy => h₁.subset (by simpa using hy)
    · -- the part has an element behind `x`, and so the round has; none may be in front
      rcases r₁ with - | ⟨y, v⟩
      · exact Or.inr fun y hy => List.mem_cons_of_mem _ (h₂'.subset (by simpa using hy))
      · have hya : y ∈ a := h₁.subset List.mem_cons_self
        have hb0 : b ≠ [] := by
          rintro rfl
          exact hr₂ (List.sublist_nil.mp h₂')
        obtain ⟨z, b', rfl⟩ := List.exists_cons_of_ne_nil hb0
        have hyz : y = z := by
          rw [List.cons_append, List.head?_cons] at hhead
          exact (Option.some.inj hhead).trans (Option.some.inj hnext)
        exact absurd (hyz ▸ List.mem_cons_self) (hdisj y hya)
  · rintro ⟨hn, hq, hside | hside⟩
    · have hr₂ : r₂ = [] := by
        by_contra hne
        obtain ⟨y, hy⟩ := List.exists_mem_of_ne_nil _ hne
        exact hdisj y (hside y (List.mem_append_right _ hy)) (h₂'.subset hy)
      subst hr₂
      rw [List.append_nil] at hn hq ⊢
      have hb0 : b = [] := by
        rcases b with - | ⟨z, b'⟩
        · rfl
        · have hnz : n = z := Option.some.inj hnext
          exact absurd (hnz ▸ List.mem_cons_self) (hdisj n (h₁.subset hn))
      subst hb0
      have ha0 : a ≠ [] := List.ne_nil_of_mem (h₁.subset hn)
      rw [List.nil_append, List.head?_append_of_ne_nil _ ha0] at hnext
      rw [List.nil_append, List.getLast?_cons_of_ne_nil ha0] at hprev
      exact ⟨head?_of_sublist hnda h₁ hnext.symm hn, getLast?_of_sublist hnda h₁ hprev.symm hq⟩
    · have hr₁ : r₁ = [] := by
        by_contra hne
        obtain ⟨y, hy⟩ := List.exists_mem_of_ne_nil _ hne
        exact hab y (h₁.subset hy) y (hside y (List.mem_append_left _ hy)) rfl
      subst hr₁
      rw [List.nil_append] at hn hq ⊢
      have hb0 : b ≠ [] := List.ne_nil_of_mem (h₂'.subset hq)
      have ha0 : a = [] := by
        by_contra hne
        rw [← List.cons_append, List.getLast?_append_of_ne_nil _ hne] at hprev
        exact hdisj q (List.mem_of_getLast? hprev.symm) (h₂'.subset hq)
      subst ha0
      rw [List.append_nil, List.head?_append_of_ne_nil _ hb0] at hnext
      rw [List.append_nil, List.getLast?_cons_of_ne_nil hb0] at hprev
      exact ⟨head?_of_sublist hndb' h₂' hnext.symm hn, getLast?_of_sublist hndb' h₂' hprev.symm hq⟩

/-- The neighbours of another element of the part are those of `x` only if it is
all that the part holds. -/
theorem neighbours_of_other (hnd : l.Nodup) (hsub : r.Sublist l) (hx : x ∈ l) (he : e ∈ r)
    (hex : e ≠ x) : (r.next e he = l.next x hx ∧ r.prev e he = l.prev x hx) ↔
      l.next x hx ∈ r ∧ l.prev x hx ∈ r ∧ r.length = 1 := by
  have hndr := hsub.nodup hnd
  constructor
  · rintro ⟨hnext, hprev⟩
    have hn : l.next x hx ∈ r := hnext ▸ List.next_mem r e he
    have hq : l.prev x hx ∈ r := hprev ▸ List.prev_mem r e he
    refine ⟨hn, hq, ?_⟩
    have hxr : x ∉ r := by
      intro hxr
      have hsame : r.next e he = r.next x hxr := by
        rw [hnext, (next_of_sublist hnd hsub hxr hx).mpr hn]
      have hback := List.prev_next r hndr e he
      simp only [hsame, List.prev_next r hndr x hxr] at hback
      exact hex hback.symm
    obtain ⟨w, r', hl, hr, hsub'⟩ := exists_turned hnd hsub hx
    have hndw : (x :: w).Nodup := hl.nodup_iff.mp hnd
    have hndr' : r'.Nodup := hr.nodup_iff.mp hndr
    have he' : e ∈ r' := hr.mem_iff.mp he
    have hsubw : r'.Sublist w := (List.sublist_cons_iff.mp hsub').resolve_right
      fun ⟨v, hv, _⟩ => hxr (hr.mem_iff.mpr (hv ▸ List.mem_cons_self))
    have hw0 : w ≠ [] := List.ne_nil_of_mem (hsubw.subset he')
    -- turned to begin at `x`, the round starts and ends with the neighbours of `x`
    have hhead : w.head? = some (l.next x hx) := by
      rw [List.isRotated_next_eq hl hnd, next_cons, List.head?_append_of_ne_nil _ hw0]
    have hlast : w.getLast? = some (l.prev x hx) := by
      rw [List.isRotated_prev_eq hl hnd, List.prev_getLast_cons, ← List.getLast?_eq_some_getLast,
        List.getLast?_cons_of_ne_nil hw0]
    have hndw' := (List.nodup_cons.mp hndw).2
    have hhead' := head?_of_sublist hndw' hsubw hhead (hr.mem_iff.mp hn)
    have hlast' := getLast?_of_sublist hndw' hsubw hlast (hr.mem_iff.mp hq)
    rw [List.isRotated_next_eq hr hndr] at hnext
    rw [List.isRotated_prev_eq hr hndr] at hprev
    rw [hr.perm.length_eq]
    generalize l.next x hx = n at hnext hhead'
    generalize l.prev x hx = q at hprev hlast'
    obtain ⟨v, rfl⟩ := List.head?_eq_some_iff.mp hhead'
    have heq : e = q := by
      have hback := List.prev_next (n :: v) hndr' e he'
      simp only [hnext, List.prev_getLast_cons] at hback
      rw [List.getLast?_eq_some_getLast (List.cons_ne_nil n v), hback] at hlast'
      exact Option.some.inj hlast'
    have hne : n = e := by
      have hforth := List.next_prev (n :: v) hndr' e he'
      simp only [hprev, ← heq] at hforth
      exact hnext.symm.trans hforth
    rw [← heq, ← hne] at hlast'
    by_cases hv : v = []
    · rw [hv]
      rfl
    · rw [List.getLast?_cons_of_ne_nil hv] at hlast'
      exact absurd (List.mem_of_getLast? hlast') (List.nodup_cons.mp hndr').1
  · rintro ⟨hn, hq, hlen⟩
    obtain ⟨a, rfl⟩ := List.length_eq_one_iff.mp hlen
    exact ⟨(List.mem_singleton.mp hn).symm, (List.mem_singleton.mp hq).symm⟩

end Rounds
