import Mathlib

/-!
# Circular lists with a header

The elements of a circular doubly linked list, in order and without the element
that closes the circle, the header.  Each element has a weight; the weight in
front of an element is that of the ones before it.

* `next`, `prev` — the element after and before another one;
* `before_next`, `before_prev` — a step moves by the weight of one element;
* `idxOf_next`, `idxOf_prev` — and by one place;
* `before_lt` — what comes earlier has less in front of it.
-/

namespace Circular

variable {α : Type} [DecidableEq α]

/-- The element after `x`. -/
def next (header : α) (l : List α) (x : α) : α :=
  if x = header then l.headD header else (l.dropWhile (· ≠ x)).tail.headD header

/-- The element before `x`. -/
def prev (header : α) (l : List α) (x : α) : α := (l.takeWhile (· ≠ x)).getLastD header

/-- The weight in front of `x`; all of it if `x` is the header. -/
def before (w : α → Nat) (l : List α) (x : α) : Nat := ((l.takeWhile (· ≠ x)).map w).sum

variable {header x y : α} {l as bs : List α} {w : α → Nat}

theorem takeWhile_ne_append (h : x ∉ as) :
    (as ++ x :: bs).takeWhile (· ≠ x) = as := by
  have hpos : ∀ a ∈ as, decide (a ≠ x) = true := by
    intro a ha
    exact decide_eq_true fun hax => h (hax ▸ ha)
  rw [List.takeWhile_append_of_pos hpos, List.takeWhile_cons_of_neg (by simp), List.append_nil]

theorem dropWhile_ne_append (h : x ∉ as) :
    (as ++ x :: bs).dropWhile (· ≠ x) = x :: bs := by
  have hpos : ∀ a ∈ as, decide (a ≠ x) = true := by
    intro a ha
    exact decide_eq_true fun hax => h (hax ▸ ha)
  rw [List.dropWhile_append_of_pos hpos, List.dropWhile_cons_of_neg (by simp)]

theorem takeWhile_ne_of_notMem (h : x ∉ l) : l.takeWhile (· ≠ x) = l := by
  refine List.takeWhile_eq_self_iff.mpr fun a ha => ?_
  exact decide_eq_true fun hax => h (hax ▸ ha)

omit [DecidableEq α] in
/-- A member splits a list without repetitions in one way. -/
theorem split_of_mem (hx : x ∈ l) (hnd : l.Nodup) :
    ∃ as bs, l = as ++ x :: bs ∧ x ∉ as ∧ x ∉ bs := by
  obtain ⟨as, bs, rfl⟩ := List.append_of_mem hx
  have hcons := List.nodup_append.mp hnd
  refine ⟨as, bs, rfl, fun ha => ?_, (List.nodup_cons.mp hcons.2.1).1⟩
  exact hcons.2.2 x ha x (by simp) rfl

theorem before_append (h : x ∉ as) : before w (as ++ x :: bs) x = (as.map w).sum := by
  rw [before, takeWhile_ne_append h]

/-- In front of the header is everything. -/
theorem before_header (h : header ∉ l) : before w l header = (l.map w).sum := by
  rw [before, takeWhile_ne_of_notMem h]

theorem next_append (h : x ∉ as) (hx : x ≠ header) :
    next header (as ++ x :: bs) x = bs.headD header := by
  rw [next, if_neg hx, dropWhile_ne_append h, List.tail_cons]

theorem prev_append (h : x ∉ as) : prev header (as ++ x :: bs) x = as.getLastD header := by
  rw [prev, takeWhile_ne_append h]

theorem prev_header (h : header ∉ l) : prev header l header = l.getLastD header := by
  rw [prev, takeWhile_ne_of_notMem h]

/-- A step forward moves by the weight of the element that is left. -/
theorem before_next (hnd : l.Nodup) (hh : header ∉ l) (hx : x ∈ l) :
    before w l (next header l x) = before w l x + w x := by
  obtain ⟨as, bs, rfl, has, hbs⟩ := split_of_mem hx hnd
  have hne : x ≠ header := fun h => hh (h ▸ hx)
  rw [next_append has hne, before_append has]
  cases bs with
  | nil =>
    rw [List.headD_nil, before_header hh]
    simp
  | cons y bs =>
    have hy : y ∉ as ++ [x] := by
      have h := List.nodup_append.mp (show ((as ++ [x]) ++ y :: bs).Nodup by simpa using hnd)
      exact fun hmem => h.2.2 y hmem y (by simp) rfl
    rw [List.headD_cons, show as ++ x :: y :: bs = (as ++ [x]) ++ y :: bs by simp, before_append hy]
    simp

/-- A step forward moves by one place; the header comes last. -/
theorem idxOf_next (hnd : l.Nodup) (hh : header ∉ l) (hx : x ∈ l) :
    l.idxOf (next header l x) = l.idxOf x + 1 := by
  obtain ⟨as, bs, rfl, has, hbs⟩ := split_of_mem hx hnd
  have hne : x ≠ header := fun h => hh (h ▸ hx)
  have hidx : (as ++ x :: bs).idxOf x = as.length := by
    rw [List.idxOf_append_of_notMem has, List.idxOf_cons_self, Nat.add_zero]
  rw [next_append has hne, hidx]
  cases bs with
  | nil =>
    rw [List.headD_nil, List.idxOf_of_notMem hh]
    simp
  | cons y bs =>
    have hy : y ∉ as ++ [x] := by
      have h := List.nodup_append.mp (show ((as ++ [x]) ++ y :: bs).Nodup by simpa using hnd)
      exact fun hmem => h.2.2 y hmem y (by simp) rfl
    rw [List.headD_cons, show as ++ x :: y :: bs = (as ++ [x]) ++ y :: bs by simp,
      List.idxOf_append_of_notMem hy, List.idxOf_cons_self]
    simp

/-- After an element comes another one, or the header. -/
theorem next_mem (l : List α) (x : α) : next header l x ∈ l ∨ next header l x = header := by
  have hhead : ∀ l' : List α, (∀ a ∈ l', a ∈ l) → l'.headD header ∈ l ∨ l'.headD header = header := by
    intro l' hsub
    cases l' with
    | nil => exact .inr rfl
    | cons a l' => exact .inl (hsub a (by simp))
  unfold next
  split
  · exact hhead l fun a ha => ha
  · refine hhead _ fun a ha => ?_
    exact (List.dropWhile_sublist _).subset (List.mem_of_mem_tail ha)

/-- What comes before an element that is not the first one, or before the header
if there are elements. -/
theorem prev_spec (hnd : l.Nodup) (hx : x ∈ l ∨ x = header) (hh : header ∉ l)
    (hfirst : x ≠ next header l header) :
    prev header l x ∈ l ∧ next header l (prev header l x) = x := by
  have key : ∀ as bs : List α, l = as ++ bs → bs.headD header = x → as ≠ [] →
      as.getLastD header ∈ l ∧ next header l (as.getLastD header) = x := by
    intro as bs hl hbs has
    obtain ⟨as, z, rfl⟩ := List.eq_nil_or_concat as |>.resolve_left has
    rw [List.concat_eq_append] at hl ⊢
    rw [List.getLastD_concat]
    have hmem : z ∈ l := by
      rw [hl]
      simp
    have hzas : z ∉ as := by
      rw [hl, List.append_assoc] at hnd
      exact fun ha => (List.nodup_append.mp hnd).2.2 z ha z (by simp) rfl
    have hne : z ≠ header := fun h => hh (h ▸ hmem)
    refine ⟨hmem, ?_⟩
    rw [hl, List.append_assoc, List.singleton_append, next_append hzas hne, hbs]
  have hnext : next header l header = l.headD header := if_pos rfl
  rw [hnext] at hfirst
  rcases hx with hmem | rfl
  · obtain ⟨as, bs, rfl, has, -⟩ := split_of_mem hmem hnd
    rw [prev_append has]
    refine key as (x :: bs) rfl (List.headD_cons ..) fun hnil => hfirst ?_
    rw [hnil, List.nil_append, List.headD_cons]
  · rw [prev_header hh]
    refine key l [] (List.append_nil l).symm rfl fun hnil => hfirst ?_
    rw [hnil, List.headD_nil]

/-- A step back moves by the weight of the element that it reaches. -/
theorem before_prev (hnd : l.Nodup) (hx : x ∈ l ∨ x = header) (hh : header ∉ l)
    (hfirst : x ≠ next header l header) :
    before w l x = before w l (prev header l x) + w (prev header l x) := by
  obtain ⟨hmem, hnext⟩ := prev_spec hnd hx hh hfirst
  rw [← before_next hnd hh hmem, hnext]

/-- A step back moves by one place. -/
theorem idxOf_prev (hnd : l.Nodup) (hx : x ∈ l ∨ x = header) (hh : header ∉ l)
    (hfirst : x ≠ next header l header) : l.idxOf x = l.idxOf (prev header l x) + 1 := by
  obtain ⟨hmem, hnext⟩ := prev_spec hnd hx hh hfirst
  rw [← idxOf_next hnd hh hmem, hnext]

/-- The elements in front of an element are the first ones. -/
theorem takeWhile_ne_eq_take (l : List α) (x : α) :
    l.takeWhile (· ≠ x) = l.take (l.idxOf x) := by
  induction l with
  | nil => rfl
  | cons a l ih =>
    by_cases hax : a = x
    · rw [hax, List.takeWhile_cons_of_neg (by simp), List.idxOf_cons_self, List.take_zero]
    · rw [List.takeWhile_cons_of_pos (by simpa using hax), List.idxOf_cons_ne l hax, List.take_succ_cons, ih]

/-- What comes earlier has no less in front of it, and its own weight less in
front of it. -/
theorem before_lt (hx : x ∈ l) (hxy : l.idxOf x < l.idxOf y) :
    before w l x + w x ≤ before w l y := by
  have hlen : l.idxOf x < l.length := List.idxOf_lt_length_of_mem hx
  have htake : l.take (l.idxOf x + 1) = l.take (l.idxOf x) ++ [x] := by
    rw [List.take_add_one, List.getElem?_eq_getElem hlen, List.getElem_idxOf hlen]
    rfl
  have hpre : l.take (l.idxOf y) = l.take (l.idxOf x) ++ [x] ++ (l.take (l.idxOf y)).drop (l.idxOf x + 1) := by
    have h := (List.take_append_drop (l.idxOf x + 1) (l.take (l.idxOf y))).symm
    rwa [List.take_take, Nat.min_eq_left hxy, htake] at h
  rw [before, before, takeWhile_ne_eq_take, takeWhile_ne_eq_take, hpre]
  simp only [List.map_append, List.map_cons, List.map_nil, List.sum_append, List.sum_cons,
    List.sum_nil, Nat.add_zero]
  omega

end Circular
