import Mathlib

/-!
# Brackets that belong together

Some elements of a list open a bracket, and some close one.  An element closes a bracket
when what stands between the two is balanced.

* `depth` — how many brackets are open behind a list;
* `Closes` — the second of two elements closes the first one;
* `partner` — the search for it, which counts the brackets that are open;
* `Closes.turned` — read from the other end, with opening and closing exchanged, the first
  one closes the second;
* `partner_congr` — the search depends only on what is scanned.
-/

namespace Brackets

variable {A : Type} (opens closes : A → Bool)

/-- The number of open brackets behind an element; none where it closes one that is not
open. -/
def step (k : Nat) (a : A) : Option Nat :=
  if closes a then
    if k = 0 then none else some (k - 1)
  else if opens a then some (k + 1)
  else some k

/-- The number of open brackets behind a list. -/
def depth (k : Nat) (w : List A) : Option Nat := w.foldlM (step opens closes) k

/-- Every bracket is closed, and none is closed that is not open. -/
def Balanced (w : List A) : Prop := depth opens closes 0 w = some 0

/-- The element `b` of a list closes the bracket `a`. -/
def Closes (as : List A) (a b : A) : Prop :=
  ∃ l w r, as = l ++ a :: (w ++ b :: r) ∧ closes b = true ∧ Balanced opens closes w

/-- The element that closes a bracket opened in front of a list, in which `k` more are
open there. -/
def partner : Nat → List A → Option A
  | _, [] => none
  | k, a :: as =>
      match step opens closes k a with
      | none => some a
      | some k => partner k as

/-- What the search looks at. -/
def scanned : Nat → List A → List A
  | _, [] => []
  | k, a :: as =>
      a :: match step opens closes k a with
        | none => []
        | some k => scanned k as

variable {opens closes} {k k' : Nat} {a b : A} {as l r w : List A}

instance (w : List A) : Decidable (Balanced opens closes w) :=
  inferInstanceAs (Decidable (depth opens closes 0 w = some 0))

theorem step_eq_none : step opens closes k a = none ↔ closes a = true ∧ k = 0 := by
  unfold step
  split_ifs <;> simp_all

/-- A step is undone by the same element, with opening and closing exchanged. -/
theorem step_turned (h : opens a = false ∨ closes a = false) :
    step opens closes k a = some k' ↔ step closes opens k' a = some k := by
  unfold step
  rcases Bool.eq_false_or_eq_true (opens a) with ho | ho <;>
    rcases Bool.eq_false_or_eq_true (closes a) with hc | hc
  · simp_all
  · simp only [ho, hc, if_true, Bool.false_eq_true, if_false, Option.some.injEq]
    grind
  · simp only [ho, hc, if_true, Bool.false_eq_true, if_false, Option.some.injEq]
    grind
  · simp only [ho, hc, Bool.false_eq_true, if_false, Option.some.injEq]
    exact eq_comm

theorem depth_cons :
    depth opens closes k (a :: w) = (step opens closes k a).bind (depth opens closes · w) :=
  List.foldlM_cons

theorem depth_append (v : List A) :
    depth opens closes k (w ++ v) = (depth opens closes k w).bind (depth opens closes · v) :=
  List.foldlM_append

/-- Read from the other end, brackets are opened where they were closed. -/
theorem depth_reverse (h : ∀ a ∈ w, opens a = false ∨ closes a = false) :
    depth opens closes k w = some k' ↔ depth closes opens k' w.reverse = some k := by
  induction w generalizing k with
  | nil => exact ⟨fun heq => congrArg some (Option.some.inj heq).symm,
      fun heq => congrArg some (Option.some.inj heq).symm⟩
  | cons a w ih =>
      have hrest := fun j => ih (k := j) fun b hb => h b (List.mem_cons_of_mem _ hb)
      have hone := h a List.mem_cons_self
      rw [depth_cons, List.reverse_cons, depth_append, Option.bind_eq_some_iff,
        Option.bind_eq_some_iff]
      refine exists_congr fun j => ?_
      rw [hrest, step_turned hone, depth_cons, and_comm, Option.bind_eq_some_iff]
      refine and_congr_right fun _ => ⟨fun hstep => ⟨k, hstep, rfl⟩, ?_⟩
      rintro ⟨i, hstep, hi⟩
      rw [hstep]
      exact congrArg some (Option.some.inj hi)

/-- **The search** finds the element behind a balanced list. -/
theorem partner_eq_some : partner opens closes k as = some b ↔
    ∃ w r, as = w ++ b :: r ∧ closes b = true ∧ depth opens closes k w = some 0 := by
  induction as generalizing k with
  | nil =>
      refine iff_of_false (Option.some_ne_none b).symm ?_
      rintro ⟨w, r, heq, -⟩
      exact List.append_ne_nil_of_right_ne_nil w (List.cons_ne_nil b r) heq.symm
  | cons a as ih =>
      cases hstep : step opens closes k a with
      | none =>
          obtain ⟨hc, rfl⟩ := step_eq_none.mp hstep
          rw [partner, hstep]
          constructor
          · intro heq
            cases heq
            exact ⟨[], as, rfl, hc, rfl⟩
          · rintro ⟨w, r, heq, -, hdepth⟩
            cases w with
            | nil =>
                cases heq
                rfl
            | cons a' w =>
                cases heq
                rw [depth_cons, hstep] at hdepth
                cases hdepth
      | some j =>
          rw [partner, hstep]
          dsimp only
          rw [ih]
          constructor
          · rintro ⟨w, r, rfl, hc, hdepth⟩
            refine ⟨a :: w, r, rfl, hc, ?_⟩
            rw [depth_cons, hstep]
            exact hdepth
          · rintro ⟨w, r, heq, hc, hdepth⟩
            cases w with
            | nil =>
                cases heq
                have hk : k = 0 := Option.some.inj hdepth
                rw [step_eq_none.mpr ⟨hc, hk⟩] at hstep
                cases hstep
            | cons a' w =>
                cases heq
                rw [depth_cons, hstep] at hdepth
                exact ⟨w, r, rfl, hc, hdepth⟩

/-- In a list without repetitions the search decides which element closes a bracket. -/
theorem closes_iff (hnd : (l ++ a :: r).Nodup) :
    Closes opens closes (l ++ a :: r) a b ↔ partner opens closes 0 r = some b := by
  rw [partner_eq_some]
  constructor
  · rintro ⟨l', w, r', heq, hc, hbal⟩
    have hl : a ∉ l := fun hmem => (List.nodup_append.mp hnd).2.2 a hmem a List.mem_cons_self rfl
    have hr : a ∉ r := (List.nodup_cons.mp (List.nodup_append.mp hnd).2.1).1
    have hr' := ((List.append_cons_inj_of_notMem hl hr).mp heq).2.2
    exact ⟨w, r', hr', hc, hbal⟩
  · rintro ⟨w, r', rfl, hc, hbal⟩
    exact ⟨l, w, r', rfl, hc, hbal⟩

/-- **Read from the other end**, the first one of two brackets closes the second. -/
theorem Closes.turned (h : Closes opens closes as a b) (ha : opens a = true)
    (hone : ∀ c ∈ as, opens c = false ∨ closes c = false) :
    Closes closes opens as.reverse b a := by
  obtain ⟨l, w, r, rfl, hb, hbal⟩ := h
  refine ⟨r.reverse, w.reverse, l.reverse, ?_, ha, ?_⟩
  · simp only [List.reverse_append, List.reverse_cons, List.append_assoc, List.nil_append,
      List.cons_append]
  · exact (depth_reverse fun c hc => hone c (by simp [hc])).mp hbal

theorem scanned_subset (k : Nat) (as : List A) : scanned opens closes k as ⊆ as := by
  induction as generalizing k with
  | nil => exact List.Subset.refl _
  | cons a as ih =>
      rw [scanned]
      refine List.cons_subset_cons a ?_
      cases step opens closes k a with
      | none => exact List.nil_subset _
      | some j => exact ih j

theorem partner_mem (h : partner opens closes k as = some b) : b ∈ scanned opens closes k as := by
  induction as generalizing k with
  | nil => cases h
  | cons a as ih =>
      rw [partner] at h
      rw [scanned]
      cases hstep : step opens closes k a with
      | none =>
          rw [hstep] at h
          cases h
          exact List.mem_cons_self
      | some j =>
          rw [hstep] at h
          exact List.mem_cons_of_mem _ (ih h)

/-- **The search depends only on what is scanned.** -/
theorem partner_congr {opens' closes' : A → Bool}
    (h : ∀ a ∈ scanned opens closes k as, opens' a = opens a ∧ closes' a = closes a) :
    partner opens' closes' k as = partner opens closes k as := by
  induction as generalizing k with
  | nil => rfl
  | cons a as ih =>
      obtain ⟨ho, hc⟩ := h a List.mem_cons_self
      have hsame : step opens' closes' k a = step opens closes k a := by
        unfold step
        rw [ho, hc]
      rw [partner, partner, hsame]
      cases hstep : step opens closes k a with
      | none => rfl
      | some j =>
          refine ih fun b hb => h b ?_
          rw [scanned, hstep]
          exact List.mem_cons_of_mem _ hb

end Brackets
