import Mathlib

/-!
# Walks by names

A walk in a tree stays, goes up, or goes down to a child by its name.  Where it leads does
not depend on the tree as long as every name is there.

* `Place` — how far above the start a walk leads, and by which names down from there;
* `walk` — where a walk leads; a rooted one has nothing above its start;
* `walk_steps` — spelled again as a walk, a place leads to itself;
* `parts` — the parts of a text between separators, without the empty ones.
-/

namespace Walks

variable {A : Type}

/-- One step of a walk. -/
inductive Step (A : Type)
  | here
  | up
  | down (name : A)

/-- The end of a walk, seen from its start. -/
structure Place (A : Type) where
  above : Nat
  names : List A
  deriving DecidableEq

/-- Where a walk starts. -/
def Place.start : Place A := ⟨0, []⟩

/-- Going on by a step. -/
def Place.go (rooted : Bool) (p : Place A) : Step A → Place A
  | .here => p
  | .up =>
      if p.names ≠ [] then ⟨p.above, p.names.dropLast⟩
      else if rooted then p
      else ⟨p.above + 1, []⟩
  | .down name => ⟨p.above, p.names ++ [name]⟩

/-- Where a walk leads. -/
def walk (rooted : Bool) (steps : List (Step A)) : Place A := steps.foldl (Place.go rooted) .start

/-- A place as a walk. -/
def Place.steps (p : Place A) : List (Step A) := List.replicate p.above .up ++ p.names.map .down

variable {rooted : Bool} {p : Place A}

/-- A walk that is rooted never leads above its start. -/
theorem above_eq_zero (steps : List (Step A)) : (walk true steps).above = 0 := by
  have hgo : ∀ p : Place A, p.above = 0 → (steps.foldl (Place.go true) p).above = 0 := by
    induction steps with
    | nil => exact fun p hp => hp
    | cons s steps ih =>
        refine fun p hp => ih _ ?_
        cases s with
        | here => exact hp
        | up =>
            rw [Place.go]
            split
            · exact hp
            · exact hp
        | down name => exact hp
  exact hgo .start rfl

theorem foldl_ups (n k : Nat) :
    (List.replicate n Step.up).foldl (Place.go false) (⟨k, []⟩ : Place A) = ⟨k + n, []⟩ := by
  induction n generalizing k with
  | zero => rfl
  | succ n ih =>
      rw [List.replicate_succ, List.foldl_cons]
      exact (ih (k + 1)).trans (congrArg (Place.mk · []) (by omega))

theorem foldl_downs (names : List A) (p : Place A) :
    (names.map Step.down).foldl (Place.go rooted) p = ⟨p.above, p.names ++ names⟩ := by
  induction names generalizing p with
  | nil => rw [List.append_nil]; rfl
  | cons name names ih =>
      rw [List.map_cons, List.foldl_cons, ih]
      exact congrArg (Place.mk p.above) (List.append_assoc ..)

/-- **A place leads to itself.** -/
theorem walk_steps (h : rooted = true → p.above = 0) : walk rooted p.steps = p := by
  rw [walk, Place.steps, List.foldl_append]
  have hups : (List.replicate p.above Step.up).foldl (Place.go rooted) .start =
      (⟨p.above, []⟩ : Place A) := by
    cases rooted with
    | true =>
        rw [h rfl]
        rfl
    | false => exact (foldl_ups p.above 0).trans (congrArg (Place.mk · []) (Nat.zero_add _))
  rw [hups, foldl_downs]
  rfl

/-! ## The parts of a text -/

section Parts

variable [BEq A] [LawfulBEq A] {sep : A} {xs ys : List A} {cs : List (List A)}

/-- The parts between separators, without the empty ones. -/
def parts (sep : A) (xs : List A) : List (List A) := (xs.splitOn sep).filter (!·.isEmpty)

omit [LawfulBEq A] in
theorem parts_nil : parts sep [] = [] := by
  rw [parts, List.splitOn_nil]
  rfl

theorem parts_append_cons : parts sep (xs ++ sep :: ys) = parts sep xs ++ parts sep ys := by
  rw [parts, List.splitOn_append_cons_self, List.filter_append]
  rfl

theorem parts_cons_self : parts sep (sep :: xs) = parts sep xs := by
  have happend := @parts_append_cons A _ _ sep [] xs
  rw [parts_nil] at happend
  exact happend

theorem parts_of_not_mem (h : sep ∉ xs) (hne : xs ≠ []) : parts sep xs = [xs] := by
  rw [parts, List.splitOn_eq_singleton h, List.filter_cons_of_pos, List.filter_nil]
  rw [List.isEmpty_eq_false_iff.mpr hne]
  rfl

/-- A part in front of a separator, or at the end. -/
theorem parts_append (h : sep ∉ xs) (hne : xs ≠ []) (hys : ∀ y ∈ ys.head?, y = sep) :
    parts sep (xs ++ ys) = xs :: parts sep ys := by
  cases ys with
  | nil => rw [List.append_nil, parts_of_not_mem h hne, parts_nil]
  | cons y ys =>
      obtain rfl : y = sep := hys y rfl
      rw [parts_append_cons, parts_of_not_mem h hne, parts_cons_self]
      rfl

/-- **Parts that are joined** can be told apart again. -/
theorem parts_intercalate (h : ∀ c ∈ cs, sep ∉ c ∧ c ≠ []) :
    parts sep ([sep].intercalate cs) = cs := by
  by_cases hcs : cs = []
  · subst hcs
    exact parts_nil
  · rw [parts, List.splitOn_intercalate _ (fun c hc => (h c hc).1) hcs, List.filter_eq_self]
    intro c hc
    rw [List.isEmpty_eq_false_iff.mpr (h c hc).2]
    rfl

end Parts

end Walks
