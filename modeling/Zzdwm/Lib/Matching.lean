import Mathlib

/-!
# Matching a pattern in a text

A pattern is a list of what the elements of a text are compared with.  Its first match
is where it stands first.  Replacing goes from match to match, and goes on behind each
of them.

* `heads` — the pattern stands at the front of a text;
* `firstMatch` — what is in front of the first match, and the text from there on;
* `first_append`, `first_append_none` — the first match in the front of a text is the
  first one in the text, and if there is none, the first one ends behind the front;
* `replace` — each match replaced by what a function gives for it.
-/

namespace Matching

variable {A B : Type} (eq : A → B → Bool)

/-- The pattern stands at the front of the text. -/
def heads : List B → List A → Bool
  | [], _ => true
  | _ :: _, [] => false
  | p :: ps, c :: cs => eq c p && heads ps cs

/-- The first match. -/
def firstMatch (ps : List B) : List A → Option (List A × List A)
  | [] => if heads eq ps [] then some ([], []) else none
  | c :: cs =>
      if heads eq ps (c :: cs) then some ([], c :: cs)
      else (firstMatch ps cs).map fun r => (c :: r.1, r.2)

/-- Replace the matches in a text; `u` is what follows it, and `f` is given the text from
the match on.  The number bounds how many are replaced. -/
def replace (f : List A → List A) (ps : List B) (u : List A) : Nat → List A → List A
  | 0, t => t
  | k + 1, t =>
      match firstMatch eq ps t with
      | none => t
      | some (b, r) => b ++ f (r ++ u) ++ replace f ps u k (r.drop ps.length)

variable {eq} {ps : List B} {t u b r : List A}

theorem heads_length (h : heads eq ps t = true) : ps.length ≤ t.length := by
  induction ps generalizing t with
  | nil => exact Nat.zero_le _
  | cons p ps ih =>
      cases t with
      | nil => cases h
      | cons c cs =>
          rw [heads, Bool.and_eq_true] at h
          exact Nat.succ_le_succ (ih h.2)

/-- What follows a text does not matter where the text is long enough. -/
theorem heads_append (h : ps.length ≤ t.length) : heads eq ps (t ++ u) = heads eq ps t := by
  induction ps generalizing t with
  | nil => rfl
  | cons p ps ih =>
      cases t with
      | nil => cases h
      | cons c cs => grind [heads]

/-- The first match is a match. -/
theorem first_split (h : firstMatch eq ps t = some (b, r)) : t = b ++ r ∧ heads eq ps r = true := by
  induction t generalizing b with
  | nil =>
      rw [firstMatch] at h
      split at h
      · cases h
        exact ⟨rfl, ‹_›⟩
      · cases h
  | cons c cs ih =>
      rw [firstMatch] at h
      split at h
      · cases h
        exact ⟨rfl, ‹_›⟩
      · obtain ⟨⟨b', r'⟩, hr, heq⟩ := Option.map_eq_some_iff.mp h
        cases heq
        obtain ⟨rfl, hheads⟩ := ih hr
        exact ⟨rfl, hheads⟩

/-- A text that is too short has no match. -/
theorem first_of_short (h : t.length < ps.length) : firstMatch eq ps t = none := by
  cases hfirst : firstMatch eq ps t with
  | none => rfl
  | some r =>
      obtain ⟨rfl, hheads⟩ := first_split hfirst
      have hlen := heads_length hheads
      rw [List.length_append] at h
      omega

/-- **The first match in the front** of a text is the first one in the text. -/
theorem first_append (h : firstMatch eq ps t = some (b, r)) :
    firstMatch eq ps (t ++ u) = some (b, r ++ u) := by
  induction t generalizing b with
  | nil =>
      rw [firstMatch] at h
      split at h
      · rename_i hnil
        cases h
        have hps : ps = [] := List.eq_nil_of_length_eq_zero (Nat.le_zero.mp (heads_length hnil))
        subst hps
        cases u <;> rfl
      · cases h
  | cons c cs ih =>
      rw [firstMatch] at h
      rw [List.cons_append, firstMatch]
      split at h
      · rename_i hheads
        cases h
        have hsame : heads eq ps (c :: (cs ++ u)) = heads eq ps (c :: cs) :=
          heads_append (t := c :: cs) (heads_length hheads)
        rw [hsame, if_pos hheads]
        rfl
      · rename_i hheads
        obtain ⟨⟨b', r'⟩, hr, heq⟩ := Option.map_eq_some_iff.mp h
        cases heq
        obtain ⟨hsplit, hheads'⟩ := first_split hr
        have hlen : ps.length ≤ (c :: cs).length := by
          have hle := heads_length hheads'
          rw [hsplit, List.length_cons, List.length_append]
          omega
        have hsame : heads eq ps (c :: (cs ++ u)) = heads eq ps (c :: cs) :=
          heads_append (t := c :: cs) hlen
        rw [hsame, if_neg hheads, ih hr]
        rfl

/-- **Without a match in the front**, the first one ends behind the front. -/
theorem first_append_none (h : firstMatch eq ps t = none) (h' : firstMatch eq ps (t ++ u) = some (b, r)) :
    t.length < b.length + ps.length := by
  induction t generalizing b with
  | nil =>
      rw [firstMatch] at h
      split at h
      · cases h
      · rename_i hnil
        cases ps with
        | nil => exact absurd rfl hnil
        | cons p ps => exact Nat.lt_of_lt_of_le (Nat.succ_pos _) (Nat.le_add_left _ _)
  | cons c cs ih =>
      rw [firstMatch] at h
      rw [List.cons_append, firstMatch] at h'
      split at h
      · cases h
      · rename_i hheads
        have hnone : firstMatch eq ps cs = none := Option.map_eq_none_iff.mp h
        split at h'
        · rename_i hheads'
          cases h'
          rcases Nat.lt_or_ge (c :: cs).length ps.length with hlt | hge
          · rw [List.length_nil]
            omega
          · have hsame : heads eq ps (c :: (cs ++ u)) = heads eq ps (c :: cs) :=
              heads_append (t := c :: cs) hge
            exact absurd (hsame ▸ hheads') hheads
        · obtain ⟨⟨b', r'⟩, hr, heq⟩ := Option.map_eq_some_iff.mp h'
          cases heq
          have hlt := ih hnone hr
          show cs.length + 1 < b'.length + 1 + ps.length
          omega

/-! ## Places -/

/-- A match, element by element. -/
theorem heads_iff : heads eq ps t = true ↔
    List.Forall₂ (fun c p => eq c p = true) (t.take ps.length) ps := by
  induction ps generalizing t with
  | nil => exact iff_of_true rfl .nil
  | cons p ps ih =>
      cases t with
      | nil =>
          refine iff_of_false Bool.false_ne_true fun h => ?_
          cases h
      | cons c cs =>
          rw [heads, Bool.and_eq_true, ih, List.length_cons, List.take_succ_cons,
            List.forall₂_cons]

/-- The first match is the first one. -/
theorem first_least (h : firstMatch eq ps t = some (b, r)) {j : Nat}
    (hj : heads eq ps (t.drop j) = true) : b.length ≤ j := by
  induction t generalizing b j with
  | nil =>
      rw [firstMatch] at h
      split at h
      · cases h
        exact Nat.zero_le _
      · cases h
  | cons c cs ih =>
      rw [firstMatch] at h
      split at h
      · cases h
        exact Nat.zero_le _
      · rename_i hno
        obtain ⟨⟨b', r'⟩, hr, heq⟩ := Option.map_eq_some_iff.mp h
        cases heq
        cases j with
        | zero => exact absurd hj hno
        | succ j => exact Nat.succ_le_succ (ih hr hj)

/-- Without a first match there is none. -/
theorem first_none (h : firstMatch eq ps t = none) (j : Nat) : heads eq ps (t.drop j) = false := by
  induction t generalizing j with
  | nil =>
      rw [firstMatch] at h
      split at h
      · cases h
      · rename_i hno
        rw [List.drop_nil]
        exact Bool.eq_false_iff.mpr hno
  | cons c cs ih =>
      rw [firstMatch] at h
      split at h
      · cases h
      · rename_i hno
        cases j with
        | zero => exact Bool.eq_false_iff.mpr hno
        | succ j => exact ih (Option.map_eq_none_iff.mp h) j

/-- **A match in the text turned around**, of the pattern turned around. -/
theorem heads_reverse {i : Nat} (hi : i + ps.length ≤ t.length) :
    heads eq ps.reverse (t.reverse.drop i) = heads eq ps (t.drop (t.length - i - ps.length)) := by
  rw [Bool.eq_iff_iff, heads_iff, heads_iff, List.length_reverse]
  have hparts : (t.reverse.drop i).take ps.length =
      ((t.drop (t.length - i - ps.length)).take ps.length).reverse := by
    rw [List.drop_reverse, List.take_reverse, List.length_take, List.drop_take]
    congr 2
    · omega
    · congr 1
      omega
  rw [hparts, List.forall₂_reverse_iff]

end Matching
