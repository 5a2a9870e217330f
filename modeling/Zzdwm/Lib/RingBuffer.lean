import Mathlib

/-!
# A ring of slots

A queue in an array of `n` slots: a place to write, a place to read, and a mark on
every slot that is in use.

* `Ring.push`, `Ring.pop` — the two operations, which look at one slot each;
* `Holds q r` — the ring stands for the queue `q`;
* `Holds.push_eq`, `Holds.pop_eq` — the operations on the queue: an item is refused
  exactly if there are `n` of them.
-/

namespace RingBuffer

variable {A : Type} {n : Nat}

/-- The slots, `none` being one that is not in use, and the two places. -/
structure Ring (A : Type) (n : Nat) where
  slot : Nat → Option A
  read : Nat
  write : Nat

namespace Ring

/-- A ring with nothing in it. -/
def empty : Ring A n := ⟨fun _ => none, 0, 0⟩

/-- Fill the slot at the place to write, unless it is in use. -/
def push (a : A) (r : Ring A n) : Option (Ring A n) :=
  match r.slot r.write with
  | some _ => none
  | none => some { r with
      slot := Function.update r.slot r.write (some a)
      write := (r.write + 1) % n }

/-- Empty the slot at the place to read, if it is in use. -/
def pop (r : Ring A n) : Option (A × Ring A n) :=
  match r.slot r.read with
  | none => none
  | some a => some (a, { r with
      slot := Function.update r.slot r.read none
      read := (r.read + 1) % n })

end Ring

/-- The ring stands for a queue, whose first item is at the place to read. -/
structure Holds (q : List A) (r : Ring A n) : Prop where
  read_lt : r.read < n
  few : q.length ≤ n
  write : r.write = (r.read + q.length) % n
  used : ∀ i (h : i < q.length), r.slot ((r.read + i) % n) = some q[i]
  free : ∀ i, q.length ≤ i → i < n → r.slot ((r.read + i) % n) = none

variable {q : List A} {r : Ring A n} {a : A}

theorem holds_empty (h : 0 < n) : Holds [] (Ring.empty : Ring A n) where
  read_lt := h
  few := Nat.zero_le n
  write := (Nat.mod_eq_of_lt h).symm
  used := nofun
  free := fun _ _ _ => rfl

/-- Places less than a turn apart are different slots. -/
theorem place_inj {k i j : Nat} (hi : i < n) (hj : j < n) (h : (k + i) % n = (k + j) % n) :
    i = j := by
  have hmod : i ≡ j [MOD n] := Nat.ModEq.add_left_cancel' k h
  exact hmod.eq_of_lt_of_lt hi hj

/-- **`push`** puts an item behind the others, as long as there are fewer than `n`. -/
theorem Holds.push_eq (h : Holds q r) (a : A) :
    (q.length = n ∧ r.push a = none) ∨
      (q.length < n ∧ ∃ r', r.push a = some r' ∧ Holds (q ++ [a]) r') := by
  have hn : 0 < n := Nat.zero_lt_of_lt h.read_lt
  rcases Nat.eq_or_lt_of_le h.few with hfull | hroom
  · left
    refine ⟨hfull, ?_⟩
    have hwrite : r.write = r.read := by
      rw [h.write, hfull, Nat.add_mod_right, Nat.mod_eq_of_lt h.read_lt]
    have hslot := h.used 0 (by omega)
    rw [Nat.add_zero, Nat.mod_eq_of_lt h.read_lt, ← hwrite] at hslot
    rw [Ring.push, hslot]
  · right
    have hslot := h.free q.length (Nat.le_refl _) hroom
    rw [← h.write] at hslot
    refine ⟨hroom, _, by rw [Ring.push, hslot], ?_⟩
    constructor
    · exact h.read_lt
    · rw [List.length_append, List.length_singleton]
      exact hroom
    · dsimp only
      rw [h.write, Nat.mod_add_mod, List.length_append, List.length_singleton, Nat.add_assoc]
    · intro i hi
      rw [List.length_append, List.length_singleton] at hi
      dsimp only
      by_cases hlast : i = q.length
      · subst hlast
        rw [← h.write, Function.update_self, List.getElem_concat_length rfl]
      · have hlt : i < q.length := by omega
        have hne : (r.read + i) % n ≠ r.write := by
          rw [h.write]
          exact fun heq => hlast (place_inj (by omega) hroom heq)
        rw [Function.update_of_ne hne, h.used i hlt, List.getElem_append_left hlt]
    · intro i hi hin
      rw [List.length_append, List.length_singleton] at hi
      dsimp only
      have hne : (r.read + i) % n ≠ r.write := by
        rw [h.write]
        intro heq
        have := place_inj hin hroom heq
        omega
      rw [Function.update_of_ne hne]
      exact h.free i (by omega) hin

/-- **`pop`** finds nothing in an empty queue, … -/
theorem Holds.pop_nil (h : Holds [] r) : r.pop = none := by
  have hslot := h.free 0 (Nat.le_refl _) (Nat.zero_lt_of_lt h.read_lt)
  rw [Nat.add_zero, Nat.mod_eq_of_lt h.read_lt] at hslot
  rw [Ring.pop, hslot]

/-- … and the first item of any other. -/
theorem Holds.pop_cons (h : Holds (a :: q) r) : ∃ r', r.pop = some (a, r') ∧ Holds q r' := by
  have hn : 0 < n := Nat.zero_lt_of_lt h.read_lt
  have hfew := h.few
  rw [List.length_cons] at hfew
  have hslot := h.used 0 (Nat.zero_lt_succ _)
  rw [Nat.add_zero, Nat.mod_eq_of_lt h.read_lt] at hslot
  have hplace : ∀ i, ((r.read + 1) % n + i) % n = (r.read + (i + 1)) % n := by
    intro i
    rw [Nat.mod_add_mod, Nat.add_assoc, Nat.add_comm 1 i]
  have hfirst : r.read = (r.read + 0) % n := by
    rw [Nat.add_zero, Nat.mod_eq_of_lt h.read_lt]
  refine ⟨_, by rw [Ring.pop, hslot]; rfl, ?_⟩
  constructor
  · exact Nat.mod_lt _ hn
  · omega
  · dsimp only
    rw [hplace, h.write, List.length_cons]
  · intro i hi
    dsimp only
    have hne : (r.read + (i + 1)) % n ≠ r.read := by
      intro heq
      have := place_inj (by omega) hn (heq.trans hfirst)
      omega
    rw [hplace, Function.update_of_ne hne, h.used (i + 1) (Nat.succ_lt_succ hi)]
    rfl
  · intro i hi hin
    dsimp only
    rw [hplace]
    by_cases hlast : i + 1 = n
    · have hsame : (r.read + (i + 1)) % n = r.read := by
        rw [hlast, Nat.add_mod_right, Nat.mod_eq_of_lt h.read_lt]
      rw [hsame, Function.update_self]
    · have hne : (r.read + (i + 1)) % n ≠ r.read := by
        intro heq
        have := place_inj (by omega) hn (heq.trans hfirst)
        omega
      rw [Function.update_of_ne hne]
      exact h.free (i + 1) (by rw [List.length_cons]; omega) (by omega)

/-- A ring stands for one queue only. -/
theorem Holds.unique {q' : List A} (h : Holds q r) (h' : Holds q' r) : q = q' := by
  have hlen : ∀ {p p' : List A}, Holds p r → Holds p' r → p.length ≤ p'.length := by
    intro p p' hp hp'
    by_contra hlt
    have hused := hp.used p'.length (Nat.lt_of_not_le hlt)
    rw [hp'.free p'.length (Nat.le_refl _) (Nat.lt_of_lt_of_le (Nat.lt_of_not_le hlt) hp.few)]
      at hused
    cases hused
  have heq : q.length = q'.length := Nat.le_antisymm (hlen h h') (hlen h' h)
  refine List.ext_getElem heq fun i hi hi' => ?_
  exact Option.some.inj ((h.used i hi).symm.trans (h'.used i hi'))

end RingBuffer
