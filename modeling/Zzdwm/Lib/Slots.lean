import Mathlib

/-!
# Arrays with a count

An array whose first elements are in use, and how many those are.  Elements are pushed at the
end, moved down over one that goes, and swept out by a condition.

* `entries` — the elements in use;
* `put`, `shift` — an assignment, and a move down by one place;
* `push` — one element more, in an array of some length;
* `sweep` — the loop that takes out elements, and keeps a position in between;
* `recent` — what is left of a list that may not grow beyond a length;
* `entries_sweep`, `sweep_cursor` — what the loop leaves;
* `entries_push` — an array that is pushed to holds the most recent elements.
-/

namespace Slots

variable {α : Type}

/-- The elements in use. -/
def entries (a : Nat → α) (count : Nat) : List α := (List.range count).map a

def put (a : Nat → α) (i : Nat) (x : α) : Nat → α := Function.update a i x

/-- The `n` elements behind place `i` move down by one place. -/
def shift (a : Nat → α) (i n : Nat) : Nat → α :=
  fun j => if i ≤ j ∧ j < i + n then a (j + 1) else a j

/-- An element more; a full array of `n` elements loses its first one. -/
def push (n : Nat) (a : Nat → α) (count : Nat) (x : α) : (Nat → α) × Nat :=
  let (a, count) := if count = n then (shift a 0 (n - 1), count - 1) else (a, count)
  (put a count x, count + 1)

variable {a b : Nat → α} {i k n count : Nat} {x : α} {p : α → Bool}

@[simp] theorem length_entries (a : Nat → α) (count : Nat) : (entries a count).length = count := by
  simp [entries]

@[simp] theorem getElem_entries (h : i < (entries a count).length) :
    (entries a count)[i] = a i := by
  simp [entries]

@[simp] theorem entries_zero (a : Nat → α) : entries a 0 = [] := rfl

theorem entries_succ (a : Nat → α) (count : Nat) :
    entries a (count + 1) = entries a count ++ [a count] := by
  simp [entries, List.range_succ]

theorem entries_congr (h : ∀ j < count, a j = b j) : entries a count = entries b count := by
  refine List.ext_getElem (by simp) fun j hj _ => ?_
  rw [length_entries] at hj
  simpa using h j hj

theorem entries_put (a : Nat → α) (count : Nat) (x : α) :
    entries (put a count x) (count + 1) = entries a count ++ [x] := by
  have hold : entries (put a count x) count = entries a count := by
    refine entries_congr fun j hj => ?_
    rw [put, Function.update_of_ne (Nat.ne_of_lt hj)]
  rw [entries_succ, hold, put, Function.update_self]

/-- An element goes when the ones behind it move down. -/
theorem entries_shift (hi : i < count) (hk : count ≤ i + k + 1) :
    entries (shift a i k) (count - 1) = (entries a count).eraseIdx i := by
  have hlength : ((entries a count).eraseIdx i).length = count - 1 := by
    rw [List.length_eraseIdx, length_entries, if_pos hi]
  refine List.ext_getElem (by rw [length_entries, hlength]) fun j hj hj' => ?_
  rw [length_entries] at hj
  rw [getElem_entries, List.getElem_eraseIdx]
  unfold shift
  split
  next hmoved => rw [dif_neg (by omega), getElem_entries]
  next hstays => rw [dif_pos (by omega), getElem_entries]

theorem entries_shift_zero (hcount : 0 < count) (hk : count ≤ k + 1) :
    entries (shift a 0 k) (count - 1) = (entries a count).tail := by
  rw [entries_shift hcount (by omega), List.eraseIdx_zero]

/-! ## Taking elements out -/

/-- From place `i` on the elements with a property are taken out.  The cursor stands between two
elements, and goes down when one below it goes. -/
def sweep (p : α → Bool) : Nat → Nat → (Nat → α) → Nat → Nat → (Nat → α) × Nat × Nat
  | 0, _, a, count, cursor => (a, count, cursor)
  | fuel + 1, i, a, count, cursor =>
      if i < count then
        if p (a i) then
          sweep p fuel i (shift a i (count - i - 1)) (count - 1)
            (if i < cursor then cursor - 1 else cursor)
        else sweep p fuel (i + 1) a count cursor
      else (a, count, cursor)

/-- What the loop leaves: the elements in front of its place, and of the others those without the
property. -/
theorem entries_sweep (fuel : Nat) (hfuel : count - i ≤ fuel) (hi : i ≤ count) (cursor : Nat) :
    entries (sweep p fuel i a count cursor).1 (sweep p fuel i a count cursor).2.1 =
      (entries a count).take i ++ ((entries a count).drop i).filter (!p ·) := by
  induction fuel generalizing i a count cursor with
  | zero =>
      have hnil : (entries a count).drop i = [] := List.drop_eq_nil_of_le (by simp; omega)
      have hall : (entries a count).take i = entries a count :=
        List.take_of_length_le (by simp; omega)
      rw [sweep, hnil, hall]
      simp
  | succ fuel ih =>
      rw [sweep]
      split
      next hlt =>
        have hlt' : i < (entries a count).length := by simpa using hlt
        have hdrop : (entries a count).drop i = a i :: (entries a count).drop (i + 1) := by
          rw [List.drop_eq_getElem_cons hlt', getElem_entries]
        split
        next hp =>
          rw [ih (by omega) (by omega), entries_shift hlt (by omega), hdrop,
            List.filter_cons_of_neg (by simp [hp]), List.eraseIdx_eq_take_drop_succ,
            List.take_append_of_le_length (by simp; omega), List.take_take, Nat.min_self,
            List.drop_append_of_le_length (by simp; omega), List.drop_take_self, List.nil_append]
        next hp =>
          rw [ih (by omega) (by omega), hdrop, List.filter_cons_of_pos (by simp [hp]),
            List.take_succ_eq_append_getElem hlt', getElem_entries, List.append_assoc]
          rfl
      next hge =>
        have hnil : (entries a count).drop i = [] := List.drop_eq_nil_of_le (by simp; omega)
        have hall : (entries a count).take i = entries a count :=
          List.take_of_length_le (by simp; omega)
        rw [hnil, hall]
        simp

/-- A cursor within the elements stays within them. -/
theorem sweep_cursor (fuel : Nat) {cursor : Nat} (h : cursor ≤ count) :
    (sweep p fuel i a count cursor).2.2 ≤ (sweep p fuel i a count cursor).2.1 := by
  induction fuel generalizing i a count cursor with
  | zero => exact h
  | succ fuel ih =>
      rw [sweep]
      split
      · split
        · refine ih ?_
          split <;> omega
        · exact ih h
      · exact h

/-! ## The most recent elements -/

/-- The last `n` elements. -/
def recent (n : Nat) (l : List α) : List α := l.drop (l.length - n)

theorem recent_of_le {l : List α} (h : l.length ≤ n) : recent n l = l := by
  rw [recent, Nat.sub_eq_zero_of_le h, List.drop_zero]

/-- One more element in a full list: the oldest one goes. -/
theorem recent_concat {l : List α} (h : l.length = n) (hn : 0 < n) (x : α) :
    recent n (l ++ [x]) = l.tail ++ [x] := by
  have hone : (l ++ [x]).length - n = 1 := by
    rw [List.length_append, List.length_singleton]
    omega
  rw [recent, hone, List.drop_append_of_le_length (by omega), List.drop_one]

theorem push_count (h : count ≤ n) (hn : 0 < n) (a : Nat → α) (x : α) :
    (push n a count x).2 ≤ n := by
  unfold push
  dsimp only
  split
  · dsimp only
    omega
  · dsimp only
    omega

/-- What is pushed is among the most recent elements. -/
theorem entries_push (h : count ≤ n) (hn : 0 < n) (a : Nat → α) (x : α) :
    entries (push n a count x).1 (push n a count x).2 = recent n (entries a count ++ [x]) := by
  unfold push
  dsimp only
  split
  next hfull =>
    dsimp only
    rw [entries_put, entries_shift_zero (by omega) (by omega),
      recent_concat (by rw [length_entries, hfull]) hn]
  next hroom =>
    dsimp only
    rw [entries_put, recent_of_le]
    rw [List.length_append, length_entries, List.length_singleton]
    omega

end Slots
