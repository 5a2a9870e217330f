import Mathlib

/-!
# Reference counts that wrap

Objects are found in a table without duplicates, references to them are kept
elsewhere, and each object has a counter of its references.  A counter is a
machine integer: it goes up and down by one and wraps.

* `Tally wrap table n refs` — every reference is to an object of the table, and
  the counters are the numbers of references, wrapped;
* `Tally.acquire`, `Tally.release` — a reference more or less;
* `Tally.insert`, `Tally.erase` — an object more or less;
* `Tally.eq_zero_iff` — what a counter tells that has not wrapped.
-/

namespace RefCount

variable {K : Type} [DecidableEq K]

/-- Counting up and down from a wrapped number. -/
structure Wraps (wrap : Int → Int) : Prop where
  zero : wrap 0 = 0
  add : ∀ x y, wrap (wrap x + y) = wrap (x + y)

/-- The counters of the objects in a table that references are kept to. -/
structure Tally (wrap : Int → Int) (table : List K) (n : K → Int) (refs : List K) : Prop where
  nodup : table.Nodup
  mem : ∀ k ∈ refs, k ∈ table
  count : ∀ k ∈ table, n k = wrap (refs.count k)

variable {wrap : Int → Int} {table refs refs' : List K} {n n' : K → Int} {k : K}

namespace Tally

/-- The order of the references does not matter. -/
theorem perm (h : Tally wrap table n refs) (hp : refs.Perm refs') : Tally wrap table n refs' where
  nodup := h.nodup
  mem := fun k hk => h.mem k (hp.mem_iff.mpr hk)
  count := fun k hk => by rw [h.count k hk, hp.count_eq]

/-- Only the counters of the table matter. -/
theorem congr (h : Tally wrap table n refs) (hn : ∀ k ∈ table, n' k = n k) :
    Tally wrap table n' refs where
  nodup := h.nodup
  mem := h.mem
  count := fun k hk => (hn k hk).trans (h.count k hk)

/-- A reference more. -/
theorem acquire (hw : Wraps wrap) (h : Tally wrap table n refs) (hk : k ∈ table) :
    Tally wrap table (Function.update n k (wrap (n k + 1))) (k :: refs) where
  nodup := h.nodup
  mem := List.forall_mem_cons.mpr ⟨hk, h.mem⟩
  count := fun j hj => by
    by_cases hjk : j = k
    · subst hjk
      rw [Function.update_self, h.count j hj, hw.add, List.count_cons_self]
      push_cast
      rfl
    · rw [Function.update_of_ne hjk, h.count j hj, List.count_cons_of_ne (Ne.symm hjk)]

/-- A reference less. -/
theorem release (hw : Wraps wrap) (h : Tally wrap table n (k :: refs)) :
    Tally wrap table (Function.update n k (wrap (n k - 1))) refs where
  nodup := h.nodup
  mem := (List.forall_mem_cons.mp h.mem).2
  count := fun j hj => by
    by_cases hjk : j = k
    · subst hjk
      rw [Function.update_self, h.count j hj, Int.sub_eq_add_neg, hw.add, List.count_cons_self]
      push_cast
      rw [Int.add_neg_cancel_right]
    · rw [Function.update_of_ne hjk, h.count j hj, List.count_cons_of_ne (Ne.symm hjk)]

/-- A new object, whose counter starts at zero. -/
theorem insert (hw : Wraps wrap) (h : Tally wrap table n refs) (hk : k ∉ table) (hn : n k = 0) :
    Tally wrap (k :: table) n refs where
  nodup := List.nodup_cons.mpr ⟨hk, h.nodup⟩
  mem := fun j hj => List.mem_cons_of_mem k (h.mem j hj)
  count := List.forall_mem_cons.mpr ⟨by
    have hrefs : k ∉ refs := fun hr => hk (h.mem k hr)
    rw [hn, List.count_eq_zero_of_not_mem hrefs]
    exact hw.zero.symm, h.count⟩

/-- An object goes that nothing refers to. -/
theorem erase (h : Tally wrap table n refs) (hk : k ∉ refs) :
    Tally wrap (table.erase k) n refs where
  nodup := h.nodup.erase k
  mem := fun j hj => by
    have hjk : j ≠ k := fun hjk => hk (hjk ▸ hj)
    exact (List.mem_erase_of_ne hjk).mpr (h.mem j hj)
  count := fun j hj => h.count j (List.mem_of_mem_erase hj)

/-- A counter that has not wrapped is zero where nothing refers to the object. -/
theorem eq_zero_iff (h : Tally wrap table n refs) (hk : k ∈ table)
    (hexact : wrap (refs.count k) = 0 → refs.count k = 0) (hw : Wraps wrap) :
    n k = 0 ↔ k ∉ refs := by
  rw [h.count k hk, ← List.count_eq_zero]
  refine ⟨hexact, fun hzero => ?_⟩
  rw [hzero]
  exact hw.zero

end Tally

end RefCount
