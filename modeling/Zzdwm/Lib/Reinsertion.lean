import Zzdwm.Lib.Journal

/-!
# Putting words back

Words are taken out of a text at the start of a row, and put back at the position
where they ended, which is looked for in what is left.  That is a wrong place, but
the text comes out right if it does not matter there.

* `eq_of_comm` — words that commute and have as many breaks are equal;
* `putBack_iff` — **putting words back** where they ended restores the text in two
  cases only.
-/

namespace Journal

variable {A : Type} {brk : A → Bool} {l x d p q y : List A}

/-- How many elements are in front of the next break. -/
def ahead (brk : A → Bool) (x : List A) : Nat := (x.takeWhile fun a => !brk a).length

/-- A word that commutes with one without breaks has none. -/
theorem row_eq_zero_of_comm (hy : y ≠ []) (hrow : row brk y = 0) (h : y ++ d = d ++ y) :
    row brk d = 0 := by
  obtain ⟨n, hn⟩ : ∃ n, d.length = n := ⟨_, rfl⟩
  induction n using Nat.strong_induction_on generalizing d with
  | _ n ih =>
    rcases List.append_eq_append_iff.mp h with ⟨v, hd, hyv⟩ | ⟨v, hy', -⟩
    · have hcomm : y ++ v = v ++ y := hd.symm.trans hyv
      have hshort : v.length < n := by
        have hpos := List.length_pos_iff.mpr hy
        rw [hd, List.length_append] at hn
        omega
      rw [hd, row_append, hrow, ih v.length hshort hcomm rfl]
    · rw [hy', row_append] at hrow
      omega

/-- **Commuting words** with the same number of breaks, and at least one, are equal. -/
theorem eq_of_comm (h : x ++ d = d ++ x) (hrow : row brk x = row brk d) (hpos : 0 < row brk d) :
    x = d := by
  have hhalf : ∀ {x d : List A}, x ++ d = d ++ x → row brk x = row brk d → 0 < row brk d →
      ∀ v, d = x ++ v → v = [] := by
    intro x d h hrow hpos v hd
    by_contra hv
    have hcomm : x ++ v = v ++ x := by
      rw [hd, List.append_assoc] at h
      exact List.append_cancel_left h
    have hzero : row brk v = 0 := by
      rw [hd, row_append] at hrow
      omega
    have hx := row_eq_zero_of_comm hv hzero hcomm.symm
    omega
  rcases List.append_eq_append_iff.mp h with ⟨v, hd, -⟩ | ⟨v, hx, -⟩
  · rw [hd, hhalf h hrow hpos v hd, List.append_nil]
  · rw [hx, hhalf h.symm hrow.symm (by omega) v hx, List.append_nil]

/-- Elements without breaks are in front of the next break. -/
theorem length_le_ahead (hrow : row brk x = 0) (y : List A) : x.length ≤ ahead brk (x ++ y) := by
  have hall : ∀ a ∈ x, (!brk a) = true := by
    intro a ha
    have := List.countP_eq_zero.mp hrow a ha
    simpa using this
  rw [ahead, List.takeWhile_append_of_pos hall, List.length_append]
  exact Nat.le_add_right _ _

/-- The place where words are put back is behind the place where they were taken out. -/
theorem putBack_after (hcol : col brk l = 0) (htext : p ++ q = l ++ x)
    (hrow : row brk p = row brk (l ++ d)) : ∃ v, p = l ++ v ∧ x = v ++ q := by
  rcases List.append_eq_append_iff.mp htext with ⟨v, hl, hq⟩ | ⟨v, hp, hx⟩
  · rw [row_append, hl, row_append] at hrow
    have hv : row brk v = 0 := by omega
    rw [hl, col_append_of_row hv] at hcol
    have hnil : v = [] := List.eq_nil_of_length_eq_zero (by omega)
    subst hnil
    exact ⟨[], by rw [hl, List.append_nil, List.append_nil], hq.symm⟩
  · exact ⟨v, hp, hx⟩

/-- **Putting words back.**  The words `d` are taken out behind `l`, which ends a row, and
put back between `p` and `q`, which is at their old end or, in a row that is too short, at
its start.  The text is restored if they are a part of one row that is too short now, or if
a copy of them follows. -/
theorem putBack_iff (hcol : col brk l = 0) (htext : p ++ q = l ++ x) (hq : q ≠ [])
    (hrow : row brk p = row brk (l ++ d))
    (hpos : col brk p = col brk (l ++ d) ∨ col brk p = 0 ∧ ahead brk q < col brk (l ++ d)) :
    p ++ d ++ q = l ++ d ++ x ↔
      (row brk d = 0 ∧ ahead brk x < d.length) ∨ ∃ y, y ≠ [] ∧ x = d ++ y := by
  obtain ⟨v, rfl, rfl⟩ := putBack_after hcol htext hrow
  have hrows : row brk v = row brk d := by
    rw [row_append, row_append] at hrow
    omega
  constructor
  · intro heq
    have hcomm : v ++ d = d ++ v := by
      have hall : (v ++ d) ++ q = (d ++ v) ++ q := by
        simp only [List.append_assoc] at heq ⊢
        exact List.append_cancel_left heq
      exact List.append_cancel_right hall
    by_cases hzero : row brk d = 0
    · have hv : row brk v = 0 := by omega
      rw [col_append_of_row hv, col_append_of_row hzero, hcol] at hpos
      rcases hpos with hlen | ⟨hlen, hshort⟩
      · have hsame : v = d := (List.append_inj hcomm (by omega)).1
        exact .inr ⟨q, hq, by rw [hsame]⟩
      · have hnil : v = [] := List.eq_nil_of_length_eq_zero (by omega)
        subst hnil
        refine .inl ⟨hzero, ?_⟩
        rw [List.nil_append]
        omega
    · exact .inr ⟨q, hq, by rw [eq_of_comm hcomm hrows (by omega)]⟩
  · rintro (⟨hzero, hshort⟩ | ⟨y, -, hy⟩)
    · have hv : row brk v = 0 := by omega
      have hle := length_le_ahead hv q
      rw [col_append_of_row hv, col_append_of_row hzero, hcol] at hpos
      have hnil : v = [] := List.eq_nil_of_length_eq_zero (by omega)
      subst hnil
      simp
    · have hsplit : (l ++ d) ++ y = (l ++ v) ++ q := by
        rw [List.append_assoc, List.append_assoc, hy]
      have hsame : v = d := by
        rcases hpos with hpos | ⟨hpos, hshort⟩
        · have heq := prefix_of_pos hsplit hrow.symm (n := 0) (by omega)
          rw [List.take_zero, List.append_nil] at heq
          exact (List.append_cancel_left heq).symm
        · -- the rest of the row would be as long as the column
          have heq := prefix_of_pos hsplit hrow.symm (n := col brk (l ++ d)) (by omega)
          have hnone : row brk (q.take (col brk (l ++ d))) = 0 := by
            have := congrArg (row brk) heq
            rw [row_append (l ++ v)] at this
            omega
          have hlen := congrArg (col brk) heq
          rw [col_append_of_row hnone, hpos] at hlen
          have hle := length_le_ahead hnone (q.drop (col brk (l ++ d)))
          rw [List.take_append_drop] at hle
          omega
      rw [hsame]
      simp [List.append_assoc]

end Journal
