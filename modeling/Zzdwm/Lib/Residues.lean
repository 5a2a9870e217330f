import Mathlib

/-!
# Words as sets of residues

A word of `w` bits holds a set of residues modulo `L` if each of its bits stands
for a residue of the set, and each residue has its bit among the lowest `L`.  The
bits above may stand for residues once more.  Shifting by one place and feeding
the bits in again `L` places apart turns the set by one, whatever stands above.

* `Holds`, `residues` — a word and the set that it holds;
* `Holds.left`, `Holds.right` — one step to the left or to the right;
* `Holds.rotateLeft`, `Holds.rotateRight` — rotating a word of `L` bits;
* `exists_turn` — some turn takes a residue anywhere.
-/

namespace Residues

variable {L w v : Nat} {A : Set (ZMod L)} {x y : BitVec w}

/-- The word holds the set of residues. -/
structure Holds (A : Set (ZMod L)) (x : BitVec w) : Prop where
  sound : ∀ p, x.getLsbD p = true → (p : ZMod L) ∈ A
  full : ∀ r < L, (r : ZMod L) ∈ A → x.getLsbD r = true

/-- The residues of the bits of a word. -/
def residues (L : Nat) (x : BitVec w) : Set (ZMod L) := {a | ∃ p, x.getLsbD p = true ∧ (p : ZMod L) = a}

/-- The set turned by `n`. -/
def turn (n : ZMod L) (A : Set (ZMod L)) : Set (ZMod L) := {a | a - n ∈ A}

@[simp] theorem mem_turn {n a : ZMod L} : a ∈ turn n A ↔ a - n ∈ A := Iff.rfl

@[simp] theorem turn_zero : turn 0 A = A := by
  ext a
  simp

theorem turn_turn (n m : ZMod L) : turn m (turn n A) = turn (n + m) A := by
  ext a
  rw [mem_turn, mem_turn, mem_turn, sub_sub, add_comm n m]

theorem natCast_inj_of_lt {r p : Nat} (hr : r < L) (hp : p < L) (h : (r : ZMod L) = (p : ZMod L)) :
    r = p := by
  rw [ZMod.natCast_eq_natCast_iff', Nat.mod_eq_of_lt hr, Nat.mod_eq_of_lt hp] at h
  exact h

/-- A word without bits from `L` on holds its residues. -/
theorem holds_residues (h : ∀ p, x.getLsbD p = true → p < L) : Holds (residues L x) x := by
  refine ⟨fun p hp => ⟨p, hp, rfl⟩, ?_⟩
  rintro r hr ⟨p, hp, heq⟩
  exact natCast_inj_of_lt hr (h p hp) heq.symm ▸ hp

/-- What a word holds, in terms of its lowest bits. -/
theorem Holds.getLsbD_iff (h : Holds A x) {r : Nat} (hr : r < L) :
    x.getLsbD r = true ↔ (r : ZMod L) ∈ A := ⟨h.sound r, h.full r hr⟩

theorem Holds.setWidth (h : Holds A x) : Holds A (x.setWidth L) := by
  refine ⟨fun p hp => h.sound p ?_, fun r hr hA => ?_⟩
  · rw [BitVec.getLsbD_setWidth, Bool.and_eq_true] at hp
    exact hp.2
  · rw [BitVec.getLsbD_setWidth, h.full r hr hA, decide_eq_true hr]
    rfl

/-- A word of `L` bits is what it holds. -/
theorem Holds.unique {x y : BitVec L} (hx : Holds A x) (hy : Holds A y) : x = y := by
  refine BitVec.eq_of_getLsbD_eq fun r hr => ?_
  rw [Bool.eq_iff_iff, hx.getLsbD_iff hr, hy.getLsbD_iff hr]

/-! ## One step -/

theorem natCast_pred {p : Nat} (hp : 0 < p) : ((p - 1 : Nat) : ZMod L) = (p : ZMod L) - 1 := by
  rw [Nat.cast_pred hp]

theorem natCast_around (p : Nat) (hL : 0 < L) : ((L - 1 + p : Nat) : ZMod L) = (p : ZMod L) - 1 := by
  rw [Nat.cast_add, Nat.cast_pred hL, ZMod.natCast_self]
  ring

/-- One place to the left, the bits coming in again at the right. -/
theorem Holds.left (h : Holds A x) (hL : 0 < L) (hw : L ≤ w) :
    Holds (turn 1 A) (x <<< 1 ||| x >>> (L - 1)) := by
  constructor
  · intro p hp
    rw [BitVec.getLsbD_or, Bool.or_eq_true, BitVec.getLsbD_shiftLeft,
      BitVec.getLsbD_ushiftRight] at hp
    rw [mem_turn]
    rcases hp with hp | hp
    · simp only [Bool.and_eq_true, Bool.not_eq_true', decide_eq_false_iff_not] at hp
      rw [← natCast_pred (by omega)]
      exact h.sound _ hp.2
    · rw [← natCast_around p hL]
      exact h.sound _ hp
  · intro r hr hA
    rw [mem_turn] at hA
    rw [BitVec.getLsbD_or, BitVec.getLsbD_shiftLeft, BitVec.getLsbD_ushiftRight]
    by_cases h0 : r = 0
    · subst h0
      rw [← natCast_around 0 hL] at hA
      rw [h.full (L - 1 + 0) (by omega) hA, Bool.or_true]
    · rw [← natCast_pred (by omega)] at hA
      rw [h.full (r - 1) (by omega) hA, decide_eq_true (show r < w by omega),
        decide_eq_false (show ¬ r < 1 by omega)]
      rfl

/-- One place to the right, the bits coming in again at the left. -/
theorem Holds.right (h : Holds A x) (hL : 0 < L) (hw : L ≤ w) :
    Holds (turn (-1) A) (x >>> 1 ||| x <<< (L - 1)) := by
  constructor
  · intro p hp
    rw [BitVec.getLsbD_or, Bool.or_eq_true, BitVec.getLsbD_shiftLeft,
      BitVec.getLsbD_ushiftRight] at hp
    rw [mem_turn, sub_neg_eq_add]
    rcases hp with hp | hp
    · have := h.sound _ hp
      rwa [Nat.cast_add, Nat.cast_one, add_comm] at this
    · simp only [Bool.and_eq_true, Bool.not_eq_true', decide_eq_false_iff_not] at hp
      have hcast : ((p - (L - 1) : Nat) : ZMod L) = (p : ZMod L) + 1 := by
        rw [Nat.cast_sub (by omega), Nat.cast_pred hL, ZMod.natCast_self]
        ring
      rw [← hcast]
      exact h.sound _ hp.2
  · intro r hr hA
    rw [mem_turn, sub_neg_eq_add] at hA
    rw [BitVec.getLsbD_or, BitVec.getLsbD_shiftLeft, BitVec.getLsbD_ushiftRight]
    by_cases hlast : r = L - 1
    · have hzero : (r : ZMod L) + 1 = ((0 : Nat) : ZMod L) := by
        rw [hlast, Nat.cast_pred hL, ZMod.natCast_self, Nat.cast_zero]
        ring
      rw [hzero] at hA
      rw [hlast, Nat.sub_self, h.full 0 hL hA, decide_eq_true (show L - 1 < w by omega),
        decide_eq_false (Nat.lt_irrefl _)]
      simp
    · rw [← Nat.cast_one, ← Nat.cast_add, Nat.add_comm] at hA
      rw [h.full (1 + r) (by omega) hA, Bool.true_or]

/-! ## Words of `L` bits -/

theorem holds_iff {x : BitVec L} :
    Holds A x ↔ ∀ r < L, (x.getLsbD r = true ↔ (r : ZMod L) ∈ A) := by
  refine ⟨fun h r hr => h.getLsbD_iff hr, fun h => ⟨fun p hp => ?_, fun r hr => (h r hr).mpr⟩⟩
  exact (h p (BitVec.lt_of_getLsbD hp)).mp hp

theorem natCast_mod (k : Nat) : ((k % L : Nat) : ZMod L) = (k : ZMod L) := ZMod.natCast_mod k L

theorem Holds.rotateLeft {x : BitVec L} (h : Holds A x) (k : Nat) :
    Holds (turn k A) (x.rotateLeft k) := by
  refine holds_iff.mpr fun r hr => ?_
  have hk : k % L < L := Nat.mod_lt _ (by omega)
  rw [BitVec.getLsbD_rotateLeft, mem_turn, ← natCast_mod k]
  by_cases hlow : r < k % L
  · have hcast : ((L - k % L + r : Nat) : ZMod L) = (r : ZMod L) - (k % L : Nat) := by
      rw [Nat.cast_add, Nat.cast_sub (Nat.le_of_lt hk), ZMod.natCast_self]
      ring
    rw [decide_eq_true hlow, cond_true, h.getLsbD_iff (by omega), hcast]
  · rw [decide_eq_false hlow, cond_false, decide_eq_true hr, Bool.true_and,
      h.getLsbD_iff (by omega), Nat.cast_sub (Nat.le_of_not_lt hlow)]

theorem Holds.rotateRight {x : BitVec L} (h : Holds A x) (k : Nat) :
    Holds (turn (-(k : ZMod L)) A) (x.rotateRight k) := by
  refine holds_iff.mpr fun r hr => ?_
  have hk : k % L < L := Nat.mod_lt _ (by omega)
  rw [BitVec.getLsbD_rotateRight, mem_turn, sub_neg_eq_add, ← natCast_mod k]
  by_cases hlow : r < L - k % L
  · rw [decide_eq_true hlow, cond_true, h.getLsbD_iff (by omega), Nat.cast_add, add_comm]
  · have hcast : ((r - (L - k % L) : Nat) : ZMod L) = (r : ZMod L) + (k % L : Nat) := by
      rw [Nat.cast_sub (Nat.le_of_not_lt hlow), Nat.cast_sub (Nat.le_of_lt hk), ZMod.natCast_self]
      ring
    rw [decide_eq_false hlow, cond_false, decide_eq_true hr, Bool.true_and,
      h.getLsbD_iff (by omega), hcast]

/-! ## Meeting a set -/

theorem exists_bit {x : BitVec w} (h : x ≠ 0#w) : ∃ p, x.getLsbD p = true := by
  by_contra hnone
  refine h (BitVec.eq_of_getLsbD_eq fun p _ => ?_)
  rw [BitVec.getLsbD_zero]
  exact Bool.eq_false_iff.mpr fun hp => hnone ⟨p, hp⟩

/-- Whether a word meets another one of low bits depends on what it holds alone. -/
theorem Holds.meets_iff {o : BitVec w} (h : Holds A x) (ho : ∀ p, o.getLsbD p = true → p < L) :
    x &&& o ≠ 0#w ↔ ∃ r, o.getLsbD r = true ∧ (r : ZMod L) ∈ A := by
  constructor
  · intro hne
    obtain ⟨p, hp⟩ := exists_bit hne
    rw [BitVec.getLsbD_and, Bool.and_eq_true] at hp
    exact ⟨p, hp.2, h.sound p hp.1⟩
  · rintro ⟨r, hr, hA⟩ hzero
    have hbit : (x &&& o).getLsbD r = true := by
      rw [BitVec.getLsbD_and, h.full r (ho r hr) hA, hr]
      rfl
    rw [hzero] at hbit
    simp at hbit

/-- Some turn of at least one step and at most `L` takes `a` to `b`. -/
theorem exists_turn (hL : 0 < L) (d : ZMod L) : ∃ k, 1 ≤ k ∧ k ≤ L ∧ (k : ZMod L) = d := by
  have : NeZero L := ⟨Nat.ne_of_gt hL⟩
  by_cases hd : d = 0
  · exact ⟨L, hL, Nat.le_refl L, by rw [hd, ZMod.natCast_self]⟩
  · refine ⟨d.val, ?_, Nat.le_of_lt (ZMod.val_lt d), ZMod.natCast_zmod_val d⟩
    exact Nat.pos_of_ne_zero fun hval => hd ((ZMod.val_eq_zero d).mp hval)

end Residues
