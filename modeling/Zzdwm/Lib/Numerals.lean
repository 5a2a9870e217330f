import Zzdwm.Lib.Json

/-!
# Numbers at the start of a text

The C functions that read a number: blanks and a sign may stand in front of the digits, the
result has the limits of a machine word, and the rest of the text is given back.

* `strtol` — for base 10, and `strtol_digits`, `strtol_positive`;
* `strtoul` — for base 16, and `strtoul_digits`, `strtoul_shrinks`.
-/

namespace Numerals

open Ascii (Byte isSpace isDigit)
open Json (hexVal)

/-- A sign, if there is one: is it a minus? -/
def sign : List Byte → Bool × List Byte
  | [] => (false, [])
  | b :: s => if b = 0x2D then (true, s) else if b = 0x2B then (false, s) else (false, b :: s)

/-! ## Base 10 -/

/-- `strtol` for base 10: the number, and what follows it.  A text without digits gives zero and
is left as it is. -/
def strtol (s : List Byte) : Int × List Byte :=
  let (negative, rest) := sign (s.dropWhile isSpace)
  let digits := rest.takeWhile isDigit
  let value : Int := Ascii.value digits
  if digits = [] then (0, s)
  else
    (max (-2 ^ 63) (min (if negative then -value else value) (2 ^ 63 - 1)),
      rest.dropWhile isDigit)

theorem digit_plain (b : Byte) (h : isDigit b = true) :
    isSpace b = false ∧ b ≠ 0x2D ∧ b ≠ 0x2B := by
  have hall : ∀ n : Fin 256, isDigit (UInt8.ofNat n) = true →
      isSpace (UInt8.ofNat n) = false ∧ UInt8.ofNat n ≠ 0x2D ∧ UInt8.ofNat n ≠ 0x2B := by
    decide +kernel
  have hb := hall ⟨b.toNat, b.toNat_lt⟩
  rw [UInt8.ofNat_toNat] at hb
  exact hb h

/-- What is not part of a number ends it. -/
def EndsDigits (rest : List Byte) : Prop := ∀ b ∈ rest.head?, isDigit b = false

theorem takeWhile_digits {p : Byte → Bool} {digits rest : List Byte}
    (hdigits : ∀ b ∈ digits, p b = true) (hrest : ∀ b ∈ rest.head?, p b = false) :
    (digits ++ rest).takeWhile p = digits ∧ (digits ++ rest).dropWhile p = rest := by
  rw [List.takeWhile_append_of_pos hdigits, List.dropWhile_append_of_pos hdigits]
  cases rest with
  | nil => simp
  | cons b rest =>
      have hb : p b = false := hrest b rfl
      rw [List.takeWhile_cons_of_neg (by simp [hb]), List.dropWhile_cons_of_neg (by simp [hb])]
      simp

theorem strtol_digits {digits rest : List Byte} (hne : digits ≠ [])
    (hdigits : ∀ b ∈ digits, isDigit b = true) (hrest : EndsDigits rest) :
    strtol (digits ++ rest) = (min (Ascii.value digits : Int) (2 ^ 63 - 1), rest) := by
  obtain ⟨htake, hdrop⟩ := takeWhile_digits hdigits hrest
  obtain ⟨d, ds, rfl⟩ := List.exists_cons_of_ne_nil hne
  obtain ⟨hspace, hminus, hplus⟩ := digit_plain d (hdigits d List.mem_cons_self)
  have hfirst : (d :: ds ++ rest).dropWhile isSpace = d :: ds ++ rest :=
    List.dropWhile_cons_of_neg (by simp [hspace])
  have hsign : sign (d :: ds ++ rest) = (false, d :: ds ++ rest) := by
    rw [List.cons_append, sign, if_neg hminus, if_neg hplus]
  rw [strtol, hfirst, hsign]
  dsimp only
  rw [htake, hdrop, if_neg hne]
  simp only [Bool.false_eq_true, if_false, Prod.mk.injEq, and_true]
  omega

theorem strtol_negative {digits rest : List Byte} (hne : digits ≠ [])
    (hdigits : ∀ b ∈ digits, isDigit b = true) (hrest : EndsDigits rest) :
    strtol (0x2D :: (digits ++ rest)) = (max (-2 ^ 63) (-(Ascii.value digits : Int)), rest) := by
  obtain ⟨htake, hdrop⟩ := takeWhile_digits hdigits hrest
  have hfirst : (0x2D :: (digits ++ rest)).dropWhile isSpace = 0x2D :: (digits ++ rest) := rfl
  have hsign : sign (0x2D :: (digits ++ rest)) = (true, digits ++ rest) := rfl
  rw [strtol, hfirst, hsign]
  dsimp only
  rw [htake, hdrop, if_neg hne]
  simp only [if_true, Prod.mk.injEq, and_true]
  omega

/-- A text that is a positive number: blanks, a plus sign perhaps, and digits. -/
theorem strtol_positive {s rest : List Byte} {n : Int} (h : strtol s = (n, rest)) (hn : 0 < n)
    (hlimit : n < 2 ^ 63 - 1) :
    ∃ blanks plus digits, s = blanks ++ (plus ++ (digits ++ rest)) ∧
      (∀ b ∈ blanks, isSpace b = true) ∧ (plus = [] ∨ plus = [0x2B]) ∧ digits ≠ [] ∧
      (∀ b ∈ digits, isDigit b = true) ∧ (Ascii.value digits : Int) = n := by
  have hsplit := List.takeWhile_append_dropWhile (p := isSpace) (l := s)
  obtain ⟨plus, tail, htail, hplus, hsign⟩ : ∃ plus tail, s.dropWhile isSpace = plus ++ tail ∧
      (plus = [] ∨ plus = [0x2B] ∨ (sign (s.dropWhile isSpace)).1 = true) ∧
      (sign (s.dropWhile isSpace)).2 = tail := by
    cases s.dropWhile isSpace with
    | nil => exact ⟨[], [], rfl, Or.inl rfl, rfl⟩
    | cons b t =>
        by_cases hminus : b = 0x2D
        · have hsign : sign (b :: t) = (true, t) := if_pos hminus
          exact ⟨[b], t, rfl, Or.inr (Or.inr (by rw [hsign])), by rw [hsign]⟩
        · by_cases hp : b = 0x2B
          · have hsign : sign (b :: t) = (false, t) := by rw [sign, if_neg hminus, if_pos hp]
            exact ⟨[b], t, rfl, Or.inr (Or.inl (by rw [hp])), by rw [hsign]⟩
          · exact ⟨[], b :: t, rfl, Or.inl rfl, by rw [sign, if_neg hminus, if_neg hp]⟩
  have hdigits := List.takeWhile_append_dropWhile (p := isDigit) (l := tail)
  unfold strtol at h
  dsimp only at h
  rw [hsign] at h
  split at h
  · cases h
    exact absurd hn (by decide)
  next hne =>
    obtain ⟨hvalue, hrest⟩ := Prod.mk.inj h
    have hpositive : (sign (s.dropWhile isSpace)).1 = false := by
      by_contra hneg
      rw [Bool.not_eq_false] at hneg
      rw [hneg] at hvalue
      simp only [if_true] at hvalue
      omega
    rw [hpositive] at hvalue hplus
    simp only [Bool.false_eq_true, if_false] at hvalue
    refine ⟨s.takeWhile isSpace, plus, tail.takeWhile isDigit, ?_,
      fun b hb => List.mem_takeWhile_imp hb, ?_, hne, fun b hb => List.mem_takeWhile_imp hb,
      by omega⟩
    · rw [← hrest, hdigits, ← htail, hsplit]
    · rcases hplus with hnil | hplus | hbad
      · exact Or.inl hnil
      · exact Or.inr hplus
      · cases hbad

/-! ## Base 16 -/

def isXDigit (b : Byte) : Bool := (hexVal b).isSome

/-- The number that hexadecimal digits stand for. -/
def hexValue (digits : List Byte) : Nat :=
  digits.foldl (fun n b => n * 16 + (hexVal b).getD 0) 0

/-- `0x` goes before the digits only if a digit follows it. -/
def skipMark : List Byte → List Byte
  | z :: x :: d :: s =>
      if z = 0x30 ∧ (x = 0x78 ∨ x = 0x58) ∧ isXDigit d then d :: s else z :: x :: d :: s
  | s => s

/-- `strtoul` for base 16, on the bytes up to the end of the string: the number and what
follows it, or `none` if there is no digit. -/
def strtoul (s : List Byte) : Option (Nat × List Byte) :=
  let (negative, s) := sign (s.dropWhile isSpace)
  let s := skipMark s
  let digits := s.takeWhile isXDigit
  let value := hexValue digits
  if digits = [] then none
  else if 2 ^ 64 ≤ value then some (2 ^ 64 - 1, s.dropWhile isXDigit)
  else if negative then some ((2 ^ 64 - value) % 2 ^ 64, s.dropWhile isXDigit)
  else some (value, s.dropWhile isXDigit)

theorem skipMark_length (s : List Byte) : (skipMark s).length ≤ s.length := by
  unfold skipMark
  split
  · split <;> simp
  · exact Nat.le_refl _

theorem sign_length (s : List Byte) : (sign s).2.length ≤ s.length := by
  unfold sign
  split
  · exact Nat.le_refl _
  · split
    · simp
    · split <;> simp

/-- A number takes at least one byte. -/
theorem strtoul_shrinks {s rest : List Byte} {n : Nat} (h : strtoul s = some (n, rest)) :
    rest.length < s.length := by
  have hspace := (List.dropWhile_sublist (l := s) isSpace).length_le
  have hsign := sign_length (s.dropWhile isSpace)
  have hmark := skipMark_length (sign (s.dropWhile isSpace)).2
  have hsplit := congrArg List.length
    (List.takeWhile_append_dropWhile (p := isXDigit) (l := skipMark (sign (s.dropWhile isSpace)).2))
  rw [List.length_append] at hsplit
  have hrest : rest = (skipMark (sign (s.dropWhile isSpace)).2).dropWhile isXDigit ∧
      (skipMark (sign (s.dropWhile isSpace)).2).takeWhile isXDigit ≠ [] := by
    unfold strtoul at h
    dsimp only at h
    split at h
    · cases h
    next hne =>
      split at h
      · cases h
        exact ⟨rfl, hne⟩
      · split at h <;> cases h <;> exact ⟨rfl, hne⟩
  have hdigit := List.length_pos_iff.mpr hrest.2
  rw [hrest.1]
  omega

theorem xDigit_plain (b : Byte) (h : isXDigit b = true) :
    isSpace b = false ∧ b ≠ 0x2D ∧ b ≠ 0x2B ∧ b ≠ 0x78 ∧ b ≠ 0x58 := by
  have hall : ∀ n : Fin 256, isXDigit (UInt8.ofNat n) = true →
      isSpace (UInt8.ofNat n) = false ∧ UInt8.ofNat n ≠ 0x2D ∧ UInt8.ofNat n ≠ 0x2B ∧
        UInt8.ofNat n ≠ 0x78 ∧ UInt8.ofNat n ≠ 0x58 := by
    decide +kernel
  have hb := hall ⟨b.toNat, b.toNat_lt⟩
  rw [UInt8.ofNat_toNat] at hb
  exact hb h

/-- `x` does not follow the first byte. -/
theorem skipMark_self {z x : Byte} {s : List Byte} (hx : x ≠ 0x78 ∧ x ≠ 0x58) :
    skipMark (z :: x :: s) = z :: x :: s := by
  cases s with
  | nil => rfl
  | cons d s => exact if_neg fun h => h.2.1.elim hx.1 hx.2

/-- Digits are read up to a byte that is no digit, nor an `x`. -/
theorem strtoul_digits {digits : List Byte} (hne : digits ≠ [])
    (hdigits : ∀ b ∈ digits, isXDigit b = true) (hvalue : hexValue digits < 2 ^ 64) {b : Byte}
    (hb : isXDigit b = false) (hx : b ≠ 0x78 ∧ b ≠ 0x58) (rest : List Byte) :
    strtoul (digits ++ b :: rest) = some (hexValue digits, b :: rest) := by
  obtain ⟨htake, hdrop⟩ := @takeWhile_digits isXDigit digits (b :: rest) hdigits (by simp [hb])
  obtain ⟨d, ds, rfl⟩ := List.exists_cons_of_ne_nil hne
  obtain ⟨hd, hds⟩ := List.forall_mem_cons.mp hdigits
  obtain ⟨hspace, hminus, hplus, -, -⟩ := xDigit_plain d hd
  have hfirst : (d :: ds ++ b :: rest).dropWhile isSpace = d :: ds ++ b :: rest :=
    List.dropWhile_cons_of_neg (by simp [hspace])
  have hsign : sign (d :: ds ++ b :: rest) = (false, d :: ds ++ b :: rest) := by
    rw [List.cons_append, sign, if_neg hminus, if_neg hplus]
  have hskip : skipMark (d :: ds ++ b :: rest) = d :: ds ++ b :: rest := by
    cases ds with
    | nil => exact skipMark_self hx
    | cons e ds =>
        obtain ⟨-, -, -, hx, hX⟩ := xDigit_plain e (hds e List.mem_cons_self)
        exact skipMark_self ⟨hx, hX⟩
  rw [strtoul, hfirst, hsign]
  dsimp only
  rw [hskip, htake, hdrop, if_neg hne, if_neg (Nat.not_le_of_lt hvalue)]
  rfl

end Numerals
