import Mathlib

/-!
# Bytes of texts

Texts are lists of bytes.

* `bytes` — the bytes of a string in UTF-8;
* `isDigit`, `isAlnum`, `isSpace` — the classes of the C locale;
* `decimal`, `value` — numbers in decimal digits, and back (`value_decimal`).
-/

namespace Ascii

abbrev Byte := UInt8

/-- The bytes of a text in UTF-8. -/
def bytes (s : String) : List Byte := s.toByteArray.data.toList

theorem bytes_eq (s : String) : bytes s = s.toList.flatMap String.utf8EncodeChar := by
  unfold bytes
  rw [← String.utf8Encode_toList]
  unfold List.utf8Encode
  simp

/-- A character below 128 is one byte, and that is below 128. -/
theorem utf8EncodeChar_ascii {c : Char} (h : c.toNat < 128) :
    String.utf8EncodeChar c = [c.toNat.toUInt8] ∧ c.toNat.toUInt8 < 0x80 := by
  refine ⟨?_, ?_⟩
  · simp [String.utf8EncodeChar]
    omega
  · rw [UInt8.lt_iff_toNat_lt]
    simp
    omega

/-- A property of all bytes of a text is checked at its characters. -/
theorem forall_bytes {s : String} {P : Byte → Prop} [DecidablePred P]
    (h : s.toList.all (fun c => c.toNat < 128 && P c.toNat.toUInt8) = true) :
    ∀ b ∈ bytes s, P b := by
  intro b hb
  rw [bytes_eq, List.mem_flatMap] at hb
  obtain ⟨c, hc, hbc⟩ := hb
  have hchar := List.all_eq_true.mp h c hc
  rw [Bool.and_eq_true, decide_eq_true_eq, decide_eq_true_eq] at hchar
  rw [(utf8EncodeChar_ascii hchar.1).1, List.mem_singleton] at hbc
  exact hbc ▸ hchar.2

theorem bytes_ne_nil {s : String} (h : s.toList ≠ []) : bytes s ≠ [] := by
  obtain ⟨c, t, hs⟩ := List.exists_cons_of_ne_nil h
  rw [bytes_eq, hs, List.flatMap_cons]
  exact List.append_ne_nil_of_left_ne_nil (by simp) _

def isDigit (b : Byte) : Bool := 0x30 ≤ b && b ≤ 0x39

def isAlnum (b : Byte) : Bool := isDigit b || 0x41 ≤ b && b ≤ 0x5A || 0x61 ≤ b && b ≤ 0x7A

def isSpace (b : Byte) : Bool := b = 0x20 || 0x09 ≤ b && b ≤ 0x0D

/-! ## Decimal digits -/

/-- A digit as a character. -/
def digit (d : Nat) : Byte := 0x30 + d.toUInt8

/-- A number in decimal digits. -/
def decimal (n : Nat) : List Byte := (Nat.toDigits 10 n).map fun c => c.toNat.toUInt8

/-- The number that digits stand for. -/
def value (digits : List Byte) : Nat := digits.foldl (fun n b => n * 10 + (b.toNat - 0x30)) 0

theorem digitChar_digit : ∀ d : Fin 10, (Nat.digitChar d).toNat.toUInt8 = digit d := by decide

theorem isDigit_digit : ∀ d : Fin 10, isDigit (digit d) = true := by decide

theorem digit_toNat : ∀ d : Fin 10, (digit d).toNat - 0x30 = d := by decide

/-- A number is its last digit behind the digits of the rest. -/
theorem decimal_eq (n : Nat) :
    decimal n = if n < 10 then [digit n] else decimal (n / 10) ++ [digit (n % 10)] := by
  unfold decimal
  rw [Nat.toDigits_eq_if (by decide)]
  split
  next h => exact congrArg (fun b => [b]) (digitChar_digit ⟨n, h⟩)
  next h =>
    rw [List.map_append]
    exact congrArg (fun b => _ ++ [b]) (digitChar_digit ⟨n % 10, Nat.mod_lt n (by decide)⟩)

theorem isDigit_of_mem_decimal {n : Nat} {b : Byte} (h : b ∈ decimal n) : isDigit b = true := by
  induction n using Nat.strongRecOn with
  | ind n ih =>
      rw [decimal_eq] at h
      split at h
      next hlt =>
        rw [List.mem_singleton.mp h]
        exact isDigit_digit ⟨n, hlt⟩
      next hge =>
        rcases List.mem_append.mp h with h | h
        · exact ih (n / 10) (by omega) h
        · rw [List.mem_singleton.mp h]
          exact isDigit_digit ⟨n % 10, Nat.mod_lt n (by decide)⟩

theorem decimal_ne_nil (n : Nat) : decimal n ≠ [] := by
  rw [decimal_eq]
  split
  · exact List.cons_ne_nil _ _
  · exact List.append_ne_nil_of_right_ne_nil _ (List.cons_ne_nil _ _)

theorem decimal_length_le {n k : Nat} (hk : 0 < k) (h : n < 10 ^ k) : (decimal n).length ≤ k := by
  unfold decimal
  rw [List.length_map]
  exact (Nat.length_toDigits_le_iff (by decide) hk).mpr h

theorem value_concat (digits : List Byte) (b : Byte) :
    value (digits ++ [b]) = value digits * 10 + (b.toNat - 0x30) := by
  rw [value, List.foldl_append]
  rfl

/-- **Digits are read back.** -/
theorem value_decimal (n : Nat) : value (decimal n) = n := by
  induction n using Nat.strongRecOn with
  | ind n ih =>
      rw [decimal_eq]
      split
      next hlt =>
        have hd : (digit n).toNat - 0x30 = n := digit_toNat ⟨n, hlt⟩
        have hone : value [digit n] = 0 * 10 + ((digit n).toNat - 0x30) := rfl
        rw [hone, hd]
        omega
      next hge =>
        have hd : (digit (n % 10)).toNat - 0x30 = n % 10 :=
          digit_toNat ⟨n % 10, Nat.mod_lt n (by decide)⟩
        rw [value_concat, ih (n / 10) (by omega), hd]
        omega

end Ascii
