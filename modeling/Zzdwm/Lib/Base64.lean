import Zzdwm.Lib.Ascii

/-!
# Base 64

Texts of bytes written in base 64: three bytes as four digits, the last group filled up with
padding.

* `encode`, `decode` — the writer, and a reader that takes padding at the end only;
* `length_encode` — four digits for every three bytes that are begun;
* `decode_encode` — what is written is read back.
-/

namespace Base64

open Ascii

/-- The digits, in the order of their values. -/
def alphabet : List Byte :=
  bytes "ABCDEFGHIJKLMNOPQRSTUVWXYZabcdefghijklmnopqrstuvwxyz0123456789+/"

def digit (k : Nat) : Byte := alphabet.getD k 0

def pad : Byte := 0x3D

/-- The value of a digit. -/
def value (d : Byte) : Option Nat := alphabet.idxOf? d

/-- The four digits of a group of three bytes, as their values. -/
def group (a b c : Byte) : List Nat :=
  [a.toNat / 4, a.toNat % 4 * 16 + b.toNat / 16, b.toNat % 16 * 4 + c.toNat / 64, c.toNat % 64]

/-- Write a text. -/
def encode : List Byte → List Byte
  | a :: b :: c :: rest => (group a b c).map digit ++ encode rest
  | [a, b] => ((group a b 0).take 3).map digit ++ [pad]
  | [a] => ((group a 0 0).take 2).map digit ++ [pad, pad]
  | [] => []

/-- The bytes of a group. -/
def ungroup (w x y z : Nat) : List Byte :=
  [UInt8.ofNat (w * 4 + x / 16), UInt8.ofNat (x % 16 * 16 + y / 4), UInt8.ofNat (y % 4 * 64 + z)]

/-- Read a text. -/
def decode : List Byte → Option (List Byte)
  | [] => some []
  | w :: x :: y :: z :: rest =>
      if z = pad then
        if rest ≠ [] then none
        else if y = pad then
          match value w, value x with
          | some w, some x => if x % 16 = 0 then some ((ungroup w x 0 0).take 1) else none
          | _, _ => none
        else
          match value w, value x, value y with
          | some w, some x, some y => if y % 4 = 0 then some ((ungroup w x y 0).take 2) else none
          | _, _, _ => none
      else
        match value w, value x, value y, value z, decode rest with
        | some w, some x, some y, some z, some rest => some (ungroup w x y z ++ rest)
        | _, _, _, _, _ => none
  | _ => none

/-! ## Round trip -/

theorem digits : ∀ k < 64, value (digit k) = some k ∧ digit k ≠ pad := by decide

theorem group_lt (a b c : Byte) : ∀ k ∈ group a b c, k < 64 := by
  have ha := a.toNat_lt
  have hb := b.toNat_lt
  have hc := c.toNat_lt
  intro k hk
  simp only [group, List.mem_cons, List.not_mem_nil, or_false] at hk
  omega

theorem ungroup_group (a b c : Byte) :
    ungroup (a.toNat / 4) (a.toNat % 4 * 16 + b.toNat / 16) (b.toNat % 16 * 4 + c.toNat / 64)
      (c.toNat % 64) = [a, b, c] := by
  have ha := a.toNat_lt
  have hb := b.toNat_lt
  have hc := c.toNat_lt
  have hfirst : a.toNat / 4 * 4 + (a.toNat % 4 * 16 + b.toNat / 16) / 16 = a.toNat := by omega
  have hsecond : (a.toNat % 4 * 16 + b.toNat / 16) % 16 * 16 +
      (b.toNat % 16 * 4 + c.toNat / 64) / 4 = b.toNat := by omega
  have hthird : (b.toNat % 16 * 4 + c.toNat / 64) % 4 * 64 + c.toNat % 64 = c.toNat := by omega
  rw [ungroup, hfirst, hsecond, hthird, UInt8.ofNat_toNat, UInt8.ofNat_toNat, UInt8.ofNat_toNat]

theorem decode_cons (a b c : Byte) (rest : List Byte) :
    decode ((group a b c).map digit ++ rest) = (decode rest).map ([a, b, c] ++ ·) := by
  have hlt := group_lt a b c
  simp only [group, List.forall_mem_cons] at hlt
  obtain ⟨hw, hx, hy, hz, -⟩ := hlt
  have hz' := digits _ hz
  simp only [group, List.map_cons, List.map_nil, List.cons_append, List.nil_append]
  rw [decode, if_neg hz'.2, (digits _ hw).1, (digits _ hx).1, (digits _ hy).1, hz'.1]
  cases decode rest with
  | none => rfl
  | some rest => exact congrArg (fun text => some (text ++ rest)) (ungroup_group a b c)

/-- **What is written is read back.** -/
theorem decode_encode (text : List Byte) : decode (encode text) = some text := by
  induction text using encode.induct with
  | case1 a b c rest ih =>
      rw [encode, decode_cons, ih]
      rfl
  | case2 a b =>
      have hlt := group_lt a b 0
      simp only [group, List.forall_mem_cons] at hlt
      obtain ⟨hw, hx, hy, -⟩ := hlt
      have hzero : (b.toNat % 16 * 4 + (0 : Byte).toNat / 64) % 4 = 0 := by
        rw [UInt8.toNat_zero]
        omega
      simp only [encode, group, List.take_succ_cons, List.take_zero, List.map_cons, List.map_nil,
        List.cons_append, List.nil_append]
      rw [decode, if_pos rfl, if_neg (not_not_intro rfl), if_neg (digits _ hy).2, (digits _ hw).1,
        (digits _ hx).1, (digits _ hy).1]
      dsimp only
      have hbytes := ungroup_group a b 0
      rw [UInt8.toNat_zero] at hbytes
      rw [if_pos hzero, UInt8.toNat_zero, hbytes]
      rfl
  | case3 a =>
      have hlt := group_lt a 0 0
      simp only [group, List.forall_mem_cons] at hlt
      obtain ⟨hw, hx, -⟩ := hlt
      have hzero : (a.toNat % 4 * 16 + (0 : Byte).toNat / 16) % 16 = 0 := by
        rw [UInt8.toNat_zero]
        omega
      simp only [encode, group, List.take_succ_cons, List.take_zero, List.map_cons, List.map_nil,
        List.cons_append, List.nil_append]
      rw [decode, if_pos rfl, if_neg (not_not_intro rfl), if_pos rfl, (digits _ hw).1,
        (digits _ hx).1]
      dsimp only
      have hbytes := ungroup_group a 0 0
      rw [UInt8.toNat_zero] at hbytes
      rw [if_pos hzero, UInt8.toNat_zero, hbytes]
      rfl
  | case4 => rfl

theorem length_encode (text : List Byte) :
    (encode text).length = 4 * ((text.length + 2) / 3) := by
  induction text using encode.induct with
  | case1 a b c rest ih =>
      rw [encode, List.length_append, ih]
      simp only [group, List.length_map, List.length_cons, List.length_nil]
      omega
  | case2 a b => simp [encode, group]
  | case3 a => simp [encode, group]
  | case4 => rfl

end Base64
