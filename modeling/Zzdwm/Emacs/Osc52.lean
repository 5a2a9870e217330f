import Zzdwm.Emacs.RegionWalks
import Zzdwm.Lib.Base64

/-!
# Regions for the clipboard (`osc52.c`)

`osc52send` measures the bytes of the region, copies them in a second pass and hands them to
the terminal in base 64.

* `base64Encode_eq` — the encoder writes base 64;
* `regionSizeBytes_eq`, `copyRegionBytes_eq` — both passes go over the same pieces;
* `osc52_carries_iff` — **the payload is the region** exactly if the region takes no character
  that is cut off at the end of its line.
-/

namespace Emacs

open Ascii (bytes)

/-- `OSC52_MAX_BYTES`, which is compared with a number of characters. -/
def OSC52_MAX_BYTES : Int := 1000000

section Source

variable (behind : LineId → Nat → Byte) (e : Ed) (region : REGION)

/-- `region_size_bytes`. -/
def regionSizeBytes : Nat :=
  walkRegion behind e (· + 1) (fun total text chunk => total + unblen text chunk)
    region.r_size.toNat region.r_pos.p region.r_pos.o region.r_size.toNat 0

/-- `copy_region_bytes`: what it puts into the buffer. -/
def copyRegionBytes : List Byte :=
  walkRegion behind e (· ++ [newline])
    (fun buffer text chunk => buffer ++ text.take (unblen text chunk))
    region.r_size.toNat region.r_pos.p region.r_pos.o region.r_size.toNat []

/-- `base64_length`. -/
def base64Length (length : Nat) : Nat := 4 * ((length + 2) / 3)

/-- `alphabet`. -/
def base64Alphabet : List Byte :=
  bytes "ABCDEFGHIJKLMNOPQRSTUVWXYZabcdefghijklmnopqrstuvwxyz0123456789+/"

/-- The loop of `base64_encode` and what follows it. -/
def base64EncodeLoop (input : List Byte) : Nat → Nat → List Byte → List Byte
  | 0, _, output => output
  | f + 1, input_index, output =>
      let a := (input.getD input_index 0).toNat
      let b := (input.getD (input_index + 1) 0).toNat
      let c := (input.getD (input_index + 2) 0).toNat
      let put (k : Nat) : Byte := base64Alphabet.getD k 0
      if input.length - input_index ≥ 3 then
        base64EncodeLoop input f (input_index + 3)
          (output ++ [put (a >>> 2), put ((a &&& 0x03) <<< 4 ||| b >>> 4),
            put ((b &&& 0x0f) <<< 2 ||| c >>> 6), put (c &&& 0x3f)])
      else if input.length - input_index = 1 then
        output ++ [put (a >>> 2), put ((a &&& 0x03) <<< 4), 0x3D, 0x3D]
      else if input.length - input_index = 2 then
        output ++ [put (a >>> 2), put ((a &&& 0x03) <<< 4 ||| b >>> 4),
          put ((b &&& 0x0f) <<< 2), 0x3D]
      else output

/-- `base64_encode`. -/
def base64Encode (input : List Byte) : List Byte :=
  base64EncodeLoop input (input.length + 1) 0 []

/-- `ttosc52`. -/
def ttosc52 (encoded : List Byte) : List Byte :=
  0x1B :: bytes "]52;c;" ++ encoded ++ [0x07]

/-- `osc52send`: what is written to the terminal. -/
def osc52send (osc52 : Bool) : Option (List Byte) :=
  if osc52 = false ∨ region.r_size > OSC52_MAX_BYTES then none
  else some (ttosc52 (base64Encode (copyRegionBytes behind e region)))

end Source

/-! ## The encoder -/

section Encoder

variable {a b k : Nat}

/-- The low bits of one byte in front of the high bits of the next. -/
theorem sextet_eq (hb : b / 2 ^ (8 - k) < 2 ^ k) :
    (a <<< k ||| b >>> (8 - k)) = a * 2 ^ k + b / 2 ^ (8 - k) := by
  rw [Nat.shiftRight_eq_div_pow, ← Nat.shiftLeft_add_eq_or_of_lt hb, Nat.shiftLeft_eq]

theorem first_sextet (a : Byte) : a.toNat >>> 2 = a.toNat / 4 := Nat.shiftRight_eq_div_pow _ 2

theorem second_sextet (a b : Byte) :
    (a.toNat &&& 0x03) <<< 4 ||| b.toNat >>> 4 = a.toNat % 4 * 16 + b.toNat / 16 := by
  have hb := b.toNat_lt
  have hlow : a.toNat &&& 0x03 = a.toNat % 4 := Nat.and_two_pow_sub_one_eq_mod a.toNat 2
  rw [hlow]
  exact sextet_eq (k := 4) (by omega)

theorem third_sextet (b c : Byte) :
    (b.toNat &&& 0x0f) <<< 2 ||| c.toNat >>> 6 = b.toNat % 16 * 4 + c.toNat / 64 := by
  have hc := c.toNat_lt
  have hlow : b.toNat &&& 0x0f = b.toNat % 16 := Nat.and_two_pow_sub_one_eq_mod b.toNat 4
  rw [hlow]
  exact sextet_eq (k := 2) (by omega)

theorem fourth_sextet (c : Byte) : c.toNat &&& 0x3f = c.toNat % 64 :=
  Nat.and_two_pow_sub_one_eq_mod c.toNat 6

theorem base64EncodeLoop_eq (input : List Byte) (f i : Nat) (output : List Byte)
    (hi : i ≤ input.length) (hf : input.length - i < f) :
    base64EncodeLoop input f i output = output ++ Base64.encode (input.drop i) := by
  induction f generalizing i output with
  | zero => exact absurd hf (Nat.not_lt_zero _)
  | succ f ih =>
      have hlen : (input.drop i).length = input.length - i := List.length_drop
      have hget : ∀ j, input.getD (i + j) 0 = (input.drop i).getD j 0 := fun j => by
        rw [List.getD_eq_getElem?_getD, List.getD_eq_getElem?_getD, List.getElem?_drop]
      have hzero := hget 0
      rw [Nat.add_zero] at hzero
      have hput : ∀ k, base64Alphabet.getD k 0 = Base64.digit k := fun _ => rfl
      rw [base64EncodeLoop, hzero, hget, hget]
      simp only [hput, first_sextet, second_sextet, third_sextet, fourth_sextet]
      match htext : input.drop i with
      | [] =>
          rw [htext, List.length_nil] at hlen
          rw [if_neg (by omega), if_neg (by omega), if_neg (by omega), Base64.encode,
            List.append_nil]
      | [a] =>
          rw [htext, List.length_singleton] at hlen
          rw [if_neg (by omega), if_pos hlen.symm, Base64.encode]
          have hbits := second_sextet a 0
          rw [UInt8.toNat_zero, Nat.zero_shiftRight, Nat.or_zero] at hbits
          refine congrArg (output ++ ·) ?_
          change [_, Base64.digit ((a.toNat &&& 0x03) <<< 4), _, _] = _
          rw [hbits]
          rfl
      | [a, b] =>
          rw [htext] at hlen
          change 2 = _ at hlen
          rw [if_neg (by omega), if_neg (by omega), if_pos hlen.symm, Base64.encode]
          have hbits := third_sextet b 0
          rw [UInt8.toNat_zero, Nat.zero_shiftRight, Nat.or_zero] at hbits
          refine congrArg (output ++ ·) ?_
          change [_, _, Base64.digit ((b.toNat &&& 0x0f) <<< 2), _] = _
          rw [hbits]
          rfl
      | a :: b :: c :: rest =>
          rw [htext, List.length_cons, List.length_cons, List.length_cons] at hlen
          have hdrop : input.drop (i + 3) = rest := by
            rw [← List.drop_drop, htext]
            rfl
          rw [if_pos (by omega), ih (i + 3) _ (by omega) (by omega), hdrop, List.append_assoc,
            Base64.encode]
          rfl

/-- The encoder writes base 64. -/
theorem base64Encode_eq (input : List Byte) : base64Encode input = Base64.encode input := by
  rw [base64Encode, base64EncodeLoop_eq input _ 0 [] (Nat.zero_le _) (by omega)]
  rfl

end Encoder

/-! ## The two passes -/

section Passes

variable {behind : LineId → Nat → Byte} {e : Ed} {region g : REGION} {as ps : List LineId}

theorem foldl_sizes (xs : List RegionPart) (hxs : ∀ x ∈ xs, x.InLine e) (n : Nat) :
    xs.foldl (RegionPart.act behind e (· + 1) fun total text chunk => total + unblen text chunk) n =
      n + (xs.flatMap (RegionPart.bytes behind e)).length := by
  induction xs generalizing n with
  | nil => rfl
  | cons x xs ih =>
      have hrest := fun y hy => hxs y (List.mem_cons_of_mem x hy)
      rw [List.foldl_cons, ih hrest, List.flatMap_cons, List.length_append, ← Nat.add_assoc]
      refine congrArg (· + _) ?_
      cases x with
      | eol => rfl
      | line p o k =>
          obtain ⟨-, -, -, hsize⟩ := RegionPart.bytes_eq behind (hxs _ List.mem_cons_self)
          exact congrArg (n + ·) (hsize p o k rfl)

theorem foldl_bytes (xs : List RegionPart) (buffer : List Byte) :
    xs.foldl (RegionPart.act behind e (· ++ [newline])
        fun buffer text chunk => buffer ++ text.take (unblen text chunk)) buffer =
      buffer ++ xs.flatMap (RegionPart.bytes behind e) := by
  induction xs generalizing buffer with
  | nil => exact (List.append_nil _).symm
  | cons x xs ih =>
      rw [List.foldl_cons, ih, List.flatMap_cons, ← List.append_assoc]
      refine congrArg (· ++ _) ?_
      cases x <;> rfl

variable (behind) (h : Linked e) (hr : e.Holds region as ps)

include h hr

theorem regionSizeBytes_eq : regionSizeBytes behind e region =
    ((e.regionPieces region).flatMap (RegionPart.bytes behind e)).length := by
  rw [regionSizeBytes, ← hr.head,
    walkRegion_eq h.nodup h.header hr.lines hr.offset hr.size (Nat.le_refl _),
    foldl_sizes _ (pieces_inLine _ _ _), Nat.zero_add, Ed.regionPieces, hr.from_]

theorem copyRegionBytes_eq : copyRegionBytes behind e region =
    (e.regionPieces region).flatMap (RegionPart.bytes behind e) := by
  rw [copyRegionBytes, ← hr.head,
    walkRegion_eq h.nodup h.header hr.lines hr.offset hr.size (Nat.le_refl _), foldl_bytes,
    List.nil_append, Ed.regionPieces, hr.from_]

end Passes

/-- The sizes are those of what is written, and what the terminal is sent is the region. -/
def Osc52Carries (behind : LineId → Nat → Byte) (e : Ed) (region : REGION) (osc52 : Bool) : Prop :=
  regionSizeBytes behind e region = (copyRegionBytes behind e region).length ∧
    base64Length (regionSizeBytes behind e region) =
      (base64Encode (copyRegionBytes behind e region)).length ∧
    ∀ sent ∈ osc52send behind e region osc52, ∃ payload, sent = ttosc52 payload ∧
      Base64.decode payload = some (e.textIn region).flatten

theorem ttosc52_inj {x y : List Byte} (h : ttosc52 x = ttosc52 y) : x = y :=
  List.append_cancel_left (List.append_cancel_right h)

/-- **The payload is the region**, and the sizes are right, exactly if the region takes no
character that is cut off at the end of its line: behind such a character the memory that
follows the line is sent. -/
theorem osc52_carries_iff {e : Ed} {g region : REGION} (behind : LineId → Nat → Byte) (osc52 : Bool)
    (h : Linked e) (hempty : (e.line e.b_linep).l_text = []) (hdot : Within e e.dot)
    (hmark : Within e e.curwp.w_mark) (hregion : getregion e g = (region, none)) :
    Osc52Carries behind e region osc52 ↔
      (osc52 = true → region.r_size ≤ OSC52_MAX_BYTES →
        ∀ x ∈ e.regionPieces region, x.Whole e) := by
  obtain ⟨as, ps, hr⟩ := holds_of_getregion h hempty hdot hmark hregion
  have hsize := regionSizeBytes_eq behind h hr
  have hcopy := copyRegionBytes_eq behind h hr
  have htext := hr.text h.header
  have hwhole : Base64.decode (base64Encode (copyRegionBytes behind e region)) =
      some (e.textIn region).flatten ↔ ∀ x ∈ e.regionPieces region, x.Whole e := by
    rw [base64Encode_eq, Base64.decode_encode, hcopy, Option.some_inj, ← htext]
    exact bytes_eq_iff behind (pieces_inLine _ _ _)
  have hlen : base64Length (regionSizeBytes behind e region) =
      (base64Encode (copyRegionBytes behind e region)).length := by
    rw [base64Encode_eq, Base64.length_encode, hcopy, hsize]
    rfl
  have hsame : regionSizeBytes behind e region = (copyRegionBytes behind e region).length := by
    rw [hsize, hcopy]
  rw [Osc52Carries, and_iff_right hsame, and_iff_right hlen, osc52send]
  by_cases hoff : osc52 = false ∨ region.r_size > OSC52_MAX_BYTES
  · rw [if_pos hoff]
    refine iff_of_true (fun sent hsent => nomatch hsent) fun hon hsmall => ?_
    rcases hoff with hoff | hlarge
    · rw [hoff] at hon
      exact nomatch hon
    · exact absurd hsmall (Int.not_le.mpr hlarge)
  · rw [if_neg hoff]
    obtain ⟨hon, hsmall⟩ := not_or.mp hoff
    rw [forall_prop_of_true (eq_true_of_ne_false hon),
      forall_prop_of_true (Int.not_lt.mp hsmall), ← hwhole]
    constructor
    · intro hsent
      obtain ⟨payload, heq, hdecode⟩ := hsent _ rfl
      rw [ttosc52_inj heq]
      exact hdecode
    · rintro hdecode sent hsent
      exact ⟨_, (Option.some.inj hsent).symm, hdecode⟩

/-- A region of two lines, with a character of two bytes in it. -/
def pastedRegion : Ed := Ed.holding [[0x61, 0xC3, 0xA9], [0x62]] ⟨2, 1⟩ ⟨3, 1⟩

theorem osc52_carries_pasted :
    Osc52Carries (fun _ _ => 0x41) pastedRegion ⟨⟨2, 1⟩, 3⟩ true ∧
      osc52send (fun _ _ => 0x41) pastedRegion ⟨⟨2, 1⟩, 3⟩ true =
        some (ttosc52 (bytes "w6kKYg==")) :=
  ⟨(osc52_carries_iff (g := ⟨⟨0, 0⟩, 0⟩) _ true
      (Ed.linked_holding (by decide)) rfl
      ⟨.inl (by decide), by decide⟩ ⟨.inl (by decide), by decide⟩ rfl).mpr
    fun _ _ => by decide, by decide⟩

/-- One line with the first byte of a character of three. -/
def cutRegion : Ed := Ed.holding [[0xE9]] ⟨2, 0⟩ ⟨2, 1⟩

/-- The editor sends two bytes that are not in the buffer. -/
theorem osc52_overreads :
    getregion cutRegion ⟨⟨0, 0⟩, 0⟩ = (⟨⟨2, 0⟩, 1⟩, none) ∧
      ¬ Osc52Carries (fun _ _ => 0x41) cutRegion ⟨⟨2, 0⟩, 1⟩ true := by
  refine ⟨rfl, fun hcarries => ?_⟩
  obtain ⟨payload, heq, hdecode⟩ := hcarries.2.2 (ttosc52 (bytes "6UFB")) (by decide)
  rw [← ttosc52_inj heq] at hdecode
  exact absurd hdecode (by decide)

end Emacs
