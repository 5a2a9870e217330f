import Zzdwm.Emacs.Columns

/-!
# Writing and reading characters (`utf8.c`)

* `Leads`, `trail_bits` — the bytes that `uputc` stores, and the bits of the code in them;
* `ugetc_uputc` — **what `uputc` writes is read back** by `ugetc`, whatever follows it;
* `utf8_codes` — the same for any number of codes, one behind the other.
-/

namespace Emacs

/-- `ugetc (s, n, &len)`. -/
def ugetcAt (s : List Byte) (n : Nat) : Nat × Nat := ugetc (s.drop (uoffset s n))

/-! ## The bytes of a code -/

/-- The bits of a byte that continues a character. -/
theorem trail_bits (x : Nat) : (trail x).toNat &&& 0x3f = x % 0x40 := by
  have hall : ∀ y < 0x40, (UInt8.ofNat (0x80 ||| y)).toNat &&& 0x3f = y := by decide
  unfold trail
  rw [Nat.and_two_pow_sub_one_eq_mod x 6]
  exact hall _ (Nat.mod_lt x (by decide))

/-- The first byte of a character of more than one: the range it is in, and the bits below its
mark. -/
structure Leads (base mask lo hi : Nat) : Prop where
  range : ∀ y ≤ mask, lo ≤ (UInt8.ofNat (base ||| y)).toNat ∧ (UInt8.ofNat (base ||| y)).toNat ≤ hi
  bits : ∀ y ≤ mask, (UInt8.ofNat (base ||| y)).toNat &&& mask = y

theorem Leads.byte {base mask lo hi : Nat} (h : Leads base mask lo hi) (x : Nat) :
    (lo ≤ (UInt8.ofNat (base ||| (x &&& mask))).toNat ∧
      (UInt8.ofNat (base ||| (x &&& mask))).toNat ≤ hi) ∧
      (UInt8.ofNat (base ||| (x &&& mask))).toNat &&& mask = x &&& mask :=
  ⟨h.range _ Nat.and_le_right, h.bits _ Nat.and_le_right⟩

theorem leads_two : Leads 0xc0 0x1f 0xc0 0xdf := ⟨by decide, by decide⟩

theorem leads_three : Leads 0xe0 0x0f 0xe0 0xef := ⟨by decide, by decide⟩

theorem leads_four : Leads 0xf0 0x07 0xf0 0xf7 := ⟨by decide, by decide⟩

theorem leads_five : Leads 0xf8 0x03 0xf8 0xfb := ⟨by decide, by decide⟩

theorem leads_six : Leads 0xfc 0x01 0xfc 0xfd := ⟨by decide, by decide⟩

/-- `ugetc` by the number that the first byte is. -/
theorem ugetc_cons (b : Byte) (t : List Byte) :
    ugetc (b :: t) =
      if b.toNat < 0x80 then (b.toNat, 1)
      else if 0xc0 ≤ b.toNat ∧ b.toNat ≤ 0xdf then
        (bits (b :: t) 0 0x1f 6 + bits (b :: t) 1 0x3f 0, 2)
      else if 0xe0 ≤ b.toNat ∧ b.toNat ≤ 0xef then
        (bits (b :: t) 0 0x0f 12 + bits (b :: t) 1 0x3f 6 + bits (b :: t) 2 0x3f 0, 3)
      else if 0xf0 ≤ b.toNat ∧ b.toNat ≤ 0xf7 then
        (bits (b :: t) 0 0x07 18 + bits (b :: t) 1 0x3f 12 + bits (b :: t) 2 0x3f 6 +
          bits (b :: t) 3 0x3f 0, 4)
      else if 0xf8 ≤ b.toNat ∧ b.toNat ≤ 0xfb then
        (bits (b :: t) 0 0x03 24 + bits (b :: t) 1 0x3f 18 + bits (b :: t) 2 0x3f 12 +
          bits (b :: t) 3 0x3f 6 + bits (b :: t) 4 0x3f 0, 5)
      else if 0xfc ≤ b.toNat ∧ b.toNat ≤ 0xfd then
        (bits (b :: t) 0 0x01 30 + bits (b :: t) 1 0x3f 24 + bits (b :: t) 2 0x3f 18 +
          bits (b :: t) 3 0x3f 12 + bits (b :: t) 4 0x3f 6 + bits (b :: t) 5 0x3f 0, 6)
      else (b.toNat, 1) := rfl

/-- The bits of a code, six at a time. -/
theorem shifts (c : Nat) :
    c >>> 6 = c / 0x40 ∧ c >>> 12 = c / 0x1000 ∧ c >>> 18 = c / 0x40000 ∧
      c >>> 24 = c / 0x1000000 ∧ c >>> 30 = c / 0x40000000 := by
  exact ⟨Nat.shiftRight_eq_div_pow c 6, Nat.shiftRight_eq_div_pow c 12,
    Nat.shiftRight_eq_div_pow c 18, Nat.shiftRight_eq_div_pow c 24, Nat.shiftRight_eq_div_pow c 30⟩

/-- **What `uputc` writes is read back.** -/
theorem ugetc_uputc {c : Nat} (h : c ≤ 0x7fffffff) (rest : List Byte) :
    ugetc (uputc c ++ rest) = (c, (uputc c).length) := by
  obtain ⟨hs6, hs12, hs18, hs24, hs30⟩ := shifts c
  unfold uputc
  by_cases h1 : c < 0x80
  · have hnat : (UInt8.ofNat c).toNat = c := by
      rw [UInt8.toNat_ofNat']
      omega
    rw [if_pos h1, List.singleton_append, ugetc_cons, hnat, if_pos h1]
    rfl
  rw [if_neg h1]
  by_cases h2 : c ≤ 0x7ff
  · obtain ⟨hrange, hbits⟩ := leads_two.byte (c >>> 6)
    rw [if_pos h2, List.cons_append, ugetc_cons, if_neg (by omega), if_pos hrange]
    refine Prod.ext ?_ rfl
    change ((UInt8.ofNat (0xc0 ||| (c >>> 6 &&& 0x1f))).toNat &&& 0x1f) <<< 6 +
      ((trail c).toNat &&& 0x3f) <<< 0 = c
    rw [hbits, trail_bits, Nat.and_two_pow_sub_one_eq_mod _ 5, hs6]
    simp only [Nat.shiftLeft_eq]
    omega
  rw [if_neg h2]
  by_cases h3 : c ≤ 0xffff
  · obtain ⟨hrange, hbits⟩ := leads_three.byte (c >>> 12)
    rw [if_pos h3, List.cons_append, ugetc_cons, if_neg (by omega), if_neg (by omega),
      if_pos hrange]
    refine Prod.ext ?_ rfl
    change ((UInt8.ofNat (0xe0 ||| (c >>> 12 &&& 0x0f))).toNat &&& 0x0f) <<< 12 +
      ((trail (c >>> 6)).toNat &&& 0x3f) <<< 6 +
      ((trail c).toNat &&& 0x3f) <<< 0 = c
    rw [hbits, trail_bits, trail_bits, Nat.and_two_pow_sub_one_eq_mod _ 4, hs6, hs12]
    simp only [Nat.shiftLeft_eq]
    omega
  rw [if_neg h3]
  by_cases h4 : c ≤ 0x1fffff
  · obtain ⟨hrange, hbits⟩ := leads_four.byte (c >>> 18)
    rw [if_pos h4, List.cons_append, ugetc_cons, if_neg (by omega), if_neg (by omega),
      if_neg (by omega), if_pos hrange]
    refine Prod.ext ?_ rfl
    change ((UInt8.ofNat (0xf0 ||| (c >>> 18 &&& 0x07))).toNat &&& 0x07) <<< 18 +
      ((trail (c >>> 12)).toNat &&& 0x3f) <<< 12 +
      ((trail (c >>> 6)).toNat &&& 0x3f) <<< 6 + ((trail c).toNat &&& 0x3f) <<< 0 = c
    rw [hbits, trail_bits, trail_bits, trail_bits, Nat.and_two_pow_sub_one_eq_mod _ 3, hs6, hs12,
      hs18]
    simp only [Nat.shiftLeft_eq]
    omega
  rw [if_neg h4]
  by_cases h5 : c ≤ 0x3ffffff
  · obtain ⟨hrange, hbits⟩ := leads_five.byte (c >>> 24)
    rw [if_pos h5, List.cons_append, ugetc_cons, if_neg (by omega), if_neg (by omega),
      if_neg (by omega), if_neg (by omega), if_pos hrange]
    refine Prod.ext ?_ rfl
    change ((UInt8.ofNat (0xf8 ||| (c >>> 24 &&& 0x03))).toNat &&& 0x03) <<< 24 +
      ((trail (c >>> 18)).toNat &&& 0x3f) <<< 18 +
      ((trail (c >>> 12)).toNat &&& 0x3f) <<< 12 + ((trail (c >>> 6)).toNat &&& 0x3f) <<< 6 +
      ((trail c).toNat &&& 0x3f) <<< 0 = c
    rw [hbits, trail_bits, trail_bits, trail_bits, trail_bits,
      Nat.and_two_pow_sub_one_eq_mod _ 2, hs6, hs12, hs18, hs24]
    simp only [Nat.shiftLeft_eq]
    omega
  · obtain ⟨hrange, hbits⟩ := leads_six.byte (c >>> 30)
    rw [if_neg h5, if_pos h, List.cons_append, ugetc_cons, if_neg (by omega), if_neg (by omega),
      if_neg (by omega), if_neg (by omega), if_neg (by omega), if_pos hrange]
    refine Prod.ext ?_ rfl
    change ((UInt8.ofNat (0xfc ||| (c >>> 30 &&& 0x01))).toNat &&& 0x01) <<< 30 +
      ((trail (c >>> 24)).toNat &&& 0x3f) <<< 24 +
      ((trail (c >>> 18)).toNat &&& 0x3f) <<< 18 + ((trail (c >>> 12)).toNat &&& 0x3f) <<< 12 +
      ((trail (c >>> 6)).toNat &&& 0x3f) <<< 6 + ((trail c).toNat &&& 0x3f) <<< 0 = c
    rw [hbits, trail_bits, trail_bits, trail_bits, trail_bits, trail_bits,
      Nat.and_two_pow_sub_one_eq_mod _ 1, hs6, hs12, hs18, hs24, hs30]
    simp only [Nat.shiftLeft_eq]
    omega

/-! ## Codes one behind the other -/

/-- Codes that `uputc` can write. -/
def Codes (cs : List Nat) : Prop := ∀ c ∈ cs, c ≤ 0x7fffffff

theorem Codes.allUChars {cs : List Nat} (h : Codes cs) : AllUChars (cs.map uputc) := by
  intro t ht
  obtain ⟨c, hc, rfl⟩ := List.mem_map.mp ht
  exact uputc_isUChar (h c hc)

/-- The bytes of codes, cut behind some of them. -/
theorem drop_uoffset_append {cs : List Nat} (h : Codes cs) {n : Nat} (hn : n ≤ cs.length)
    (rest : List Byte) :
    (cs.flatMap uputc ++ rest).drop (uoffset (cs.flatMap uputc ++ rest) n) =
      (cs.drop n).flatMap uputc ++ rest := by
  induction n generalizing cs with
  | zero =>
      rw [List.drop_zero]
      cases cs.flatMap uputc ++ rest <;> rfl
  | succ n ih =>
      cases cs with
      | nil => exact absurd hn (Nat.not_succ_le_zero n)
      | cons c cs =>
          obtain ⟨b, t, hbytes⟩ := List.exists_cons_of_ne_nil (uputc_isUChar (h c (by simp))).ne_nil
          have hchar : IsUChar (b :: t) := hbytes ▸ uputc_isUChar (h c List.mem_cons_self)
          have hrest := ih (fun d hd => h d (List.mem_cons_of_mem c hd)) (Nat.le_of_succ_le_succ hn)
          rw [List.flatMap_cons, List.append_assoc, hbytes, List.cons_append, uoffset,
            hchar.uclen_eq, ← List.cons_append, ← List.drop_drop, List.drop_left, hrest,
            List.drop_succ_cons]

/-- **Codes are read back**, alone and one behind the other, and every length agrees. -/
theorem utf8_codes {c : Nat} (hc : c ≤ 0x7fffffff) {cs : List Nat} (hcs : Codes cs)
    (rest : List Byte) :
    ugetc (uputc c ++ rest) = (c, (uputc c).length) ∧
      uclen ((uputc c ++ rest).getD 0 0) = (uputc c).length ∧
      unslen (cs.flatMap uputc) = cs.length ∧
      ∀ n d, cs[n]? = some d →
        ugetcAt (cs.flatMap uputc ++ rest) n = (d, (uputc d).length) := by
  have hread := ugetc_uputc hc rest
  refine ⟨hread, ?_, ?_, ?_⟩
  · rw [← ugetc_length, hread]
  · rw [List.flatMap_def, unslen_flatten hcs.allUChars, List.length_map]
  · intro n d hd
    obtain ⟨hn, hget⟩ := List.getElem?_eq_some_iff.mp hd
    rw [ugetcAt, drop_uoffset_append hcs (Nat.le_of_lt hn), List.drop_eq_getElem_cons hn, hget,
      List.flatMap_cons, List.append_assoc]
    exact ugetc_uputc (hcs d (List.mem_of_getElem? hd)) _

/-- The last code of each length, and some codes behind each other. -/
theorem utf8_codes_six :
    ugetc (uputc 0x7fffffff ++ [0x80]) = (0x7fffffff, (uputc 0x7fffffff).length) ∧
      uclen ((uputc 0x7fffffff ++ [0x80]).getD 0 0) = (uputc 0x7fffffff).length ∧
      unslen ([0x41, 0x7ff, 0xffff].flatMap uputc) = [0x41, 0x7ff, 0xffff].length ∧
      ∀ n d, [0x41, 0x7ff, 0xffff][n]? = some d →
        ugetcAt ([0x41, 0x7ff, 0xffff].flatMap uputc ++ [0x80]) n = (d, (uputc d).length) :=
  utf8_codes (by decide) (fun c hc => by revert hc c; decide) [0x80]

end Emacs
