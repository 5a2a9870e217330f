import Mathlib

/-!
# Texts in UTF-8

When a sequence of bytes is valid UTF-8, and where it may be cut.

* `continues` — the bytes that do not begin a character;
* `valid_take_iff` — **the character boundaries**: a valid text may be cut
  before a byte exactly if that byte begins a character;
* `valid_append_iff`, `Valid.append_iff` — one text behind another;
* `valid_drop_iff` — what is left behind a cut;
* `valid_ascii_iff` — a text may be cut on both sides of an ASCII byte;
* `encodeChars`, `decodeChars` — the characters themselves, and `encodeChars_prefix_iff`.
-/

namespace Utf8

/-- The bytes are the encoding of some characters. -/
def Valid (s : List UInt8) : Prop := s.toByteArray.IsValidUTF8

/-- The byte begins no character: its top two bits are `10`. -/
def continues (b : UInt8) : Bool := b &&& 0xC0 = 0x80

variable {s t : List UInt8} {k : Nat}

theorem valid_nil : Valid [] := .intro [] rfl

theorem Valid.append (hs : Valid s) (ht : Valid t) : Valid (s ++ t) := by
  unfold Valid
  rw [List.toByteArray_append]
  exact ByteArray.IsValidUTF8.append hs ht

theorem Valid.exists_chars (h : Valid s) : ∃ m : List Char, s = m.flatMap String.utf8EncodeChar := by
  obtain ⟨m, hm⟩ := h
  exact ⟨m, List.toByteArray_inj.mp hm⟩

theorem valid_chars (m : List Char) : Valid (m.flatMap String.utf8EncodeChar) := .intro m rfl

theorem not_continues_of_first : ∀ b : UInt8, b.IsUTF8FirstByte → continues b = false := by
  have hall : ∀ n < 256, (UInt8.ofNat n).IsUTF8FirstByte → continues (UInt8.ofNat n) = false := by
    decide +kernel
  intro b hb
  have hnat := hall b.toNat b.toNat_lt
  rw [UInt8.ofNat_toNat] at hnat
  exact hnat hb

theorem continues_trail (n : Nat) : continues (UInt8.ofNat (n % 0x40 + 0x80)) = true := by
  have hall : ∀ n < 0x40, continues (UInt8.ofNat (n + 0x80)) = true := by decide
  exact hall _ (Nat.mod_lt _ (by decide))

/-- All bytes of a character but the first continue it. -/
theorem continues_tail (c : Char) : ∀ b ∈ (String.utf8EncodeChar c).tail, continues b = true := by
  have hnil : ∀ b ∈ ([] : List UInt8), continues b = true := by simp
  unfold String.utf8EncodeChar
  dsimp only
  split
  · exact hnil
  · split
    · exact List.forall_mem_cons.mpr ⟨continues_trail _, hnil⟩
    · split
      · exact List.forall_mem_cons.mpr
          ⟨continues_trail _, List.forall_mem_cons.mpr ⟨continues_trail _, hnil⟩⟩
      · exact List.forall_mem_cons.mpr ⟨continues_trail _, List.forall_mem_cons.mpr
          ⟨continues_trail _, List.forall_mem_cons.mpr ⟨continues_trail _, hnil⟩⟩⟩

/-- A byte of a valid text begins a character or continues one. -/
theorem Valid.first_or_continues (h : Valid s) : ∀ b ∈ s, b.IsUTF8FirstByte ∨ continues b = true := by
  obtain ⟨m, rfl⟩ := h.exists_chars
  intro b hb
  obtain ⟨c, -, hc⟩ := List.mem_flatMap.mp hb
  obtain ⟨i, hi, rfl⟩ := List.getElem_of_mem hc
  cases i with
  | zero => exact Or.inl (UInt8.isUTF8FirstByte_getElem_utf8EncodeChar.mpr rfl)
  | succ i =>
      refine Or.inr (continues_tail c _ ?_)
      have hi' : i < (String.utf8EncodeChar c).tail.length := by
        rw [List.length_tail]
        omega
      rw [← List.getElem_tail (h := hi')]
      exact List.getElem_mem _

theorem Valid.first_iff (h : Valid s) (hk : k < s.length) :
    s[k].IsUTF8FirstByte ↔ continues s[k] = false := by
  refine ⟨not_continues_of_first _, fun hc => ?_⟩
  rcases h.first_or_continues _ (List.getElem_mem hk) with hf | ht
  · exact hf
  · rw [hc] at ht
    cases ht

open String in
/-- **Character boundaries.**  A valid text may be cut before a byte exactly if
the byte begins a character. -/
theorem valid_take_iff (h : Valid s) (hk : k < s.length) :
    Valid (s.take k) ↔ continues s[k] = false := by
  have hpos := Pos.Raw.isValid_iff_isUTF8FirstByte (s := String.ofByteArray s.toByteArray h)
    (p := ⟨k⟩)
  rw [Pos.Raw.isValid_iff_isValidUTF8_extract_zero] at hpos
  have hlt : (⟨k⟩ : Pos.Raw) < (String.ofByteArray s.toByteArray h).rawEndPos := by
    simp [Pos.Raw.lt_iff, ← size_toByteArray, hk]
  have hcut : s.toByteArray.extract 0 k = (s.take k).toByteArray := by
    ext1
    simp
  have hbyte : (String.ofByteArray s.toByteArray h).getUTF8Byte ⟨k⟩ hlt = s[k] := by
    simp [getUTF8Byte]
  constructor
  · intro hv
    rcases hpos.mp ⟨Nat.le_of_lt hlt, hcut ▸ hv⟩ with hend | ⟨_, hfirst⟩
    · rw [hend] at hlt
      exact absurd hlt (Nat.lt_irrefl _)
    · exact not_continues_of_first _ (hbyte ▸ hfirst)
  · intro hc
    have hv := (hpos.mpr (Or.inr ⟨hlt, hbyte.symm ▸ (h.first_iff hk).mpr hc⟩)).2
    change (s.toByteArray.extract 0 k).IsValidUTF8 at hv
    rw [hcut] at hv
    exact hv

theorem Valid.head {b : UInt8} (h : Valid (b :: s)) : continues b = false :=
  (valid_take_iff h (Nat.succ_pos _)).mp valid_nil

/-- What stands in front of a valid text that is not empty. -/
theorem valid_append_iff {b : UInt8} (hb : Valid (b :: t)) :
    Valid (s ++ b :: t) ↔ Valid s := by
  refine ⟨fun h => ?_, fun h => h.append hb⟩
  have hk : s.length < (s ++ b :: t).length := by simp
  have hfirst : continues (s ++ b :: t)[s.length] = false := by
    have h0 : 0 < (b :: t).length := by simp
    have hhead := (valid_take_iff hb h0).mp valid_nil
    simpa using hhead
  have hv := (valid_take_iff h hk).mpr hfirst
  rwa [List.take_left] at hv

theorem valid_char_append_iff (c : Char) : Valid (String.utf8EncodeChar c ++ t) ↔ Valid t := by
  have hcore := ByteArray.isValidUTF8_utf8Encode_singleton_append_iff (b := t.toByteArray) (c := c)
  have hone : [c].utf8Encode = (String.utf8EncodeChar c).toByteArray := by simp [List.utf8Encode]
  rwa [hone, ← List.toByteArray_append] at hcore

/-- What stands behind a valid text. -/
theorem Valid.append_iff (hs : Valid s) : Valid (s ++ t) ↔ Valid t := by
  obtain ⟨m, rfl⟩ := hs.exists_chars
  clear hs
  induction m with
  | nil => exact Iff.rfl
  | cons c m ih => rw [List.flatMap_cons, List.append_assoc, valid_char_append_iff, ih]

/-- What is left of a valid text behind a cut. -/
theorem valid_drop_iff (h : Valid s) (hk : k < s.length) :
    Valid (s.drop k) ↔ continues s[k] = false := by
  rw [← valid_take_iff h hk]
  constructor
  · intro hd
    rw [List.drop_eq_getElem_cons hk] at hd
    rw [← valid_append_iff hd, ← List.drop_eq_getElem_cons hk, List.take_append_drop]
    exact h
  · intro ht
    rw [← ht.append_iff, List.take_append_drop]
    exact h

/-! ## ASCII -/

theorem valid_ascii {b : UInt8} (hb : b < 0x80) : Valid [b] := by
  have hall : ∀ n : Fin 128, String.utf8EncodeChar (Char.ofNat n) = [UInt8.ofNat n] := by
    decide
  have hchar := hall ⟨b.toNat, hb⟩
  rw [UInt8.ofNat_toNat] at hchar
  have hv := valid_chars [Char.ofNat b.toNat]
  rwa [List.flatMap_cons, List.flatMap_nil, List.append_nil, hchar] at hv

theorem continues_ascii {b : UInt8} (hb : b < 0x80) : continues b = false := by
  have hall : ∀ n : Fin 128, continues (UInt8.ofNat n) = false := by decide
  have hnat := hall ⟨b.toNat, hb⟩
  rwa [UInt8.ofNat_toNat] at hnat

/-- A text may be cut on both sides of an ASCII byte. -/
theorem valid_ascii_iff {b : UInt8} (hb : b < 0x80) : Valid (s ++ b :: t) ↔ Valid s ∧ Valid t := by
  constructor
  · intro h
    have hk : s.length < (s ++ b :: t).length := by simp
    have hcut : continues (s ++ b :: t)[s.length] = false := by
      rw [List.getElem_append_right (Nat.le_refl _)]
      simpa using continues_ascii hb
    have hs : Valid s := by
      have htake := (valid_take_iff h hk).mpr hcut
      rwa [List.take_left] at htake
    exact ⟨hs, (valid_ascii hb).append_iff.mp (hs.append_iff.mp h)⟩
  · rintro ⟨hs, ht⟩
    exact hs.append ((valid_ascii hb).append ht)

theorem valid_of_ascii (h : ∀ b ∈ s, b < 0x80) : Valid s := by
  induction s with
  | nil => exact valid_nil
  | cons b s ih =>
      obtain ⟨hb, hs⟩ := List.forall_mem_cons.mp h
      exact (valid_ascii hb).append (ih hs)

/-- The same for a run of ASCII bytes. -/
theorem valid_between_iff {e : List UInt8} (he : ∀ b ∈ e, b < 0x80) (hne : e ≠ []) :
    Valid (s ++ (e ++ t)) ↔ Valid s ∧ Valid t := by
  cases e with
  | nil => exact absurd rfl hne
  | cons b e =>
      obtain ⟨hb, hrest⟩ := List.forall_mem_cons.mp he
      rw [List.cons_append, valid_ascii_iff hb, (valid_of_ascii hrest).append_iff]

theorem valid_drop_head_iff (h : Valid s) :
    Valid (s.drop k) ↔ ∀ b ∈ (s.drop k).head?, continues b = false := by
  rcases Nat.lt_or_ge k s.length with hk | hk
  · have hhead : (s.drop k).head? = some s[k] := by simp [List.getElem?_eq_getElem hk]
    rw [valid_drop_iff h hk, hhead]
    simp
  · rw [List.drop_eq_nil_of_le hk]
    simp [valid_nil]


/-! ## Characters -/

/-- The bytes of characters. -/
def encodeChars (m : List Char) : List UInt8 := m.flatMap String.utf8EncodeChar

@[simp] theorem encodeChars_nil : encodeChars [] = [] := rfl

theorem encodeChars_cons (c : Char) (m : List Char) :
    encodeChars (c :: m) = String.utf8EncodeChar c ++ encodeChars m := List.flatMap_cons

theorem encodeChars_append (m n : List Char) : encodeChars (m ++ n) = encodeChars m ++ encodeChars n :=
  List.flatMap_append

theorem encodeChars_concat (m : List Char) (c : Char) :
    encodeChars (m ++ [c]) = encodeChars m ++ String.utf8EncodeChar c := by
  rw [encodeChars_append, encodeChars_cons, encodeChars_nil, List.append_nil]

theorem valid_encodeChars (m : List Char) : Valid (encodeChars m) := valid_chars m

/-- The first character of a text is read off its bytes. -/
theorem char_append_inj {c d : Char}
    (h : String.utf8EncodeChar c ++ s = String.utf8EncodeChar d ++ t) : c = d ∧ s = t := by
  have hc := ByteArray.utf8DecodeChar?_utf8EncodeChar_append (b := s.toByteArray) (c := c)
  have hd := ByteArray.utf8DecodeChar?_utf8EncodeChar_append (b := t.toByteArray) (c := d)
  rw [← List.toByteArray_append] at hc hd
  rw [h, hd] at hc
  obtain rfl := Option.some.inj hc
  exact ⟨rfl, List.append_cancel_left h⟩

/-- **One text begins with another exactly if its bytes begin with those of the other.** -/
theorem encodeChars_prefix_iff {m n : List Char} : encodeChars m <+: encodeChars n ↔ m <+: n := by
  constructor
  · rintro ⟨rest, hrest⟩
    induction m generalizing n with
    | nil => exact List.nil_prefix
    | cons c m ih =>
        cases n with
        | nil =>
            rw [encodeChars_cons, List.append_assoc] at hrest
            exact absurd (List.append_eq_nil_iff.mp hrest).1 String.utf8EncodeChar_ne_nil
        | cons d n =>
            rw [encodeChars_cons, encodeChars_cons, List.append_assoc] at hrest
            obtain ⟨hchar, htail⟩ := char_append_inj hrest
            exact List.cons_prefix_cons.mpr ⟨hchar, ih htail⟩
  · rintro ⟨rest, rfl⟩
    exact ⟨encodeChars rest, (encodeChars_append m rest).symm⟩

theorem encodeChars_injective {m n : List Char} (h : encodeChars m = encodeChars n) : m = n := by
  have hmn : m <+: n := encodeChars_prefix_iff.mp (h ▸ List.prefix_refl _)
  have hnm : n <+: m := encodeChars_prefix_iff.mp (h ▸ List.prefix_refl _)
  exact hmn.eq_of_length_le hnm.length_le

open Classical in
/-- The characters of a valid text. -/
noncomputable def decodeChars (s : List UInt8) : List Char :=
  if h : Valid s then h.exists_chars.choose else []

theorem Valid.encode_decode (h : Valid s) : encodeChars (decodeChars s) = s := by
  rw [decodeChars, dif_pos h]
  exact h.exists_chars.choose_spec.symm

@[simp] theorem decode_encode (m : List Char) : decodeChars (encodeChars m) = m :=
  encodeChars_injective (valid_encodeChars m).encode_decode

/-- The bytes of a character are the character itself, or none of them is an ASCII byte. -/
theorem char_ascii_or (c : Char) :
    (∃ b : UInt8, b < 0x80 ∧ String.utf8EncodeChar c = [b]) ∨
      ∀ b ∈ String.utf8EncodeChar c, ¬ b < 0x80 := by
  have hhigh : ∀ n < 0x100, 0x80 ≤ n → ¬ UInt8.ofNat n < 0x80 := by decide +kernel
  have htrail : ∀ n, ¬ UInt8.ofNat (n % 0x40 + 0x80) < 0x80 :=
    fun n => hhigh _ (by omega) (by omega)
  unfold String.utf8EncodeChar
  dsimp only
  split
  next hsmall =>
    refine Or.inl ⟨_, ?_, rfl⟩
    have hlow : ∀ n ≤ 0x7f, UInt8.ofNat n < 0x80 := by decide
    exact hlow _ hsmall
  next =>
    right
    split
    · simp only [List.forall_mem_cons, List.not_mem_nil, false_imp_iff, implies_true, and_true]
      exact ⟨hhigh _ (by omega) (by omega), htrail _⟩
    · split
      · simp only [List.forall_mem_cons, List.not_mem_nil, false_imp_iff, implies_true, and_true]
        exact ⟨hhigh _ (by omega) (by omega), htrail _, htrail _⟩
      · simp only [List.forall_mem_cons, List.not_mem_nil, false_imp_iff, implies_true, and_true]
        exact ⟨hhigh _ (by omega) (by omega), htrail _, htrail _, htrail _⟩

end Utf8
