import Zzdwm.Lisp.Reader

/-!
# Reading what was written

Whatever object is written, the reader makes one thing of its text: `reread` says which.
Symbols and strings come back.  A whole number comes back if it has at most six digits;
with more it is printed with an exponent, which the reader takes for a symbol.  In a
dotted list the reader refuses the dot behind the symbol `nil`, which it takes for the
start of the list.

* `Ends` — a text in front of which a token ends;
* `readNumberOrSymbol_append`, `readNumberOrSymbol_decimal`, `readNumberOrSymbol_formatG` — tokens;
* `readString_writeString` — strings: the two passes agree;
* `Accepted`, `Accepted.token` — symbols;
* `reread`, `readsBack_readsTail` — objects;
* `Clean`, `written_reads_back_iff` — **what comes back**.
-/

namespace Lisp

open Ascii

/-! ## Tokens -/

/-- In front of a blank, of a bracket that closes and of the end of the text a token
ends. -/
inductive Ends : List Byte → Prop
  | nil : Ends []
  | blank (rest : List Byte) : Ends (0x20 :: rest)
  | bracket (rest : List Byte) : Ends (0x29 :: rest)

theorem isSymbolChar_of_isDigit {b : Byte} (h : isDigit b = true) : isSymbolChar b = true := by
  simp [isSymbolChar, isAlnum, h]

theorem starts_append {p : Byte → Bool} (hblank : p 0x20 = false) (hbracket : p 0x29 = false)
    {rest : List Byte} (h : Ends rest) (text : List Byte) : starts p (text ++ rest) = starts p text := by
  cases text with
  | cons b text => rfl
  | nil =>
      cases h with
      | nil => rfl
      | blank rest => exact hblank
      | bracket rest => exact hbracket

theorem dropWhile_append_ends {p : Byte → Bool} (hblank : p 0x20 = false) (hbracket : p 0x29 = false)
    {rest : List Byte} (h : Ends rest) (text : List Byte) :
    (text ++ rest).dropWhile p = text.dropWhile p ++ rest := by
  induction text with
  | cons b text ih =>
      rw [List.cons_append, List.dropWhile_cons, List.dropWhile_cons, ih]
      split <;> rfl
  | nil =>
      cases h with
      | nil => rfl
      | blank rest => exact List.dropWhile_cons_of_neg (by rw [hblank]; exact Bool.false_ne_true)
      | bracket rest => exact List.dropWhile_cons_of_neg (by rw [hbracket]; exact Bool.false_ne_true)

theorem takeWhile_append_ends {p : Byte → Bool} (hblank : p 0x20 = false) (hbracket : p 0x29 = false)
    {rest : List Byte} (h : Ends rest) (text : List Byte) :
    (text ++ rest).takeWhile p = text.takeWhile p := by
  induction text with
  | cons b text ih => rw [List.cons_append, List.takeWhile_cons, List.takeWhile_cons, ih]
  | nil =>
      cases h with
      | nil => rfl
      | blank rest => exact List.takeWhile_cons_of_neg (by rw [hblank]; exact Bool.false_ne_true)
      | bracket rest => exact List.takeWhile_cons_of_neg (by rw [hbracket]; exact Bool.false_ne_true)

theorem unsigned_append {text : List Byte} (hne : text ≠ []) (rest : List Byte) :
    unsigned (text ++ rest) = unsigned text ++ rest := by
  cases text with
  | nil => exact absurd rfl hne
  | cons b text =>
      rw [List.cons_append, unsigned, unsigned]
      split <;> rfl

theorem strtol_append {text rest : List Byte} (hne : text ≠ []) (h : Ends rest) :
    strtol (text ++ rest) = strtol text := by
  unfold strtol
  rw [unsigned_append hne, takeWhile_append_ends rfl rfl h, starts_append rfl rfl h]

theorem readSymbol_append {rest : List Byte} (h : Ends rest) (text : List Byte) :
    readSymbol (text ++ rest) = ((readSymbol text).1, (readSymbol text).2 ++ rest) := by
  unfold readSymbol
  rw [takeWhile_append_ends rfl rfl h, dropWhile_append_ends rfl rfl h]

theorem take_append_ends {text left rest : List Byte} :
    (text ++ rest).take ((text ++ rest).length - (left ++ rest).length) =
      text.take (text.length - left.length) := by
  have hlen : (text ++ rest).length - (left ++ rest).length = text.length - left.length := by
    simp only [List.length_append]
    omega
  rw [hlen, List.take_append_of_le_length (Nat.sub_le _ _)]

/-- **A token is what stands in front of its end.** -/
theorem readNumberOrSymbol_append {text rest : List Byte} (hne : text ≠ []) (h : Ends rest) :
    readNumberOrSymbol (text ++ rest) =
      ((readNumberOrSymbol text).1, (readNumberOrSymbol text).2 ++ rest) := by
  unfold readNumberOrSymbol
  dsimp only
  rw [unsigned_append hne, starts_append rfl rfl h, dropWhile_append_ends rfl rfl h,
    starts_append rfl rfl h, strtol_append hne h, readSymbol_append h, starts_append rfl rfl h]
  split
  · split
    · rfl
    · generalize (unsigned text).dropWhile isDigit = left
      cases left with
      | nil =>
          simp [starts]
      | cons b left =>
          rw [List.cons_append, List.tail_cons, List.tail_cons, starts_append rfl rfl h,
            dropWhile_append_ends rfl rfl h, starts_append rfl rfl h, take_append_ends]
          split
          · split <;> rfl
          · rfl
  · rfl

/-! ## Numbers -/

theorem dropWhile_digits {digits : List Byte} (h : ∀ b ∈ digits, isDigit b = true) (rest : List Byte) :
    (digits ++ rest).dropWhile isDigit = rest.dropWhile isDigit :=
  List.dropWhile_append_of_pos h

theorem readSymbol_self {text : List Byte} (h : ∀ b ∈ text, isSymbolChar b = true) :
    readSymbol text = (.symbol text, []) := by
  unfold readSymbol
  rw [List.takeWhile_eq_self_iff.mpr h, List.dropWhile_eq_nil_iff.mpr h]

/-- A text that starts with a digit has no sign. -/
theorem unsigned_digit {b : Byte} (h : isDigit b = true) (rest : List Byte) :
    unsigned (b :: rest) = b :: rest := by
  unfold unsigned
  dsimp only
  rw [if_neg]
  intro hsign
  rcases Bool.or_eq_true_iff.mp hsign with hb | hb
  · rw [of_decide_eq_true hb] at h
    cases h
  · rw [of_decide_eq_true hb] at h
    cases h

/-- A number in digits, with or without a minus sign. -/
theorem readNumberOrSymbol_digits {text digits : List Byte} (hunsigned : unsigned text = digits)
    (hne : digits ≠ []) (h : ∀ b ∈ digits, isDigit b = true) :
    readNumberOrSymbol text = (.number (.long (strtol text)), []) := by
  have hdrop : digits.dropWhile isDigit = [] := List.dropWhile_eq_nil_iff.mpr h
  have hstart : starts (fun ch => ch = dot || isDigit ch) digits = true := by
    cases digits with
    | nil => exact absurd rfl hne
    | cons b digits => simp [starts, h b List.mem_cons_self]
  unfold readNumberOrSymbol
  dsimp only
  rw [hunsigned, if_pos hstart, hdrop]
  rfl

theorem unsigned_decimal (n : Nat) : unsigned (decimal n) = decimal n := by
  cases hd : decimal n with
  | nil => rfl
  | cons b rest =>
      exact unsigned_digit (isDigit_of_mem_decimal (hd ▸ List.mem_cons_self)) rest

/-- **A number of six digits or fewer comes back.** -/
theorem readNumberOrSymbol_decimal {n : Int} (h : n.natAbs < 10 ^ 6) :
    readNumberOrSymbol (formatG n) = (.number (.long n), []) := by
  have hdigits : ∀ b ∈ decimal n.natAbs, isDigit b = true := fun b hb => isDigit_of_mem_decimal hb
  have hvalue : value ((decimal n.natAbs).takeWhile isDigit) = n.natAbs := by
    rw [List.takeWhile_eq_self_iff.mpr hdigits, value_decimal]
  have hformat : formatNat n.natAbs = decimal n.natAbs := if_pos h
  unfold formatG
  rw [hformat]
  split
  next hneg =>
    have hunsigned : unsigned (0x2D :: decimal n.natAbs) = decimal n.natAbs := rfl
    have hlong : strtol (0x2D :: decimal n.natAbs) = n := by
      have hminus : starts (fun b => decide (b = 0x2D)) (0x2D :: decimal n.natAbs) = true := rfl
      unfold strtol
      rw [hunsigned, hvalue, hminus]
      simp only [if_true]
      omega
    rw [readNumberOrSymbol_digits hunsigned (decimal_ne_nil _) hdigits, hlong]
  next hpos =>
    have hlong : strtol (decimal n.natAbs) = n := by
      have hminus : starts (fun b => decide (b = 0x2D)) (decimal n.natAbs) = false := by
        cases hd : decimal n.natAbs with
        | nil => rfl
        | cons b rest =>
            have hb := hdigits b (hd ▸ List.mem_cons_self)
            by_contra hne
            have heq : b = 0x2D := by simpa [starts] using hne
            rw [heq] at hb
            cases hb
      unfold strtol
      rw [unsigned_decimal, hvalue, hminus]
      simp only [Bool.false_eq_true, if_false]
      omega
    rw [readNumberOrSymbol_digits (unsigned_decimal _) (decimal_ne_nil _) hdigits, hlong]

/-- What stands behind the point of a number with an exponent. -/
theorem fractionText_cases {digits : List Byte} (h : ∀ b ∈ digits, isDigit b = true) :
    fractionText digits = [] ∨
      ∃ d ds, fractionText digits = dot :: d :: ds ∧ ∀ b ∈ d :: ds, isDigit b = true := by
  unfold fractionText
  have hall : ∀ b ∈ (digits.reverse.dropWhile (· = 0x30)).reverse, isDigit b = true := by
    intro b hb
    have hmem := (List.dropWhile_suffix _).subset (List.mem_reverse.mp hb)
    exact h b (List.mem_reverse.mp hmem)
  cases hd : (digits.reverse.dropWhile (· = 0x30)).reverse with
  | nil => exact Or.inl rfl
  | cons d ds => exact Or.inr ⟨d, ds, rfl, hd ▸ hall⟩

/-- A number with an exponent is read as a symbol: the digits end at a letter. -/
theorem readNumberOrSymbol_exponent {text frac : List Byte} {d : Byte} {rest : List Byte}
    (hunsigned : unsigned text = d :: (frac ++ 0x65 :: rest)) (hd : isDigit d = true)
    (hfrac : frac = [] ∨ ∃ d ds, frac = dot :: d :: ds ∧ ∀ b ∈ d :: ds, isDigit b = true)
    (hchars : ∀ b ∈ text, isSymbolChar b = true) : readNumberOrSymbol text = (.symbol text, []) := by
  have hstart : starts (fun ch => ch = dot || isDigit ch) (d :: (frac ++ 0x65 :: rest)) = true := by
    simp [starts, hd]
  have hletter : (0x65 :: rest).dropWhile isDigit = 0x65 :: rest :=
    List.dropWhile_cons_of_neg (by decide)
  unfold readNumberOrSymbol
  dsimp only
  rw [hunsigned, if_pos hstart, List.dropWhile_cons_of_pos hd, readSymbol_self hchars]
  rcases hfrac with rfl | ⟨d', ds, rfl, hdigits⟩
  · rw [List.nil_append, hletter]
    rfl
  · have hpoint : (dot :: d' :: ds ++ 0x65 :: rest).dropWhile isDigit = dot :: d' :: ds ++ 0x65 :: rest :=
      List.dropWhile_cons_of_neg (by decide)
    have htail : (dot :: d' :: ds ++ 0x65 :: rest).tail = d' :: ds ++ 0x65 :: rest := rfl
    have hnext : starts isDigit (d' :: ds ++ 0x65 :: rest) = true := hdigits d' List.mem_cons_self
    have hdot : starts isSymbolChar (dot :: d' :: ds ++ 0x65 :: rest) = true := rfl
    have hdot' : starts (fun b => decide (b = dot)) (dot :: d' :: ds ++ 0x65 :: rest) = true := rfl
    have hlast : starts isSymbolChar (0x65 :: rest) = true := rfl
    rw [hpoint, hdot, hdot', htail, hnext, dropWhile_digits hdigits, hletter, hlast]
    rfl

theorem exponentText_digits (e : Nat) : ∀ b ∈ exponentText e, isDigit b = true := by
  unfold exponentText
  split
  · refine List.forall_mem_cons.mpr ⟨by decide, fun b hb => isDigit_of_mem_decimal hb⟩
  · exact fun b hb => isDigit_of_mem_decimal hb

/-- A natural number that is printed with an exponent. -/
theorem formatNat_exponent {n : Nat} (h : ¬ n < 10 ^ 6) :
    ∃ d frac rest, formatNat n = d :: (frac ++ 0x65 :: rest) ∧ isDigit d = true ∧
      (frac = [] ∨ ∃ d ds, frac = dot :: d :: ds ∧ ∀ b ∈ d :: ds, isDigit b = true) ∧
      ∀ b ∈ rest, isSymbolChar b = true := by
  unfold formatNat
  rw [if_neg h]
  dsimp only
  cases hq : decimal (significant n).1 with
  | nil => exact absurd hq (decimal_ne_nil _)
  | cons d ds =>
      have hdigits : ∀ b ∈ d :: ds, isDigit b = true := fun b hb => isDigit_of_mem_decimal (hq ▸ hb)
      obtain ⟨hd, hds⟩ := List.forall_mem_cons.mp hdigits
      refine ⟨d, fractionText ds, 0x2B :: exponentText (significant n).2, ?_, hd, fractionText_cases hds, ?_⟩
      · have hplus : bytes "e+" = [0x65, 0x2B] := by decide
        rw [hplus]
        simp
      · refine List.forall_mem_cons.mpr ⟨by decide, fun b hb => ?_⟩
        exact isSymbolChar_of_isDigit (exponentText_digits _ b hb)

theorem formatNat_chars (n : Nat) : ∀ b ∈ formatNat n, isSymbolChar b = true := by
  by_cases h : n < 10 ^ 6
  · have hformat : formatNat n = decimal n := if_pos h
    rw [hformat]
    exact fun b hb => isSymbolChar_of_isDigit (isDigit_of_mem_decimal hb)
  · obtain ⟨d, frac, rest, htext, hd, hfrac, hrest⟩ := formatNat_exponent h
    rw [htext]
    refine List.forall_mem_cons.mpr ⟨isSymbolChar_of_isDigit hd, fun b hb => ?_⟩
    rcases List.mem_append.mp hb with hb | hb
    · rcases hfrac with rfl | ⟨d', ds, rfl, hdigits⟩
      · cases hb
      · rcases List.mem_cons.mp hb with rfl | hb
        · decide
        · exact isSymbolChar_of_isDigit (hdigits b hb)
    · rcases List.mem_cons.mp hb with rfl | hb
      · decide
      · exact hrest b hb

theorem formatG_chars (n : Int) : ∀ b ∈ formatG n, isSymbolChar b = true := by
  unfold formatG
  split
  · exact List.forall_mem_cons.mpr ⟨by decide, formatNat_chars _⟩
  · exact formatNat_chars _

/-- **A number of seven digits or more is read as a symbol.** -/
theorem readNumberOrSymbol_formatG {n : Int} (h : ¬ n.natAbs < 10 ^ 6) :
    readNumberOrSymbol (formatG n) = (.symbol (formatG n), []) := by
  obtain ⟨d, frac, rest, htext, hd, hfrac, -⟩ := formatNat_exponent h
  have hunsigned : unsigned (formatG n) = d :: (frac ++ 0x65 :: rest) := by
    unfold formatG
    split
    · rw [htext]
      rfl
    · rw [htext]
      exact unsigned_digit hd _
  exact readNumberOrSymbol_exponent hunsigned hd hfrac (formatG_chars n)

/-! ## Strings -/

theorem unescape_escaped : ∀ b : Byte, escaped b = [b] ∧ b ≠ backslash ∧ b ≠ quote ∨
    ∃ c, escaped b = [backslash, c] ∧ unescape c = some b := by
  intro b
  unfold escaped
  split
  next h => exact Or.inr ⟨quote, rfl, by rw [h]; rfl⟩
  next hq =>
    split
    next h => exact Or.inr ⟨0x74, rfl, by rw [h]; rfl⟩
    split
    next h => exact Or.inr ⟨0x72, rfl, by rw [h]; rfl⟩
    split
    next h => exact Or.inr ⟨0x6E, rfl, by rw [h]; rfl⟩
    split
    next h => exact Or.inr ⟨backslash, rfl, by rw [h]; rfl⟩
    next hb => exact Or.inl ⟨rfl, hb, hq⟩

/-- The scanner finds the quote at the end. -/
theorem scanString_escaped (s rest : List Byte) :
    scanString false (s.flatMap escaped ++ quote :: rest) = some (s.flatMap escaped, rest) := by
  induction s with
  | nil => rfl
  | cons b s ih =>
      rw [List.flatMap_cons]
      rcases unescape_escaped b with ⟨heq, hb, hq⟩ | ⟨c, heq, -⟩
      · rw [heq, List.singleton_append, List.cons_append, scanString]
        simp [hb, hq, ih]
      · rw [heq]
        simp only [List.cons_append, List.nil_append]
        rw [scanString]
        have hfirst : (backslash = quote) = False := by decide
        simp only [hfirst, decide_false, Bool.false_and, Bool.false_eq_true, if_false, decide_true,
          Bool.not_false, Bool.and_self]
        rw [scanString]
        simp [ih]

/-- The pass that copies undoes the escapes. -/
theorem copyString_escaped (s : List Byte) : copyString (s.flatMap escaped) = s := by
  induction s with
  | nil => rfl
  | cons b s ih =>
      rw [List.flatMap_cons]
      rcases unescape_escaped b with ⟨heq, hb, -⟩ | ⟨c, heq, hc⟩
      · rw [heq, List.singleton_append]
        cases htext : s.flatMap escaped with
        | nil =>
            rw [htext] at ih
            rw [copyString, ← ih]
            · rfl
            · nofun
        | cons c rest =>
            rw [htext] at ih
            rw [copyString, if_neg hb, ih]
      · rw [heq]
        simp only [List.cons_append, List.nil_append]
        rw [copyString, if_pos rfl, hc]
        exact congrArg (b :: ·) ih

/-- The pass that counts finds one escape for each character that is written with
two. -/
theorem countEscapes_escaped (s : List Byte) :
    s.length + countEscapes (s.flatMap escaped) = (s.flatMap escaped).length := by
  induction s with
  | nil => rfl
  | cons b s ih =>
      rw [List.flatMap_cons]
      rcases unescape_escaped b with ⟨heq, hb, -⟩ | ⟨c, heq, hc⟩
      · rw [heq, List.singleton_append]
        cases htext : s.flatMap escaped with
        | nil =>
            rw [htext] at ih
            rw [countEscapes, List.length_cons, List.length_cons]
            · exact congrArg (· + 1) ih
            · nofun
        | cons c rest =>
            rw [htext] at ih
            rw [countEscapes, if_neg fun h => hb h.1, List.length_cons, List.length_cons]
            omega
      · rw [heq]
        simp only [List.cons_append, List.nil_append]
        rw [countEscapes, if_pos ⟨rfl, by rw [hc]; rfl⟩]
        simp only [List.length_cons]
        omega

/-- **A string comes back**: the two passes agree. -/
theorem readString_writeString (s rest : List Byte) :
    readString (s.flatMap escaped ++ quote :: rest) = .ok (some (.string s), rest) := by
  have hlen := countEscapes_escaped s
  unfold readString
  rw [scanString_escaped]
  dsimp only
  rw [newStringWithLength, copyString_escaped, List.take_of_length_le (by omega)]

/-! ## The first character -/

/-- An object starts here: the character is no bracket that closes, and no dot of a
dotted list. -/
def Opens (text : List Byte) : Prop :=
  ∃ ch rest, text = ch :: rest ∧ readNext false text = some (ch, rest) ∧ ch ≠ 0x29 ∧
    (ch = dot → starts isSymbolChar rest = true)

/-- A text that the reader takes for a number or a symbol. -/
structure IsToken (text : List Byte) : Prop where
  chars : ∀ b ∈ text, isSymbolChar b = true
  first : ∃ ch rest, text = ch :: rest ∧ (ch = dot → starts isSymbolChar rest = true) ∧
    (ch = 0x23 → starts (· = 0x21) rest = false)

/-- What the characters of a token are not. -/
theorem isSymbolChar_ne {b : Byte} (h : isSymbolChar b = true) :
    isSpace b = false ∧ b ≠ 0x3B ∧ b ≠ 0x27 ∧ b ≠ quote ∧ b ≠ 0x28 ∧ b ≠ 0x29 := by
  have hall : ∀ n : Fin 256, isSymbolChar (UInt8.ofNat n) = true →
      isSpace (UInt8.ofNat n) = false ∧ UInt8.ofNat n ≠ 0x3B ∧ UInt8.ofNat n ≠ 0x27 ∧
        UInt8.ofNat n ≠ quote ∧ UInt8.ofNat n ≠ 0x28 ∧ UInt8.ofNat n ≠ 0x29 := by
    decide +kernel
  have hb : UInt8.ofNat b.toNat = b := UInt8.ofNat_toNat
  rw [← hb] at h ⊢
  exact hall ⟨b.toNat, b.toNat_lt⟩ h

theorem readNext_first {ch : Byte} {rest : List Byte} (hspace : isSpace ch = false) (hcomment : ch ≠ 0x3B)
    (hscript : ch = 0x23 → starts (· = 0x21) rest = false) :
    readNext false (ch :: rest) = some (ch, rest) := by
  have hnone : (decide (ch = 0x23) && starts (· = 0x21) rest) = false := by
    by_cases hch : ch = 0x23
    · rw [hscript hch, Bool.and_false]
    · rw [decide_eq_false hch, Bool.false_and]
  rw [readNext, hnone, hspace, if_neg Bool.false_ne_true, if_neg hcomment, if_neg Bool.false_ne_true]

/-- The characters that are skipped stand in front of the rest. -/
theorem readNext_suffix (text : List Byte) :
    ∀ {flag : Bool} {ch : Byte} {rest : List Byte},
      readNext flag text = some (ch, rest) → ch :: rest <:+ text := by
  induction text with
  | nil =>
      intro flag ch rest h
      cases flag <;> cases h
  | cons b text ih =>
      intro flag ch rest h
      cases flag with
      | true => exact (ih h).trans (List.suffix_cons b text)
      | false =>
          rw [readNext] at h
          split at h
          · exact (ih h).trans (List.suffix_cons b text)
          split at h
          · exact (ih h).trans (List.suffix_cons b text)
          split at h
          · exact (ih h).trans (List.suffix_cons b text)
          · cases h
            exact List.suffix_refl _

theorem IsToken.readNext {text : List Byte} (h : IsToken text) {rest : List Byte} (hends : Ends rest) :
    ∃ ch r, text = ch :: r ∧ readNext false (text ++ rest) = some (ch, r ++ rest) := by
  obtain ⟨ch, r, rfl, hdot, hscript⟩ := h.first
  obtain ⟨hspace, hcomment, -⟩ := isSymbolChar_ne (h.chars ch List.mem_cons_self)
  refine ⟨ch, r, rfl, readNext_first hspace hcomment fun hch => ?_⟩
  exact (starts_append rfl rfl hends r).trans (hscript hch)

theorem IsToken.opens {text : List Byte} (h : IsToken text) {rest : List Byte} (hends : Ends rest) :
    Opens (text ++ rest) := by
  obtain ⟨ch, r, heq, hnext⟩ := h.readNext hends
  obtain ⟨ch', r', heq', hdot, -⟩ := h.first
  obtain ⟨rfl, rfl⟩ := List.cons.inj (heq.symm.trans heq')
  have hsymbol := h.chars ch (heq ▸ List.mem_cons_self)
  refine ⟨ch, r ++ rest, by rw [heq]; rfl, hnext, (isSymbolChar_ne hsymbol).2.2.2.2.2, fun hch => ?_⟩
  rw [starts_append rfl rfl hends]
  exact hdot hch

/-- **A token is read up to its end.** -/
theorem IsToken.readExpr {text : List Byte} (h : IsToken text) {rest : List Byte} (hends : Ends rest)
    (fuel : Nat) : readExpr (fuel + 1) (text ++ rest) =
      .ok (some (readNumberOrSymbol text).1, (readNumberOrSymbol text).2 ++ rest) := by
  obtain ⟨ch, r, heq, hnext⟩ := h.readNext hends
  obtain ⟨ch', r', heq', hdot, -⟩ := h.first
  obtain ⟨rfl, rfl⟩ := List.cons.inj (heq.symm.trans heq')
  have hsymbol := h.chars ch (heq ▸ List.mem_cons_self)
  obtain ⟨-, -, hquote, hstring, hopen, -⟩ := isSymbolChar_ne hsymbol
  have hfunction : starts (· = 0x27) (r ++ rest) = false := by
    rw [starts_append rfl rfl hends]
    cases hr : r with
    | nil => rfl
    | cons b r' =>
        have hmem : b ∈ text := by rw [heq, hr]; simp
        exact decide_eq_false (isSymbolChar_ne (h.chars b hmem)).2.2.1
  have htoken : (isSymbolChar ch && (decide (ch ≠ dot) || starts isSymbolChar (r ++ rest))) = true := by
    rw [hsymbol, Bool.true_and, starts_append rfl rfl hends]
    by_cases hch : ch = dot
    · rw [hdot hch, Bool.or_true]
    · rw [decide_eq_true hch, Bool.true_or]
  rw [Lisp.readExpr, hnext]
  dsimp only
  rw [hfunction, Bool.and_false, if_neg Bool.false_ne_true, if_neg hquote, if_neg hstring, if_neg hopen,
    if_pos htoken, ← List.cons_append, ← heq, readNumberOrSymbol_append (by rw [heq]; nofun) hends]

theorem formatG_isToken (n : Int) : IsToken (formatG n) := by
  have hnat : ∀ n : Nat, ∃ ch rest, formatNat n = ch :: rest ∧ isDigit ch = true := by
    intro n
    by_cases h : n < 10 ^ 6
    · have hformat : formatNat n = decimal n := if_pos h
      rw [hformat]
      cases hd : decimal n with
      | nil => exact absurd hd (decimal_ne_nil n)
      | cons ch rest => exact ⟨ch, rest, rfl, isDigit_of_mem_decimal (hd ▸ List.mem_cons_self)⟩
    · obtain ⟨d, frac, rest, htext, hd, -⟩ := formatNat_exponent h
      exact ⟨d, _, htext, hd⟩
  refine ⟨formatG_chars n, ?_⟩
  unfold formatG
  split
  · exact ⟨_, _, rfl, nofun, nofun⟩
  · obtain ⟨ch, rest, htext, hd⟩ := hnat n.natAbs
    refine ⟨ch, rest, htext, ?_, ?_⟩
    · rintro rfl
      cases hd
    · rintro rfl
      cases hd

/-! ## Symbols -/

/-- A symbol that the reader accepts: its name is read as the symbol itself. -/
def Accepted (name : List Byte) : Prop := readText name = .ok (some (.symbol name), [])

instance (name : List Byte) : Decidable (Accepted name) :=
  inferInstanceAs (Decidable (readText name = .ok (some (.symbol name), [])))

theorem listOf_cons (items : List Object) : ∀ (item tail : Object),
    ∃ car cdr, listOf (item :: items) tail = .cons car cdr := by
  induction items with
  | nil => exact fun item tail => ⟨item, tail, rfl⟩
  | cons next items ih => exact fun item tail => ih next (.cons item tail)

/-- A list with objects in it is no symbol. -/
theorem listOf_symbol {items : List Object} {tail : Object} {name : List Byte}
    (h : listOf items tail = .symbol name) : items = [] := by
  cases items with
  | nil => rfl
  | cons item items =>
      obtain ⟨car, cdr, heq⟩ := listOf_cons items item tail
      cases heq.symm.trans h

theorem bind_ok {A B : Type} {x : Except ReadError A} {f : A → Except ReadError B} {b : B}
    (h : (x >>= f) = .ok b) : ∃ a, x = .ok a ∧ f a = .ok b := by
  cases x with
  | error e => cases h
  | ok a => exact ⟨a, rfl, h⟩

theorem readUnary_symbol {symbol : String} {fuel : Nat} {text rest : List Byte} {name : List Byte} :
    readUnary symbol fuel text ≠ .ok (some (.symbol name), rest) := by
  intro h
  cases fuel with
  | zero => cases h
  | succ fuel =>
      rw [readUnary] at h
      split at h
      · cases h
      · obtain ⟨⟨o, left⟩, -, hret⟩ := bind_ok h
        cases o with
        | none => cases hret
        | some o => cases hret

/-- The only symbol that a list is, is the empty one. -/
theorem readList_symbol (fuel : Nat) : ∀ {items : List Object} {text rest : List Byte} {name : List Byte},
    readList items fuel text = .ok (some (.symbol name), rest) → name = bytes "nil" := by
  induction fuel with
  | zero =>
      intro items text rest name h
      cases h
  | succ fuel ih =>
      intro items text rest name h
      rw [readList] at h
      split at h
      · cases h
      split at h
      · -- the bracket that closes
        have heq : listOf items nil = .symbol name :=
          Option.some.inj (Prod.mk.inj (Except.ok.inj h)).1
        rw [listOf_symbol heq] at heq
        cases heq
        rfl
      split at h
      · -- a dot
        split at h
        · cases h
        next hlast =>
          split at h
          · cases h
          · obtain ⟨⟨o, left⟩, -, hret⟩ := bind_ok h
            cases o with
            | none => cases hret
            | some o =>
                dsimp only at hret
                split at hret
                · have heq : listOf items o = .symbol name :=
                    Option.some.inj (Prod.mk.inj (Except.ok.inj hret)).1
                  rw [listOf_symbol heq] at hlast
                  exact absurd rfl hlast
                · cases hret
      · obtain ⟨⟨o, left⟩, -, hret⟩ := bind_ok h
        cases o with
        | none => cases hret
        | some o => exact ih hret

theorem readString_symbol {text rest : List Byte} {name : List Byte} :
    readString text ≠ .ok (some (.symbol name), rest) := by
  intro h
  unfold readString at h
  split at h
  · cases h
  · cases h

/-- A symbol is all the characters of its kind. -/
theorem readNumberOrSymbol_symbol {text rest : List Byte} {name : List Byte}
    (h : readNumberOrSymbol text = (.symbol name, rest)) :
    text.takeWhile isSymbolChar = name ∧ text.dropWhile isSymbolChar = rest := by
  have hread : ∀ {r : Object × List Byte}, r = readSymbol text → r = (.symbol name, rest) →
      text.takeWhile isSymbolChar = name ∧ text.dropWhile isSymbolChar = rest := by
    rintro r rfl hr
    exact ⟨Object.symbol.inj (Prod.mk.inj hr).1, (Prod.mk.inj hr).2⟩
  unfold readNumberOrSymbol at h
  dsimp only at h
  split at h
  · split at h
    · cases h
    split at h
    · split at h
      · cases h
      · exact hread rfl h
    · exact hread rfl h
  · exact hread rfl h

/-- **A name that is read as itself is a token.** -/
theorem Accepted.token {name : List Byte} (h : Accepted name) :
    IsToken name ∧ readNumberOrSymbol name = (.symbol name, []) := by
  unfold Accepted readText at h
  rw [readExpr] at h
  split at h
  · cases h
  next ch rest hnext =>
    split at h
    · exact absurd h readUnary_symbol
    split at h
    · exact absurd h readUnary_symbol
    split at h
    · exact absurd h readString_symbol
    split at h
    next hopen =>
      have hname := readList_symbol _ h
      rw [hname] at hnext
      have hfirst : readNext false (bytes "nil") = some (0x6E, bytes "il") := by decide
      rw [hfirst] at hnext
      cases hnext
      cases hopen
    split at h
    next htoken =>
      have hread : readNumberOrSymbol (ch :: rest) = (.symbol name, []) := by
        have hpair := Except.ok.inj h
        have hfst := Option.some.inj (Prod.mk.inj hpair).1
        have hsnd := (Prod.mk.inj hpair).2
        exact Prod.ext hfst hsnd
      obtain ⟨htake, hdrop⟩ := readNumberOrSymbol_symbol hread
      have hname : ch :: rest = name := by
        have hall := List.takeWhile_append_dropWhile (p := isSymbolChar) (l := ch :: rest)
        rw [htake, hdrop, List.append_nil] at hall
        exact hall.symm
      have hchars : ∀ b ∈ ch :: rest, isSymbolChar b = true :=
        List.takeWhile_eq_self_iff.mp (htake.trans hname.symm)
      rw [← hname] at hnext hread ⊢
      refine ⟨⟨hchars, ch, rest, rfl, fun hch => ?_, fun hch => ?_⟩, hread⟩
      · have hdot := (Bool.and_eq_true_iff.mp htoken).2
        rw [hch] at hdot
        simpa using hdot
      · -- a script line is skipped, and the character with it
        by_contra hscript
        rw [Bool.not_eq_false] at hscript
        rw [readNext, hscript, decide_eq_true hch, Bool.and_self, if_pos rfl] at hnext
        have hlen := (readNext_suffix rest hnext).length_le
        rw [List.length_cons] at hlen
        omega
    · cases h

/-! ## Objects -/

/-- The objects in question: symbols that the reader accepts, strings, which have no NUL,
numbers that a double holds exactly, and conses of them. -/
def InDomain : Object → Prop
  | .number (.long n) => n.natAbs ≤ 2 ^ 53
  | .number (.real _) => False
  | .symbol name => Accepted name
  | .string s => 0 ∉ s
  | .cons car cdr => InDomain car ∧ InDomain cdr

mutual

/-- What the reader makes of an object's text. -/
def reread : Object → Except ReadError Object
  | .number (.long n) => .ok (if n.natAbs < 10 ^ 6 then .number (.long n) else .symbol (formatG n))
  | .cons car cdr => do
      let car ← reread car
      let cdr ← rereadTail car cdr
      return .cons car cdr
  | o => .ok o

/-- What it makes of the rest of a list, behind its last object. -/
def rereadTail (last : Object) : Object → Except ReadError Object
  | .cons car cdr => do
      let car ← reread car
      let cdr ← rereadTail car cdr
      return .cons car cdr
  | o =>
      if o = nil then .ok nil
      else if last = nil then exception "unexpected dot at start of list"
      else reread o

end

@[simp] theorem reread_symbol (name : List Byte) : reread (.symbol name) = .ok (.symbol name) := by
  rw [reread] <;> nofun

@[simp] theorem reread_string (s : List Byte) : reread (.string s) = .ok (.string s) := by
  rw [reread] <;> nofun

theorem readExpr_blank (fuel : Nat) (text : List Byte) :
    readExpr fuel (0x20 :: text) = readExpr fuel text := by
  cases fuel with
  | zero => rfl
  | succ fuel =>
      rw [readExpr, readExpr]
      rfl

theorem readList_blank (items : List Object) (fuel : Nat) (text : List Byte) :
    readList items fuel (0x20 :: text) = readList items fuel text := by
  cases fuel with
  | zero => rfl
  | succ fuel =>
      rw [readList, readList]
      rfl

theorem readExpr_quote (fuel : Nat) (rest : List Byte) :
    readExpr (fuel + 1) (quote :: rest) = readString rest := by
  rw [readExpr]
  rfl

theorem readExpr_bracket (fuel : Nat) (rest : List Byte) :
    readExpr (fuel + 1) (0x28 :: rest) = readList [] fuel rest := by
  rw [readExpr]
  rfl

/-- The loop reads an object that starts here. -/
theorem readList_item {text : List Byte} (h : Opens text) {rest : List Byte} (items : List Object)
    (fuel : Nat) {r : Except ReadError Object}
    (hread : readExpr fuel text = r >>= fun o => .ok (some o, rest)) :
    readList items (fuel + 1) text = r >>= fun o => readList (o :: items) fuel rest := by
  obtain ⟨ch, left, rfl, hnext, hclose, hdot⟩ := h
  have hpoint : (decide (ch = dot) && !starts isSymbolChar left) = false := by
    by_cases hch : ch = dot
    · rw [hdot hch, Bool.not_true, Bool.and_false]
    · rw [decide_eq_false hch, Bool.false_and]
  rw [readList, hnext]
  dsimp only
  rw [if_neg hclose, hpoint, if_neg Bool.false_ne_true, hread]
  cases r with
  | error e => rfl
  | ok o => rfl

/-- Behind a dot the loop reads one object and the bracket, if an object stands in front
of the dot. -/
theorem readList_dotted {text : List Byte} (h : Opens text) {rest : List Byte} (items : List Object)
    (fuel : Nat) {r : Except ReadError Object}
    (hread : readExpr fuel text = r >>= fun o => .ok (some o, 0x29 :: rest)) :
    readList items (fuel + 1) (dot :: 0x20 :: text) =
      if items.headD nil = nil then exception "unexpected dot at start of list"
      else r >>= fun o => .ok (some (listOf items o), rest) := by
  obtain ⟨ch, left, rfl, hnext, hclose, -⟩ := h
  have hdot : readNext false (dot :: 0x20 :: ch :: left) = some (dot, 0x20 :: ch :: left) := rfl
  have hblank : readNext false (0x20 :: ch :: left) = some (ch, left) := hnext
  have hbracket : readNext false (0x29 :: rest) = some (0x29, rest) := rfl
  have hnot : (dot = 0x29) = False := by decide
  have hpoint : (decide (dot = dot) && !starts isSymbolChar (0x20 :: ch :: left)) = true := by
    simp [starts, isSymbolChar, isAlnum, isDigit]
    decide
  rw [readList, hdot]
  dsimp only
  rw [if_neg (by rw [hnot]; exact not_false), if_pos hpoint, hblank, readExpr_blank, hread]
  split
  · rfl
  · split
    next heq =>
      cases heq
      exact absurd rfl hclose
    · cases r with
      | error e => rfl
      | ok o => simp [hbracket, bind, Except.bind, pure, Except.pure]

section Objects

variable (printReal : List Byte → List Byte)

theorem opens_writeObject {o : Object} (h : InDomain o) {rest : List Byte} (hends : Ends rest) :
    Opens (writeObject printReal o ++ rest) := by
  cases o with
  | number x =>
      cases x with
      | long n => exact (formatG_isToken n).opens hends
      | real text => exact absurd h not_false
  | symbol name => exact (Accepted.token h).1.opens hends
  | string s =>
      have hopen : writeObject printReal (.string s) = quote :: (s.flatMap escaped ++ [quote]) := rfl
      rw [hopen]
      exact ⟨quote, _, rfl, rfl, by decide, nofun⟩
  | cons car cdr =>
      rw [writeObject]
      exact ⟨0x28, _, rfl, rfl, by decide, nofun⟩

theorem writeObject_length_pos {o : Object} (h : InDomain o) : 0 < (writeObject printReal o).length := by
  obtain ⟨ch, rest, heq, -⟩ := opens_writeObject printReal h Ends.nil
  rw [List.append_nil] at heq
  rw [heq]
  exact Nat.succ_pos _

/-- The reader makes of the object's text what `reread` says. -/
def ReadsBack (o : Object) : Prop :=
  ∀ (fuel : Nat) (rest : List Byte), Ends rest → 2 * (writeObject printReal o).length ≤ fuel →
    readExpr fuel (writeObject printReal o ++ rest) = reread o >>= fun o => .ok (some o, rest)

/-- The loop makes of the rest of a list what `rereadTail` says. -/
def ReadsTail (o : Object) : Prop :=
  ∀ (last : Object) (items : List Object) (fuel : Nat) (rest : List Byte),
    2 * (writeTail printReal o).length ≤ fuel →
    readList (last :: items) fuel (writeTail printReal o ++ rest) =
      rereadTail last o >>= fun o => .ok (some (listOf (last :: items) o), rest)

/-- In front of the rest of a list an object ends. -/
theorem ends_writeTail (o : Object) (rest : List Byte) : Ends (writeTail printReal o ++ rest) := by
  cases o with
  | cons car cdr =>
      rw [writeTail]
      exact Ends.blank _
  | _ =>
      rw [writeTail]
      · split
        · exact Ends.bracket _
        · exact Ends.blank _
      · nofun

theorem writeTail_length_pos (o : Object) : 0 < (writeTail printReal o).length := by
  have hends := ends_writeTail printReal o []
  rw [List.append_nil] at hends
  cases o with
  | cons car cdr =>
      rw [writeTail]
      exact Nat.succ_pos _
  | _ =>
      rw [writeTail]
      · split
        · exact Nat.succ_pos _
        · exact Nat.succ_pos _
      · nofun

variable {printReal}

/-- The bracket behind the last object, with or without a dotted one. -/
theorem ReadsBack.tail {o : Object} (h : ReadsBack printReal o) (hdom : InDomain o)
    (hatom : ∀ car cdr, o ≠ .cons car cdr) : ReadsTail printReal o := by
  intro last items fuel rest hfuel
  have htail : writeTail printReal o =
      if o = nil then [0x29] else bytes " . " ++ writeAtom printReal o ++ [0x29] := by
    rw [writeTail]
    exact hatom
  have hreread : rereadTail last o =
      if o = nil then .ok nil
      else if last = nil then exception "unexpected dot at start of list" else reread o := by
    rw [rereadTail]
    exact hatom
  have hatomText : writeObject printReal o = writeAtom printReal o := by
    rw [writeObject]
    exact hatom
  rw [htail] at hfuel ⊢
  rw [hreread]
  by_cases hnil : o = nil
  · rw [if_pos hnil] at hfuel ⊢
    rw [if_pos hnil]
    obtain ⟨fuel, rfl⟩ := Nat.exists_eq_add_of_le' (show 1 ≤ fuel by simp at hfuel; omega)
    rw [readList]
    rfl
  · rw [if_neg hnil] at hfuel ⊢
    rw [if_neg hnil]
    have hpoint : bytes " . " = [0x20, dot, 0x20] := by decide
    rw [hpoint, ← hatomText] at hfuel ⊢
    simp only [List.length_append, List.length_cons, List.length_nil] at hfuel
    obtain ⟨fuel, rfl⟩ := Nat.exists_eq_add_of_le' (show 1 ≤ fuel by omega)
    have hread := h fuel (0x29 :: rest) (Ends.bracket rest) (by omega)
    have hopens := opens_writeObject printReal hdom (Ends.bracket rest)
    have hdotted := readList_dotted hopens (last :: items) fuel hread
    have htext : [0x20, dot, 0x20] ++ writeObject printReal o ++ [0x29] ++ rest =
        0x20 :: dot :: 0x20 :: (writeObject printReal o ++ 0x29 :: rest) := by simp
    rw [htext, readList_blank, hdotted, List.headD_cons]
    split
    · rfl
    · rfl

/-- An object is read and then the rest of its list. -/
theorem ReadsBack.cons {car cdr : Object} (hcar : ReadsBack printReal car) (hcdr : ReadsTail printReal cdr)
    (hdom : InDomain car) (items : List Object) (fuel : Nat) (rest : List Byte)
    (hfuel : 2 * ((writeObject printReal car).length + (writeTail printReal cdr).length) ≤ fuel + 1) :
    readList items fuel (writeObject printReal car ++ (writeTail printReal cdr ++ rest)) =
      (do
        let car ← reread car
        let cdr ← rereadTail car cdr
        return Object.cons car cdr) >>= fun o => .ok (some (listOf items o), rest) := by
  have hends := ends_writeTail printReal cdr rest
  have hpos := writeObject_length_pos printReal hdom
  have hpos' := writeTail_length_pos printReal cdr
  obtain ⟨fuel, rfl⟩ := Nat.exists_eq_add_of_le' (show 1 ≤ fuel by omega)
  have hread := hcar fuel _ hends (by omega)
  rw [readList_item (opens_writeObject printReal hdom hends) items fuel hread]
  cases reread car with
  | error e => rfl
  | ok car' =>
      have htail := hcdr car' items fuel rest (by omega)
      show readList (car' :: items) fuel _ = _
      rw [htail]
      show _ = (rereadTail car' cdr >>= fun cdr => Except.ok (Object.cons car' cdr)) >>=
        fun o => Except.ok (some (listOf items o), rest)
      cases rereadTail car' cdr with
      | error e => rfl
      | ok cdr' => rfl

variable (printReal)

/-- **What the reader makes of an object's text.** -/
theorem readsBack_readsTail (o : Object) (h : InDomain o) :
    ReadsBack printReal o ∧ ReadsTail printReal o := by
  have hatom : ReadsBack printReal o → (∀ car cdr, o ≠ .cons car cdr) →
      ReadsBack printReal o ∧ ReadsTail printReal o := fun hread hne => ⟨hread, hread.tail h hne⟩
  -- a token: the fuel is there for one step
  have htoken : ∀ {text rest : List Byte} {fuel : Nat} {o : Object}, IsToken text → Ends rest →
      2 * text.length ≤ fuel → readNumberOrSymbol text = (o, []) →
      readExpr fuel (text ++ rest) = .ok (some o, rest) := by
    intro text rest fuel o htext hends hfuel hread
    obtain ⟨ch, r, heq, -⟩ := htext.first
    rw [heq, List.length_cons] at hfuel
    obtain ⟨fuel, rfl⟩ := Nat.exists_eq_add_of_le' (show 1 ≤ fuel by omega)
    rw [htext.readExpr hends, hread]
    rfl
  induction o with
  | number x =>
      cases x with
      | real text => exact absurd h not_false
      | long n =>
          refine hatom (fun fuel rest hends hfuel => ?_) nofun
          have htext : writeObject printReal (.number (.long n)) = formatG n := rfl
          rw [htext] at hfuel ⊢
          by_cases hn : n.natAbs < 10 ^ 6
          · rw [htoken (formatG_isToken n) hends hfuel (readNumberOrSymbol_decimal hn), reread, if_pos hn]
            rfl
          · rw [htoken (formatG_isToken n) hends hfuel (readNumberOrSymbol_formatG hn), reread, if_neg hn]
            rfl
  | symbol name =>
      refine hatom (fun fuel rest hends hfuel => ?_) nofun
      obtain ⟨hname, hread⟩ := Accepted.token h
      have htext : writeObject printReal (.symbol name) = name := rfl
      rw [htext] at hfuel ⊢
      rw [htoken hname hends hfuel hread, reread_symbol]
      rfl
  | string s =>
      refine hatom (fun fuel rest hends hfuel => ?_) nofun
      have htext : writeObject printReal (.string s) ++ rest =
          quote :: (s.flatMap escaped ++ quote :: rest) := by
        show quote :: (s.flatMap escaped ++ [quote]) ++ rest = _
        simp
      have hpos := writeObject_length_pos printReal h
      obtain ⟨fuel, rfl⟩ := Nat.exists_eq_add_of_le' (show 1 ≤ fuel by omega)
      rw [htext, readExpr_quote, readString_writeString, reread_string]
      rfl
  | cons car cdr hcar hcdr =>
      have hcar' := (hcar h.1 fun hread hne => ⟨hread, hread.tail h.1 hne⟩).1
      have hcdr' := (hcdr h.2 fun hread hne => ⟨hread, hread.tail h.2 hne⟩).2
      constructor
      · intro fuel rest hends hfuel
        rw [writeObject] at hfuel ⊢
        simp only [List.length_cons, List.length_append] at hfuel
        obtain ⟨fuel, rfl⟩ := Nat.exists_eq_add_of_le' (show 1 ≤ fuel by omega)
        have hlist := hcar'.cons hcdr' h.1 [] fuel rest (by omega)
        rw [List.cons_append, List.append_assoc, readExpr_bracket, hlist, reread]
        rfl
      · intro last items fuel rest hfuel
        rw [writeTail] at hfuel ⊢
        simp only [List.length_cons, List.length_append] at hfuel
        have hlist := hcar'.cons hcdr' h.1 (last :: items) fuel rest (by omega)
        rw [List.cons_append, List.append_assoc, readList_blank, hlist, rereadTail]

end Objects

/-! ## What comes back -/

mutual

/-- Every number has six digits or fewer, and no dotted list has the symbol `nil` in
front of the dot. -/
def Clean : Object → Prop
  | .number (.long n) => n.natAbs < 10 ^ 6
  | .cons car cdr => Clean car ∧ CleanTail car cdr
  | _ => True

/-- The rest of a list, behind its last object. -/
def CleanTail (last : Object) : Object → Prop
  | .cons car cdr => Clean car ∧ CleanTail car cdr
  | o => o = nil ∨ last ≠ nil ∧ Clean o

end

/-- Both parts of a cons come back, or the cons does not. -/
theorem reread_cons_iff (car cdr : Object) :
    ((do
      let car ← reread car
      let cdr ← rereadTail car cdr
      return Object.cons car cdr) = .ok (.cons car cdr)) ↔
      reread car = .ok car ∧ rereadTail car cdr = .ok cdr := by
  constructor
  · intro h
    obtain ⟨car', hcar, h⟩ := bind_ok h
    obtain ⟨cdr', hcdr, h⟩ := bind_ok h
    obtain ⟨rfl, rfl⟩ := Object.cons.inj (Except.ok.inj h)
    exact ⟨hcar, hcdr⟩
  · rintro ⟨hcar, hcdr⟩
    rw [hcar]
    show (rereadTail car cdr >>= fun cdr => Except.ok (Object.cons car cdr)) = _
    rw [hcdr]
    rfl

/-- What is no cons comes back behind a dot as it does elsewhere, unless `nil` stands in
front. -/
theorem rereadTail_atom_iff {o : Object} (hatom : ∀ car cdr, o ≠ .cons car cdr) (last : Object)
    (h : reread o = .ok o ↔ Clean o) : rereadTail last o = .ok o ↔ CleanTail last o := by
  have htail : rereadTail last o =
      if o = nil then .ok nil
      else if last = nil then exception "unexpected dot at start of list" else reread o := by
    rw [rereadTail]
    exact hatom
  have hclean : CleanTail last o ↔ o = nil ∨ last ≠ nil ∧ Clean o := by
    rw [CleanTail]
    exact hatom
  rw [htail, hclean]
  by_cases hnil : o = nil
  · rw [if_pos hnil, hnil]
    exact iff_of_true rfl (Or.inl rfl)
  · rw [if_neg hnil]
    by_cases hlast : last = nil
    · rw [if_pos hlast]
      refine iff_of_false nofun ?_
      rintro (h | h)
      · exact hnil h
      · exact h.1 hlast
    · rw [if_neg hlast, h]
      exact ⟨fun h => Or.inr ⟨hlast, h⟩, fun h => (h.resolve_left hnil).2⟩

theorem reread_iff (o : Object) (h : InDomain o) :
    (reread o = .ok o ↔ Clean o) ∧ ∀ last, rereadTail last o = .ok o ↔ CleanTail last o := by
  have hatom : (reread o = .ok o ↔ Clean o) → (∀ car cdr, o ≠ .cons car cdr) →
      (reread o = .ok o ↔ Clean o) ∧ ∀ last, rereadTail last o = .ok o ↔ CleanTail last o :=
    fun hiff hne => ⟨hiff, fun last => rereadTail_atom_iff hne last hiff⟩
  induction o with
  | number x =>
      cases x with
      | real text => exact absurd h not_false
      | long n =>
          refine hatom ?_ nofun
          rw [reread, Clean]
          split
          next hn => exact iff_of_true rfl hn
          next hn => exact iff_of_false nofun hn
  | symbol name =>
      refine hatom (iff_of_true (reread_symbol name) ?_) nofun
      rw [Clean]
      · exact trivial
      all_goals nofun
  | string s =>
      refine hatom (iff_of_true (reread_string s) ?_) nofun
      rw [Clean]
      · exact trivial
      all_goals nofun
  | cons car cdr hcar hcdr =>
      have hcar' := (hcar h.1 fun hiff hne => ⟨hiff, fun last => rereadTail_atom_iff hne last hiff⟩).1
      have hcdr' := (hcdr h.2 fun hiff hne => ⟨hiff, fun last => rereadTail_atom_iff hne last hiff⟩).2
      constructor
      · rw [reread, Clean, reread_cons_iff, hcar', hcdr']
      · intro last
        rw [rereadTail, CleanTail, reread_cons_iff, hcar', hcdr']

/-- **What comes back**: an object with no number of seven digits or more and with no
symbol `nil` in front of a dot, and no other. -/
theorem written_reads_back_iff (printReal : List Byte → List Byte) (o : Object) (h : InDomain o) :
    readText (writeObject printReal o) = .ok (some o, []) ↔ Clean o := by
  have hread := (readsBack_readsTail printReal o h).1
    (2 * (writeObject printReal o).length + 1) [] Ends.nil (Nat.le_succ _)
  rw [List.append_nil] at hread
  rw [readText, hread, ← (reread_iff o h).1]
  cases reread o with
  | error e => exact iff_of_false nofun nofun
  | ok o' =>
      constructor
      · intro heq
        have hsome := Option.some.inj (Prod.mk.inj (Except.ok.inj heq)).1
        rw [hsome]
      · intro heq
        rw [Except.ok.inj heq]
        rfl

/-- `(quote (a "\"\n" . -42))` comes back. -/
theorem quoted_dotted_reads_back :
    let o : Object := .cons (.symbol (bytes "quote")) (.cons (.cons (.symbol (bytes "a"))
      (.cons (.string [quote, newline]) (.number (.long (-42))))) nil)
    readText (writeObject id o) = .ok (some o, []) := by
  intro o
  have hquote : Accepted (bytes "quote") := by decide
  have ha : Accepted (bytes "a") := by decide
  have hnil : Accepted (bytes "nil") := by decide
  have hdom : InDomain o :=
    ⟨hquote, ⟨ha, show (0 : Byte) ∉ [quote, newline] by decide, show (-42 : Int).natAbs ≤ 2 ^ 53 by decide⟩, hnil⟩
  refine (written_reads_back_iff id o hdom).mpr ?_
  simp [o, Clean, CleanTail, nil]

/-- A million comes back as a symbol, and `(nil . 5)` is refused. -/
theorem million_and_dotted_nil_do_not_read_back :
    InDomain (.number (.long 1000000)) ∧
      writeObject id (.number (.long 1000000)) = bytes "1e+06" ∧
      readText (bytes "1e+06") = .ok (some (.symbol (bytes "1e+06")), []) ∧
      InDomain (.cons nil (.number (.long 5))) ∧
      writeObject id (.cons nil (.number (.long 5))) = bytes "(nil . 5)" ∧
      readText (bytes "(nil . 5)") = exception "unexpected dot at start of list" := by
  have hnil : Accepted (bytes "nil") := by decide
  have hdom : InDomain (.cons nil (.number (.long 5))) := ⟨hnil, show (5 : Int).natAbs ≤ 2 ^ 53 by decide⟩
  have hmillion : InDomain (.number (.long 1000000)) := show (1000000 : Int).natAbs ≤ 2 ^ 53 by decide
  exact ⟨hmillion, by decide, by decide, hdom, by decide, by decide⟩

end Lisp
