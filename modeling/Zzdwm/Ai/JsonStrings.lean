import Zzdwm.Lib.Json

/-!
# JSON strings of the assistant (`ai.c`)

The client decodes the strings of an answer into arrays of a fixed size.

* `aiDecodeJsonString` — the decoder, which leaves the cursor where it stops;
* `aiDecodeEscape_string` — one escape, as a JSON text has it;
* `aiDecodeJsonString_spec` — it gives what a JSON string stands for, if there is room for it.

The cursor is the text from there to the end of the answer.
-/

namespace Ai

open Ascii (Byte bytes isDigit)
open Json (quote backslash)

/-! ## The decoder -/

/-- `ai_hex_value`. -/
def aiHexValue (character : Byte) : Option Nat :=
  if 0x30 ≤ character ∧ character ≤ 0x39 then some (character.toNat - 0x30)
  else if 0x61 ≤ character ∧ character ≤ 0x66 then some (character.toNat - 0x61 + 10)
  else if 0x41 ≤ character ∧ character ≤ 0x46 then some (character.toNat - 0x41 + 10)
  else none

/-- The loop of `ai_parse_hex`: so many digits are to come. -/
def aiParseHexLoop : Nat → Nat → List Byte → Option Nat × List Byte
  | 0, result, cursor => (some result, cursor)
  | _ + 1, _, [] => (none, [])
  | count + 1, result, character :: cursor =>
      match aiHexValue character with
      | none => (none, character :: cursor)
      | some digit => aiParseHexLoop count (result * 16 + digit) cursor

/-- `ai_parse_hex`. -/
def aiParseHex (cursor : List Byte) : Option Nat × List Byte := aiParseHexLoop 4 0 cursor

/-- The bytes that `ai_put_utf8` puts. -/
def aiUtf8 (character : Nat) : List Byte :=
  if character ≤ 0x7F then [character.toUInt8]
  else if character ≤ 0x7FF then
    [(0xC0 ||| character >>> 6).toUInt8, (0x80 ||| character &&& 0x3F).toUInt8]
  else if character ≤ 0xFFFF then
    [(0xE0 ||| character >>> 12).toUInt8, (0x80 ||| character >>> 6 &&& 0x3F).toUInt8,
      (0x80 ||| character &&& 0x3F).toUInt8]
  else
    [(0xF0 ||| character >>> 18).toUInt8, (0x80 ||| character >>> 12 &&& 0x3F).toUInt8,
      (0x80 ||| character >>> 6 &&& 0x3F).toUInt8, (0x80 ||| character &&& 0x3F).toUInt8]

/-- What the letter behind a backslash stands for: the arrays `names` and `values`. -/
def aiEscapeValue (character : Byte) : Option Byte :=
  if character = 0x62 then some 0x08
  else if character = 0x66 then some 0x0C
  else if character = 0x6E then some 0x0A
  else if character = 0x72 then some 0x0D
  else if character = 0x74 then some 0x09
  else none

/-- The code of an escape, behind its first four digits: half of a pair takes the other half. -/
def aiPairedCode (code : Nat) (cursor : List Byte) : Option Nat × List Byte :=
  if 0xD800 ≤ code ∧ code ≤ 0xDBFF then
    match cursor with
    | first :: second :: third :: cursor =>
        if first = backslash ∧ second = 0x75 then
          match aiParseHex (third :: cursor) with
          | (none, cursor) => (none, cursor)
          | (some low, cursor) =>
              if low < 0xDC00 ∨ 0xDFFF < low then (none, cursor)
              else (some (0x10000 + (code - 0xD800) <<< 10 + (low - 0xDC00)), cursor)
        else (none, first :: second :: third :: cursor)
    | cursor => (none, cursor)
  else if 0xDC00 ≤ code ∧ code ≤ 0xDFFF then (none, cursor)
  else (some code, cursor)

/-- What stands behind a backslash: the bytes it gives. -/
def aiDecodeEscape : List Byte → Option (List Byte) × List Byte
  | [] => (none, [])
  | character :: cursor =>
      if character = quote ∨ character = backslash ∨ character = 0x2F then
        (some [character], cursor)
      else
        match aiEscapeValue character with
        | some value => (some [value], cursor)
        | none =>
            if character = 0x75 then
              match aiParseHex cursor with
              | (none, cursor) => (none, cursor)
              | (some code, cursor) =>
                  ((aiPairedCode code cursor).1.map aiUtf8, (aiPairedCode code cursor).2)
            else (none, cursor)

/-- The loop of `ai_decode_json_string`, behind the first quote.  There are no more rounds than
bytes. -/
def aiDecodeLoop (size : Nat) : Nat → List Byte → List Byte → Option (List Byte) × List Byte
  | 0, _, cursor => (none, cursor)
  | _ + 1, _, [] => (none, [])
  | fuel + 1, output, character :: cursor =>
      if character = quote then (some output, cursor)
      else if 0x20 ≤ character ∧ character ≠ backslash then
        if size ≤ output.length + 1 then (none, character :: cursor)
        else aiDecodeLoop size fuel (output ++ [character]) cursor
      else if character ≠ backslash ∨ cursor = [] then (none, character :: cursor)
      else
        match aiDecodeEscape cursor with
        | (none, cursor) => (none, cursor)
        | (some encoded, cursor) =>
            if size ≤ output.length + encoded.length then (none, cursor)
            else aiDecodeLoop size fuel (output ++ encoded) cursor

/-- `ai_decode_json_string`: the output, and the cursor. -/
def aiDecodeJsonString (size : Nat) : List Byte → Option (List Byte) × List Byte
  | [] => (none, [])
  | character :: cursor =>
      if character ≠ quote then (none, character :: cursor)
      else aiDecodeLoop size (cursor.length + 1) [] cursor

/-! ## One escape -/

theorem aiHexValue_eq (character : Byte) : aiHexValue character = Json.hexVal character := by
  simp only [aiHexValue, Json.hexVal, isDigit, Bool.and_eq_true, decide_eq_true_eq]

/-- Four digits, and nothing less. -/
theorem aiParseHex_four (a b c d : Byte) (cursor : List Byte) :
    match Json.hex4 a b c d with
    | some n => aiParseHex (a :: b :: c :: d :: cursor) = (some n, cursor)
    | none => (aiParseHex (a :: b :: c :: d :: cursor)).1 = none := by
  simp only [aiParseHex, aiParseHexLoop, aiHexValue_eq, Json.hex4]
  cases Json.hexVal a with
  | none => rfl
  | some a =>
    cases Json.hexVal b with
    | none => rfl
    | some b =>
      cases Json.hexVal c with
      | none => rfl
      | some c =>
        cases Json.hexVal d with
        | none => rfl
        | some d => simp

theorem aiParseHex_short {cursor : List Byte} (h : cursor.length < 4) :
    (aiParseHex cursor).1 = none := by
  have hshort : ∀ count result (cursor : List Byte), cursor.length < count →
      (aiParseHexLoop count result cursor).1 = none := by
    intro count
    induction count with
    | zero =>
        intro result cursor h
        cases h
    | succ count ih =>
        intro result cursor h
        cases cursor with
        | nil => rfl
        | cons character cursor =>
            rw [aiParseHexLoop]
            split
            · rfl
            · exact ih _ _ (Nat.lt_of_succ_lt_succ h)
  exact hshort 4 0 cursor h

/-- Bits that do not overlap. -/
theorem or_low {n k : Nat} (a : Nat) (h : k < 2 ^ n) : 2 ^ n * a ||| k = 2 ^ n * a + k :=
  (Nat.two_pow_add_eq_or_of_lt h a).symm

theorem aiUtf8_eq {n : Nat} (h : n < 0x110000) : aiUtf8 n = Json.utf8 n := by
  have hlow : ∀ k : Nat, 0x80 ||| k &&& 0x3F = 0x80 + k % 64 := by
    intro k
    have hmod : k &&& 0x3F = k % 64 := Nat.and_two_pow_sub_one_eq_mod k 6
    rw [hmod]
    exact @or_low 6 (k % 64) 2 (Nat.mod_lt _ (by decide))
  have htwo : n < 0x800 → 0xC0 ||| n / 64 = 0xC0 + n / 64 :=
    fun hn => @or_low 6 (n / 64) 3 (by omega)
  have hthree : n < 0x10000 → 0xE0 ||| n / 4096 = 0xE0 + n / 4096 :=
    fun hn => @or_low 5 (n / 4096) 7 (by omega)
  have hfour : 0xF0 ||| n / 262144 = 0xF0 + n / 262144 := @or_low 4 (n / 262144) 15 (by omega)
  unfold aiUtf8 Json.utf8
  simp only [hlow, Nat.shiftRight_eq_div_pow, Nat.reducePow]
  by_cases h1 : n < 0x80
  · rw [if_pos (Nat.le_of_lt_succ h1), if_pos h1]
  rw [if_neg (by omega), if_neg h1]
  by_cases h2 : n < 0x800
  · rw [if_pos (Nat.le_of_lt_succ h2), if_pos h2, htwo h2]
  rw [if_neg (by omega), if_neg h2]
  by_cases h3 : n < 0x10000
  · rw [if_pos (Nat.le_of_lt_succ h3), if_pos h3, hthree h3]
  rw [if_neg (by omega), if_neg h3, hfour]

theorem aiEscapeValue_eq {character : Byte}
    (h : ¬ (character = quote ∨ character = backslash ∨ character = 0x2F)) :
    aiEscapeValue character = Json.unescape character := by
  have hplain : (decide (character = quote) || decide (character = backslash) ||
      decide (character = 0x2F)) = false := by
    simpa [or_assoc, and_assoc] using h
  rw [Json.unescape, hplain]
  rfl


/-- What an escape gives is what a JSON text has there. -/
def Escapes (cursor : List Byte) : Option (List Byte) × List Byte → Prop
  | (none, _) => Json.string (backslash :: cursor) = none
  | (some encoded, rest) =>
      Json.string (backslash :: cursor) = (Json.string rest).map (Json.prepend encoded) ∧
        encoded ≠ [] ∧ rest.length < cursor.length

theorem Escapes.none {cursor : List Byte} {r : Option (List Byte) × List Byte} (h : r.1 = none)
    (hstring : Json.string (backslash :: cursor) = none) : Escapes cursor r := by
  obtain ⟨encoded, rest⟩ := r
  cases h
  exact hstring

theorem aiUtf8_ne_nil (n : Nat) : aiUtf8 n ≠ [] := by
  unfold aiUtf8
  split
  · exact nofun
  split
  · exact nofun
  split <;> exact nofun

/-- The other half of a pair. -/
theorem aiPairedCode_high {n : Nat} {a b c d : Byte} (h : Json.hex4 a b c d = some n)
    (hhigh : Json.isHigh n = true) (cursor : List Byte) :
    Escapes (0x75 :: a :: b :: c :: d :: cursor)
      ((aiPairedCode n cursor).1.map aiUtf8, (aiPairedCode n cursor).2) := by
  obtain ⟨hlo, hhi⟩ : 0xD800 ≤ n ∧ n < 0xDC00 := by
    simpa only [Json.isHigh, Bool.and_eq_true, decide_eq_true_eq] using hhigh
  have hrange : 0xD800 ≤ n ∧ n ≤ 0xDBFF := ⟨hlo, by omega⟩
  rcases cursor with _ | ⟨first, _ | ⟨second, _ | ⟨third, tail⟩⟩⟩
  case nil | cons.nil | cons.cons.nil =>
      unfold aiPairedCode
      rw [if_pos hrange]
      exact Escapes.none rfl (Json.string_pair_short h hhigh (by simp))
  case cons.cons.cons =>
      rw [aiPairedCode, if_pos hrange]
      rcases Json.short_or_four (third :: tail) with hshort | ⟨e, f, g, i, rest, hfour⟩
      · apply Escapes.none
        · have hnone := aiParseHex_short hshort
          split
          · split
            · rfl
            next heq =>
              rw [heq] at hnone
              cases hnone
          · rfl
        · apply Json.string_pair_short h hhigh
          simp only [List.length_cons] at hshort ⊢
          omega
      · have hparsed := aiParseHex_four e f g i rest
        have hstring := @Json.string_pair _ _ _ _ rest _ h hhigh first second e f g i
        rw [hfour]
        by_cases hu : first = backslash ∧ second = 0x75
        · rw [if_pos hu]
          cases hm : Json.hex4 e f g i with
          | none =>
              rw [hm] at hparsed hstring
              apply Escapes.none _ hstring
              split
              · rfl
              next heq =>
                rw [heq] at hparsed
                cases hparsed
          | some m =>
              rw [hm] at hparsed hstring
              dsimp only at hparsed hstring
              rw [hparsed]
              dsimp only
              by_cases hlow : m < 0xDC00 ∨ 0xDFFF < m
              · rw [if_pos hlow]
                apply Escapes.none rfl
                rw [hstring, if_neg]
                simp only [Json.isLow, Bool.and_eq_true, decide_eq_true_eq]
                omega
              · rw [if_neg hlow]
                have hpair : 0x10000 + (n - 0xD800) <<< 10 + (m - 0xDC00) = Json.pair n m := by
                  rw [Nat.shiftLeft_eq]
                  rfl
                have hbound : Json.pair n m < 0x110000 := by
                  unfold Json.pair
                  omega
                refine ⟨?_, aiUtf8_ne_nil _, ?_⟩
                · rw [hstring, if_pos, hpair, aiUtf8_eq hbound]
                  simp only [Json.isLow, Bool.and_eq_true, decide_eq_true_eq]
                  exact ⟨hu, by omega⟩
                · simp only [List.length_cons]
                  omega
        · rw [if_neg hu]
          apply Escapes.none rfl
          rw [hstring]
          split
          · rfl
          · rw [if_neg]
            intro hall
            simp only [Bool.and_eq_true, decide_eq_true_eq] at hall
            exact hu hall.1

/-- A code that is no first half. -/
theorem aiPairedCode_plain {n : Nat} {a b c d : Byte} (h : Json.hex4 a b c d = some n)
    (hhigh : Json.isHigh n = false) (cursor : List Byte) :
    Escapes (0x75 :: a :: b :: c :: d :: cursor)
      ((aiPairedCode n cursor).1.map aiUtf8, (aiPairedCode n cursor).2) := by
  have hrange : ¬ (0xD800 ≤ n ∧ n ≤ 0xDBFF) := by
    intro hrange
    simp only [Json.isHigh, Bool.and_eq_false_iff, decide_eq_false_iff_not] at hhigh
    omega
  have hstring := @Json.string_hex4 a b c d cursor n h hhigh
  unfold aiPairedCode
  rw [if_neg hrange]
  by_cases hlow : 0xDC00 ≤ n ∧ n ≤ 0xDFFF
  · have hisLow : Json.isLow n = true := by
      simp only [Json.isLow, Bool.and_eq_true, decide_eq_true_eq]
      omega
    rw [if_pos hlow]
    apply Escapes.none rfl
    rw [hstring, if_pos hisLow]
  · have hisLow : Json.isLow n = false := by
      simp only [Json.isLow, Bool.and_eq_false_iff, decide_eq_false_iff_not]
      omega
    have hlt := Json.hex4_lt h
    rw [hisLow, if_neg Bool.false_ne_true, ← aiUtf8_eq (by omega)] at hstring
    rw [if_neg hlow]
    refine ⟨hstring, aiUtf8_ne_nil _, ?_⟩
    simp only [List.length_cons]
    omega

/-- **One escape.** -/
theorem aiDecodeEscape_string (cursor : List Byte) : Escapes cursor (aiDecodeEscape cursor) := by
  cases cursor with
  | nil => exact Escapes.none rfl rfl
  | cons character cursor =>
      rw [aiDecodeEscape]
      by_cases hself : character = quote ∨ character = backslash ∨ character = 0x2F
      · rw [if_pos hself]
        have hread : Json.ReadsByte [backslash, character] character := by
          apply Json.readsByte_unescape
          · rcases hself with rfl | rfl | rfl <;> decide
          · rcases hself with rfl | rfl | rfl <;> rfl
        exact ⟨hread cursor, nofun, Nat.lt_succ_self _⟩
      rw [if_neg hself, aiEscapeValue_eq hself]
      by_cases hu : character = 0x75
      · subst hu
        have hnone : Json.unescape 0x75 = none := rfl
        rw [hnone]
        dsimp only
        rw [if_pos rfl]
        rcases Json.short_or_four cursor with hshort | ⟨a, b, c, d, rest, rfl⟩
        · apply Escapes.none _ (Json.string_short hshort)
          have hparsed := aiParseHex_short hshort
          split
          · rfl
          next heq =>
            rw [heq] at hparsed
            cases hparsed
        · have hparsed := aiParseHex_four a b c d rest
          cases hn : Json.hex4 a b c d with
          | none =>
              rw [hn] at hparsed
              apply Escapes.none _ (Json.string_hex4_none hn)
              split
              · rfl
              next heq =>
                rw [heq] at hparsed
                cases hparsed
          | some n =>
              rw [hn] at hparsed
              dsimp only at hparsed
              rw [hparsed]
              dsimp only
              cases hhigh : Json.isHigh n with
              | true => exact aiPairedCode_high hn hhigh rest
              | false => exact aiPairedCode_plain hn hhigh rest
      · cases hvalue : Json.unescape character with
        | some value =>
            have hread := Json.readsByte_unescape hu hvalue
            exact ⟨hread cursor, nofun, Nat.lt_succ_self _⟩
        | none =>
            dsimp only
            rw [if_neg hu]
            apply Escapes.none rfl
            rw [Json.string.eq_def]
            dsimp only
            rw [if_neg (by decide), if_pos rfl, if_neg hu, hvalue]

/-! ## A string -/

/-- What the loop gives is what a JSON string stands for, if there is room for it. -/
def Decodes (size : Nat) (output : List Byte) :
    Option (List Byte × List Byte) → Option (List Byte) × List Byte → Prop
  | none, decoded => decoded.1 = none
  | some (s, rest), decoded =>
      if output.length + s.length < size then decoded = (some (output ++ s), rest)
      else decoded.1 = none

theorem Decodes.prepend {size : Nat} {output s : List Byte} {r : Option (List Byte × List Byte)}
    {decoded : Option (List Byte) × List Byte} (h : Decodes size (output ++ s) r decoded) :
    Decodes size output (r.map (Json.prepend s)) decoded := by
  cases r with
  | none => exact h
  | some r =>
      simpa only [Option.map_some, Decodes, Json.prepend, List.length_append, List.append_assoc,
        Nat.add_assoc] using h

/-- There is no room. -/
theorem Decodes.full {size : Nat} {output s : List Byte} {r : Option (List Byte × List Byte)}
    {decoded : Option (List Byte) × List Byte} (hfull : size ≤ output.length + s.length)
    (h : decoded.1 = none) : Decodes size output (r.map (Json.prepend s)) decoded := by
  cases r with
  | none => exact h
  | some r =>
      have hlong : ¬ output.length + (s ++ r.1).length < size := by
        rw [List.length_append]
        omega
      exact (if_neg hlong).mpr h

theorem aiDecodeLoop_decodes (size : Nat) : ∀ fuel output cursor, cursor.length < fuel →
    output.length < size →
      Decodes size output (Json.string cursor) (aiDecodeLoop size fuel output cursor) := by
  intro fuel
  induction fuel with
  | zero =>
      intro output cursor h
      cases h
  | succ fuel ih =>
      intro output cursor hfuel hroom
      cases cursor with
      | nil => rfl
      | cons character cursor =>
          rw [List.length_cons] at hfuel
          rw [aiDecodeLoop]
          by_cases hquote : character = quote
          · rw [if_pos hquote, hquote, Json.string_quote]
            have hfits : output.length + ([] : List Byte).length < size := hroom
            rw [Decodes, if_pos hfits, List.append_nil]
          rw [if_neg hquote]
          by_cases hplain : 0x20 ≤ character ∧ character ≠ backslash
          · have hstring := Json.string_plain
              ⟨hquote, hplain.2, UInt8.not_lt.mpr hplain.1⟩ cursor
            rw [if_pos hplain, hstring]
            by_cases hfull : size ≤ output.length + 1
            · rw [if_pos hfull]
              exact Decodes.full hfull rfl
            · rw [if_neg hfull]
              apply Decodes.prepend
              apply ih _ _ (by omega)
              rw [List.length_append, List.length_singleton]
              omega
          rw [if_neg hplain]
          by_cases hescape : character ≠ backslash ∨ cursor = []
          · rw [if_pos hescape]
            have hnone : Json.string (character :: cursor) = none := by
              rw [Json.string.eq_def]
              dsimp only
              rw [if_neg hquote]
              by_cases hslash : character = backslash
              · rw [if_pos hslash, hescape.resolve_left (not_not.mpr hslash)]
              · have hcontrol : character < 0x20 := by
                  by_contra hge
                  exact hplain ⟨UInt8.not_lt.mp hge, hslash⟩
                rw [if_neg hslash, if_pos hcontrol]
            rw [hnone]
            rfl
          rw [if_neg hescape]
          obtain ⟨hslash, -⟩ := not_or.mp hescape
          rw [not_not.mp hslash]
          have hone := aiDecodeEscape_string cursor
          generalize aiDecodeEscape cursor = escape at hone
          obtain ⟨encoded, rest⟩ := escape
          cases encoded with
          | none =>
              rw [show Json.string (backslash :: cursor) = none from hone]
              rfl
          | some encoded =>
              obtain ⟨hstring, -, hshrinks⟩ := hone
              dsimp only
              rw [hstring]
              by_cases hfull : size ≤ output.length + encoded.length
              · rw [if_pos hfull]
                exact Decodes.full hfull rfl
              · rw [if_neg hfull]
                apply Decodes.prepend
                apply ih _ _ (by omega)
                rw [List.length_append]
                omega

/-- **Decoding a string**: what it stands for, and the cursor behind it; the output is at least one
byte longer. -/
theorem aiDecodeJsonString_spec {size : Nat} {cursor s rest : List Byte}
    (h : Json.string cursor = some (s, rest)) (hsize : s.length < size) :
    aiDecodeJsonString size (quote :: cursor) = (some s, rest) := by
  have hdecodes := aiDecodeLoop_decodes size (cursor.length + 1) [] cursor (Nat.lt_succ_self _)
    (by rw [List.length_nil]; omega)
  rw [h] at hdecodes
  rw [aiDecodeJsonString, if_neg (not_not.mpr rfl)]
  rw [Decodes, List.length_nil, Nat.zero_add, if_pos hsize] at hdecodes
  exact hdecodes

/-- What is no string, or does not fit, is refused. -/
theorem aiDecodeJsonString_none {size : Nat} {cursor : List Byte} (hsize : 0 < size)
    (h : ∀ s rest, Json.string cursor = some (s, rest) → size ≤ s.length) :
    (aiDecodeJsonString size (quote :: cursor)).1 = none := by
  have hdecodes :=
    aiDecodeLoop_decodes size (cursor.length + 1) [] cursor (Nat.lt_succ_self _) hsize
  rw [aiDecodeJsonString, if_neg (not_not.mpr rfl)]
  cases hstring : Json.string cursor with
  | none =>
      rw [hstring] at hdecodes
      exact hdecodes
  | some r =>
      have hlong := h r.1 r.2 hstring
      rw [hstring, Decodes, List.length_nil, Nat.zero_add,
        if_neg (Nat.not_lt.mpr hlong)] at hdecodes
      exact hdecodes

end Ai
