import Zzdwm.Lib.Json

/-!
# Where the members of an object stand

The decoder of JSON texts forgets the white space.  Here the members keep their place in the text.

* `Part`, `Parts`, `ObjectParts` — the members as they stand in the text;
* `value_obj_parts` — every object that is decoded has them;
* `value_str_text` — the text of a string;
* `scalar_used` — the bytes of a number or a word.
-/

namespace Json

open Ascii

/-- A member: what stands between its name and the colon, and the text from its value on. -/
structure Part where
  key : List Byte
  gap : List Byte
  text : List Byte
  val : Value

/-- The text from a member on: the member is read by the decoder in no more than so many steps. -/
structure Member (fuel : Nat) (text : List Byte) (part : Part) (rest : List Byte) : Prop where
  key : ∃ raw colonText, text = quote :: raw ∧ string raw = some (part.key, colonText) ∧
    part.gap = colonText.takeWhile isBlank ∧
    ∃ valueText, expect colon (skip colonText) = some valueText ∧ part.text = skip valueText ∧
      ∃ n ≤ fuel, value n valueText = some (part.val, rest)

/-- The members from here on, up to the brace. -/
inductive Parts (fuel : Nat) : List Byte → List Part → Prop
  | last {text rest behind : List Byte} {part : Part} (member : Member fuel text part rest)
      (brace : expect rbrace (skip rest) = some behind) : Parts fuel text [part]
  | more {text rest behind : List Byte} {part : Part} {parts : List Part}
      (member : Member fuel text part rest) (separator : expect comma (skip rest) = some behind)
      (others : Parts fuel (skip behind) parts) : Parts fuel text (part :: parts)

/-- The members of an object whose text this is. -/
def ObjectParts (fuel : Nat) (text : List Byte) (parts : List Part) : Prop :=
  ∃ rest, text = lbrace :: rest ∧ parts.length < fuel ∧
    (parts = [] ∧ (∃ behind, expect rbrace (skip rest) = some behind) ∨
      Parts fuel (skip rest) parts)

theorem expect_some {b : Byte} {text rest : List Byte} (h : expect b text = some rest) :
    text = b :: rest := by
  cases text with
  | nil => cases h
  | cons c text =>
      rw [expect] at h
      split at h
      next heq => rw [heq, Option.some.inj h]
      next => cases h

/-- The members that are decoded. -/
theorem members_parts {fuel : Nat} : ∀ {n text ms rest}, n ≤ fuel →
    members n text = some (ms, rest) →
      ∃ parts, Parts fuel (skip text) parts ∧ parts.length ≤ n ∧
        parts.map (fun p => (p.key, p.val)) = ms := by
  intro n
  induction n with
  | zero =>
      intro text ms rest hn h
      cases h
  | succ n ih =>
      intro text ms rest hn h
      rw [members] at h
      obtain ⟨raw, hraw, h⟩ := Option.bind_eq_some_iff.mp h
      obtain ⟨⟨k, colonText⟩, hstring, h⟩ := Option.bind_eq_some_iff.mp h
      obtain ⟨valueText, hcolon, h⟩ := Option.bind_eq_some_iff.mp h
      obtain ⟨⟨v, behind⟩, hvalue, h⟩ := Option.bind_eq_some_iff.mp h
      have hmember : Member fuel (skip text)
          ⟨k, colonText.takeWhile isBlank, skip valueText, v⟩ behind :=
        ⟨raw, colonText, expect_some hraw, hstring, rfl, valueText, hcolon, rfl, n, by omega,
          hvalue⟩
      dsimp only at h
      split at h
      next next hnext =>
        obtain ⟨⟨ms', rest'⟩, hms, heq⟩ := Option.map_eq_some_iff.mp h
        obtain ⟨parts, hparts, hlength, hmap⟩ := ih (by omega) hms
        cases heq
        exact ⟨_ :: parts, .more hmember hnext hparts, Nat.succ_le_succ hlength,
          congrArg ((k, v) :: ·) hmap⟩
      next hnone =>
        obtain ⟨last, hlast, heq⟩ := Option.map_eq_some_iff.mp h
        cases heq
        exact ⟨[_], .last hmember hlast, Nat.succ_le_succ (Nat.zero_le n), rfl⟩

/-! ## Numbers and words -/

/-- A byte that ends no value. -/
def Inner (b : Byte) : Prop := b ≠ comma ∧ b ≠ rbrace ∧ b ≠ rbracket ∧ isBlank b = false

instance (b : Byte) : Decidable (Inner b) := inferInstanceAs (Decidable (_ ∧ _ ∧ _ ∧ _))

/-- The bytes that are taken off the text. -/
def Takes (text rest : List Byte) : Prop := ∃ used, text = used ++ rest ∧ ∀ b ∈ used, Inner b

theorem Takes.refl (text : List Byte) : Takes text text := ⟨[], rfl, nofun⟩

theorem Takes.cons {b : Byte} (hb : Inner b) {text rest : List Byte} (h : Takes text rest) :
    Takes (b :: text) rest := by
  obtain ⟨used, rfl, hused⟩ := h
  exact ⟨b :: used, rfl, List.forall_mem_cons.mpr ⟨hb, hused⟩⟩

theorem Takes.trans {a b c : List Byte} (h : Takes a b) (h' : Takes b c) : Takes a c := by
  obtain ⟨used, rfl, hused⟩ := h
  obtain ⟨used', rfl, hused'⟩ := h'
  exact ⟨used ++ used', (List.append_assoc _ _ _).symm,
    List.forall_mem_append.mpr ⟨hused, hused'⟩⟩

theorem inner_digit {b : Byte} (h : isDigit b = true) : Inner b := by
  refine ⟨?_, ?_, ?_, ?_⟩
  · rintro rfl
    cases h
  · rintro rfl
    cases h
  · rintro rfl
    cases h
  · by_contra hblank
    simp only [isBlank, Bool.or_eq_false_iff, decide_eq_false_iff_not, not_and_or,
      not_not] at hblank
    rcases hblank with ((rfl | rfl) | rfl) | rfl <;> cases h

section Scalars

variable {text rest : List Byte} {used : List Byte}

theorem digits_takes (h : digits text = some (used, rest)) : Takes text rest := by
  unfold digits at h
  split at h
  · cases h
  next =>
    cases h
    exact ⟨_, (List.takeWhile_append_dropWhile).symm,
      fun b hb => inner_digit (List.mem_takeWhile_imp hb)⟩

theorem fraction_takes (h : fraction text = some (used, rest)) : Takes text rest := by
  unfold fraction at h
  split at h
  · cases h
    exact .refl _
  next b text =>
    split at h
    next hb =>
      obtain ⟨r, hr, heq⟩ := Option.map_eq_some_iff.mp h
      cases heq
      exact (digits_takes hr).cons (hb ▸ by decide)
    next =>
      cases h
      exact .refl _

theorem exponent_takes (h : exponent text = some (used, rest)) : Takes text rest := by
  unfold exponent at h
  split at h
  · cases h
    exact .refl _
  next b text =>
    split at h
    next hb =>
      have hinner : Inner b := by
        rcases Bool.or_eq_true_iff.mp hb with hb | hb <;> rw [of_decide_eq_true hb] <;> decide
      split at h
      next sign tail =>
        split at h
        next hsign =>
          have hinner' : Inner sign := by
            rcases Bool.or_eq_true_iff.mp hsign with hs | hs <;> rw [of_decide_eq_true hs] <;>
              decide
          obtain ⟨r, hr, heq⟩ := Option.map_eq_some_iff.mp h
          cases heq
          exact ((digits_takes hr).cons hinner').cons hinner
        next =>
          obtain ⟨r, hr, heq⟩ := Option.map_eq_some_iff.mp h
          cases heq
          exact (digits_takes hr).cons hinner
      next => cases h
    next =>
      cases h
      exact .refl _

theorem number_takes (h : number text = some (used, rest)) : Takes text rest := by
  unfold number at h
  obtain ⟨⟨ds, behind⟩, hdigits, h⟩ := Option.bind_eq_some_iff.mp h
  dsimp only at h
  split at h
  · cases h
  next =>
    obtain ⟨⟨fr, tail⟩, hfraction, h⟩ := Option.bind_eq_some_iff.mp h
    obtain ⟨⟨ex, tail'⟩, hexponent, h⟩ := Option.bind_eq_some_iff.mp h
    cases h
    exact ((digits_takes hdigits).trans (fraction_takes hfraction)).trans
      (exponent_takes hexponent)

def Value.IsArray : Value → Prop
  | .arr _ => True
  | _ => False

/-- A value that is neither a string nor an array nor an object. -/
def Value.IsScalar : Value → Prop
  | .null | .bool _ | .num _ => True
  | _ => False

theorem word_takes {w : List Byte} (hw : ∀ b ∈ w, Inner b) {v v' : Value}
    (h : word w v text = some (v', rest)) : v' = v ∧ Takes text rest := by
  unfold word at h
  split at h
  next hprefix =>
    cases h
    obtain ⟨tail, rfl⟩ := List.isPrefixOf_iff_prefix.mp hprefix
    exact ⟨rfl, w, by rw [List.drop_left], hw⟩
  next => cases h

/-- **The bytes of a number or a word.** -/
theorem scalar_takes {v : Value} (h : scalar text = some (v, rest)) :
    v.IsScalar ∧ Takes text rest := by
  unfold scalar at h
  simp only [Option.orElse_eq_orElse, Option.orElse_eq_or] at h
  rcases Option.or_eq_some_iff.mp h with hnull | ⟨-, h⟩
  · obtain ⟨rfl, htakes⟩ := word_takes (by decide +kernel) hnull
    exact ⟨trivial, htakes⟩
  rcases Option.or_eq_some_iff.mp h with htrue | ⟨-, h⟩
  · obtain ⟨rfl, htakes⟩ := word_takes (by decide +kernel) htrue
    exact ⟨trivial, htakes⟩
  rcases Option.or_eq_some_iff.mp h with hfalse | ⟨-, h⟩
  · obtain ⟨rfl, htakes⟩ := word_takes (by decide +kernel) hfalse
    exact ⟨trivial, htakes⟩
  split at h
  next tail htail =>
    obtain ⟨r, hr, heq⟩ := Option.map_eq_some_iff.mp h
    cases heq
    rw [expect_some htail]
    exact ⟨trivial, (number_takes hr).cons (by decide)⟩
  next =>
    obtain ⟨r, hr, heq⟩ := Option.map_eq_some_iff.mp h
    cases heq
    exact ⟨trivial, number_takes hr⟩

end Scalars

/-! ## Values by their first byte -/

section Values

variable {n : Nat} {text rest : List Byte}

/-- How a value is read, by its first byte. -/
theorem value_some {v : Value} (h : value (n + 1) text = some (v, rest)) :
    ∃ b tail, skip text = b :: tail ∧
      (b = lbrace ∧ (v = .obj [] ∧ expect rbrace (skip tail) = some rest ∨
          ∃ ms, v = .obj ms ∧ members n tail = some (ms, rest)) ∨
        b = lbracket ∧ (v = .arr [] ∧ expect rbracket (skip tail) = some rest ∨
          ∃ vs, v = .arr vs ∧ expect rbracket (skip tail) = none ∧
            elements n tail = some (vs, rest)) ∨
        b = quote ∧ (∃ s, v = .str s ∧ string tail = some (s, rest)) ∨
        b ≠ lbrace ∧ b ≠ lbracket ∧ b ≠ quote ∧ scalar (b :: tail) = some (v, rest)) := by
  rw [value] at h
  cases hskip : skip text with
  | nil =>
      rw [hskip] at h
      cases h
  | cons b tail =>
      rw [hskip] at h
      refine ⟨b, tail, rfl, ?_⟩
      dsimp only at h
      split at h
      next hb =>
        refine Or.inl ⟨hb, ?_⟩
        split at h
        next hend =>
          cases h
          exact Or.inl ⟨rfl, hend⟩
        next =>
          obtain ⟨⟨ms, rest'⟩, hms, heq⟩ := Option.map_eq_some_iff.mp h
          cases heq
          exact Or.inr ⟨ms, rfl, hms⟩
      next hbrace =>
        split at h
        next hb =>
          refine Or.inr (Or.inl ⟨hb, ?_⟩)
          split at h
          next hend =>
            cases h
            exact Or.inl ⟨rfl, hend⟩
          next hend =>
            obtain ⟨⟨vs, rest'⟩, hvs, heq⟩ := Option.map_eq_some_iff.mp h
            cases heq
            exact Or.inr ⟨vs, rfl, hend, hvs⟩
        next hbracket =>
          split at h
          next hb =>
            obtain ⟨⟨s, rest'⟩, hs, heq⟩ := Option.map_eq_some_iff.mp h
            cases heq
            exact Or.inr (Or.inr (Or.inl ⟨hb, s, rfl, hs⟩))
          next hquote => exact Or.inr (Or.inr (Or.inr ⟨hbrace, hbracket, hquote, h⟩))

/-- The text of a string. -/
theorem value_str_text {s : List Byte} (h : value n text = some (.str s, rest)) :
    ∃ raw, skip text = quote :: raw ∧ string raw = some (s, rest) := by
  cases n with
  | zero => cases h
  | succ n =>
      obtain ⟨b, tail, hskip, hcases⟩ := value_some h
      rcases hcases with ⟨-, hobj⟩ | ⟨-, harr⟩ | ⟨rfl, s', heq, hs⟩ | ⟨-, -, -, hscalar⟩
      · rcases hobj with ⟨heq, -⟩ | ⟨ms, heq, -⟩ <;> cases heq
      · rcases harr with ⟨heq, -⟩ | ⟨vs, heq, -⟩ <;> cases heq
      · cases heq
        exact ⟨tail, hskip, hs⟩
      · exact absurd (scalar_takes hscalar).1 not_false

/-- The text of an object. -/
theorem value_obj_parts {fuel : Nat} (hn : n ≤ fuel) {ms : List (List Byte × Value)}
    (h : value n text = some (.obj ms, rest)) :
    ∃ parts, ObjectParts fuel (skip text) parts ∧ parts.map (fun p => (p.key, p.val)) = ms := by
  cases n with
  | zero => cases h
  | succ n =>
      obtain ⟨b, tail, hskip, hcases⟩ := value_some h
      rcases hcases with ⟨rfl, hobj⟩ | ⟨-, harr⟩ | ⟨-, s', heq, -⟩ | ⟨-, -, -, hscalar⟩
      · rcases hobj with ⟨heq, hend⟩ | ⟨ms', heq, hms⟩
        · cases heq
          exact ⟨[], ⟨tail, hskip, Nat.zero_lt_of_lt hn, Or.inl ⟨rfl, rest, hend⟩⟩, rfl⟩
        · cases heq
          obtain ⟨parts, hparts, hlength, hmap⟩ := members_parts (Nat.le_of_succ_le hn) hms
          exact ⟨parts, ⟨tail, hskip, Nat.lt_of_le_of_lt hlength hn, Or.inr hparts⟩, hmap⟩
      · rcases harr with ⟨heq, -⟩ | ⟨vs, heq, -⟩ <;> cases heq
      · cases heq
      · exact absurd (scalar_takes hscalar).1 not_false

end Values

end Json
