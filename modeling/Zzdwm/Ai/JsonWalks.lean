import Mathlib
import Zzdwm.Ai.JsonStrings
import Zzdwm.Lib.JsonParts

/-!
# Walks over the answers of the server (`ai.c`)

The answer is a JSON object.  The client walks its members, and those of the objects in it, with
one cursor; the names of the members are decoded into an array of 32 bytes.

* `aiSkipJsonValue` — the skipper, and `aiSkipJsonValue_value`: it skips every value;
* `aiMembers` — the loop over the members of an object, which has three uses;
* `aiExtractResponse` — the text of the answer, and `aiExtractResponse_ends`: every walk comes to
  an end.

The cursor is the text from there to the end of the answer; `none` stands for a loop that goes on
for more rounds than were allowed.
-/

namespace Ai

open Ascii (Byte bytes isDigit)
open Json (quote backslash comma lbrace rbrace lbracket rbracket expect)

/-! ## Skipping -/

/-- `ai_skip_space`. -/
def aiSkipSpace (cursor : List Byte) : List Byte :=
  cursor.dropWhile fun b => b = 0x20 || b = 0x09 || b = 0x0D || b = 0x0A

/-- The loop of `ai_skip_json_string`. -/
def aiSkipStringLoop : List Byte → Bool × List Byte
  | [] => (false, [])
  | b :: cursor =>
      if b = quote then (true, cursor)
      else if b = backslash then
        match cursor with
        | [] => (false, [b])
        | _ :: cursor => aiSkipStringLoop cursor
      else aiSkipStringLoop cursor

/-- `ai_skip_json_string`. -/
def aiSkipJsonString (cursor : List Byte) : Bool × List Byte :=
  match expect quote cursor with
  | none => (false, cursor)
  | some cursor => aiSkipStringLoop cursor

/-- What ends a number or a word. -/
def isDelimiter (b : Byte) : Bool :=
  b = comma || b = rbrace || b = rbracket || b = 0x20 || b = 0x09 || b = 0x0D || b = 0x0A

mutual

/-- `ai_skip_json_value`. -/
def aiSkipJsonValue : Nat → List Byte → Option (Bool × List Byte)
  | 0, _ => none
  | fuel + 1, cursor =>
      match aiSkipSpace cursor with
      | [] => some (false, [])
      | b :: cursor =>
          if b = quote then some (aiSkipJsonString (b :: cursor))
          else if b = lbrace then
            match expect rbrace (aiSkipSpace cursor) with
            | some cursor => some (true, cursor)
            | none => aiSkipMembers fuel (aiSkipSpace cursor)
          else if b = lbracket then
            match expect rbracket (aiSkipSpace cursor) with
            | some cursor => some (true, cursor)
            | none => aiSkipItems fuel (aiSkipSpace cursor)
          else
            let cursor := (b :: cursor).dropWhile fun b => !isDelimiter b
            some (cursor ≠ [], cursor)

/-- The loop over the members of an object that is skipped. -/
def aiSkipMembers : Nat → List Byte → Option (Bool × List Byte)
  | 0, _ => none
  | fuel + 1, cursor =>
      match aiSkipJsonString cursor with
      | (false, cursor) => some (false, cursor)
      | (true, cursor) =>
          match expect Json.colon (aiSkipSpace cursor) with
          | none => some (false, aiSkipSpace cursor)
          | some cursor => do
              let (ok, cursor) ← aiSkipJsonValue fuel cursor
              if !ok then some (false, cursor)
              else
                match expect comma (aiSkipSpace cursor) with
                | some cursor => aiSkipMembers fuel (aiSkipSpace cursor)
                | none =>
                    match expect rbrace (aiSkipSpace cursor) with
                    | some cursor => some (true, cursor)
                    | none => some (false, aiSkipSpace cursor)

/-- The loop over the items of an array that is skipped. -/
def aiSkipItems : Nat → List Byte → Option (Bool × List Byte)
  | 0, _ => none
  | fuel + 1, cursor => do
      let (ok, cursor) ← aiSkipJsonValue fuel cursor
      if !ok then some (false, cursor)
      else
        match expect comma (aiSkipSpace cursor) with
        | some cursor => aiSkipItems fuel (aiSkipSpace cursor)
        | none =>
            match expect rbracket (aiSkipSpace cursor) with
            | some cursor => some (true, cursor)
            | none => some (false, aiSkipSpace cursor)

end

/-! ## Extracting -/

/-- `sizeof (key)` -/
def KEY_SIZE : Nat := 32

/-- The name as `strcmp` sees it. -/
def cString (key : List Byte) : List Byte := key.takeWhile (· ≠ 0)

/-- A name, the colon right behind it, and the space in front of the value. -/
def aiKey (cursor : List Byte) : Option (List Byte) × List Byte :=
  match aiDecodeJsonString KEY_SIZE cursor with
  | (none, cursor) => (none, cursor)
  | (some key, cursor) =>
      match expect Json.colon cursor with
      | none => (none, cursor)
      | some cursor => (some key, aiSkipSpace cursor)

/-- What is done with the value of a member: the function returns, or the value is skipped. -/
inductive Action
  | done (result : Option (List Byte)) (cursor : List Byte)
  | skip (cursor : List Byte)

section Walks

variable (size fuel : Nat)

/-- The value is skipped, and the comma behind it. -/
def aiNextMember (cursor : List Byte) : Option (Bool × List Byte) := do
  let (ok, cursor) ← aiSkipJsonValue fuel cursor
  if !ok then some (false, cursor)
  else
    match expect comma (aiSkipSpace cursor) with
    | some cursor => some (true, aiSkipSpace cursor)
    | none => some ((expect rbrace (aiSkipSpace cursor)).isSome, aiSkipSpace cursor)

/-- The loop over the members of an object, of which the three walkers have one each. -/
def aiMembers (act : List Byte → List Byte → Option Action) :
    Nat → List Byte → Option (Option (List Byte) × List Byte)
  | 0, _ => none
  | rounds + 1, cursor =>
      if cursor = [] ∨ (expect rbrace cursor).isSome then some (none, cursor)
      else
        match aiKey cursor with
        | (none, cursor) => some (none, cursor)
        | (some key, cursor) => do
            match ← act key cursor with
            | .done result cursor => some (result, cursor)
            | .skip cursor =>
                let (ok, cursor) ← aiNextMember fuel cursor
                if ok then aiMembers act rounds cursor else some (none, cursor)

/-- In the message of a choice. -/
def messageAction (key cursor : List Byte) : Option Action :=
  if cString key = bytes "content" then
    let (result, cursor) := aiDecodeJsonString size cursor
    some (.done result cursor)
  else some (.skip cursor)

/-- In a choice. -/
def choiceAction (key cursor : List Byte) : Option Action :=
  if cString key = bytes "message" then
    match expect lbrace cursor with
    | none => some (.done none cursor)
    | some cursor => do
        let (result, cursor) ← aiMembers fuel (messageAction size) fuel (aiSkipSpace cursor)
        some (.done result cursor)
  else some (.skip cursor)

/-- `ai_extract_chat_content`. -/
def aiExtractChatContent (cursor : List Byte) : Option (Option (List Byte) × List Byte) :=
  match expect lbracket (aiSkipSpace cursor) with
  | none => some (none, aiSkipSpace cursor)
  | some cursor =>
      match expect lbrace (aiSkipSpace cursor) with
      | none => some (none, aiSkipSpace cursor)
      | some cursor => aiMembers fuel (choiceAction size fuel) fuel (aiSkipSpace cursor)

/-- In the answer. -/
def responseAction (key cursor : List Byte) : Option Action :=
  if cString key = bytes "response" then
    let (result, cursor) := aiDecodeJsonString size cursor
    some (.done result cursor)
  else if cString key = bytes "choices" then do
    match ← aiExtractChatContent size fuel cursor with
    | (some result, cursor) => some (.done (some result) cursor)
    | (none, cursor) => some (.skip cursor)
  else some (.skip cursor)

end Walks

/-- `ai_extract_response`: the output, if it returns TRUE. -/
def aiExtractResponse (size : Nat) (body : List Byte) : Option (Option (List Byte)) :=
  let fuel := 2 * body.length + 1
  match expect lbrace (aiSkipSpace body) with
  | none => some none
  | some cursor =>
      (aiMembers fuel (responseAction size fuel) fuel (aiSkipSpace cursor)).map Prod.fst

/-! ## The skipper skips every value -/

theorem aiSkipSpace_eq (cursor : List Byte) : aiSkipSpace cursor = Json.skip cursor := by
  have hblank : (fun b : Byte => (b = 0x20 || b = 0x09 || b = 0x0D || b = 0x0A : Bool)) =
      Json.isBlank := by
    funext b
    simp only [Json.isBlank, Bool.or_assoc, Bool.or_comm (decide (b = 0x0D))]
  rw [aiSkipSpace, hblank, Json.skip]

theorem isDelimiter_inner {b : Byte} : isDelimiter b = false ↔ Json.Inner b := by
  simp only [isDelimiter, Json.Inner, Json.isBlank, Bool.or_eq_false_iff, decide_eq_false_iff_not,
    ne_eq]
  tauto

theorem hexVal_plain {b : Byte} {n : Nat} (h : Json.hexVal b = some n) :
    b ≠ quote ∧ b ≠ backslash := by
  constructor
  · rintro rfl
    cases h
  · rintro rfl
    cases h

theorem aiSkipStringLoop_plain {b : Byte} (h : b ≠ quote ∧ b ≠ backslash) (cursor : List Byte) :
    aiSkipStringLoop (b :: cursor) = aiSkipStringLoop cursor := by
  rw [aiSkipStringLoop.eq_def]
  dsimp only
  rw [if_neg h.1, if_neg h.2]

theorem aiSkipStringLoop_escape (b : Byte) (cursor : List Byte) :
    aiSkipStringLoop (backslash :: b :: cursor) = aiSkipStringLoop cursor := by
  rw [aiSkipStringLoop.eq_def]
  dsimp only
  rw [if_neg (by decide), if_pos rfl]

/-- Four digits are skipped one by one. -/
theorem aiSkipStringLoop_hex4 {a b c d : Byte} {n : Nat} (h : Json.hex4 a b c d = some n)
    (cursor : List Byte) :
    aiSkipStringLoop (a :: b :: c :: d :: cursor) = aiSkipStringLoop cursor := by
  obtain ⟨w, hw, h⟩ := Option.bind_eq_some_iff.mp h
  obtain ⟨x, hx, h⟩ := Option.bind_eq_some_iff.mp h
  obtain ⟨y, hy, h⟩ := Option.bind_eq_some_iff.mp h
  obtain ⟨z, hz, -⟩ := Option.bind_eq_some_iff.mp h
  rw [aiSkipStringLoop_plain (hexVal_plain hw), aiSkipStringLoop_plain (hexVal_plain hx),
    aiSkipStringLoop_plain (hexVal_plain hy), aiSkipStringLoop_plain (hexVal_plain hz)]

/-- **A string is skipped.** -/
theorem aiSkipStringLoop_string (cursor : List Byte) (r : List Byte × List Byte)
    (h : Json.string cursor = some r) : aiSkipStringLoop cursor = (true, r.2) := by
  fun_induction Json.string cursor generalizing r with
  | case1 => cases h
  | case2 rest =>
      cases h
      rw [aiSkipStringLoop.eq_def]
      exact if_pos rfl
  | case6 a b c d n hn _ p q a' b' c' d' rest m hm hpair _ ih =>
      obtain ⟨r', hr', rfl⟩ := Option.map_eq_some_iff.mp h
      simp only [Bool.and_eq_true, decide_eq_true_eq] at hpair
      obtain ⟨⟨rfl, rfl⟩, -⟩ := hpair
      rw [aiSkipStringLoop_escape, aiSkipStringLoop_hex4 hn, aiSkipStringLoop_escape,
        aiSkipStringLoop_hex4 hm, ih r' hr', Json.prepend]
  | case10 a b c d rest n hn _ _ _ ih =>
      obtain ⟨r', hr', rfl⟩ := Option.map_eq_some_iff.mp h
      rw [aiSkipStringLoop_escape, aiSkipStringLoop_hex4 hn]
      exact ih r' hr'
  | case13 e rest _ c _ _ ih =>
      obtain ⟨r', hr', rfl⟩ := Option.map_eq_some_iff.mp h
      rw [aiSkipStringLoop_escape]
      exact ih r' hr'
  | case15 b rest hq hb hc ih =>
      obtain ⟨r', hr', rfl⟩ := Option.map_eq_some_iff.mp h
      rw [aiSkipStringLoop_plain ⟨hq, hb⟩]
      exact ih r' hr'
  | _ => cases h

theorem aiSkipJsonString_string {raw s rest : List Byte} (h : Json.string raw = some (s, rest)) :
    aiSkipJsonString (quote :: raw) = (true, rest) := by
  rw [aiSkipJsonString, Json.expect_self]
  exact aiSkipStringLoop_string raw _ h

/-- What follows a value. -/
def Ends (rest : List Byte) : Prop := ∃ b tail, rest = b :: tail ∧ isDelimiter b = true

theorem ends_of_expect {b : Byte} (hb : isDelimiter b = true) {rest behind : List Byte}
    (h : expect b (Json.skip rest) = some behind) : Ends rest := by
  cases rest with
  | nil => cases h
  | cons c tail =>
      refine ⟨c, tail, rfl, ?_⟩
      by_contra hinner
      rw [Bool.not_eq_true, isDelimiter_inner] at hinner
      rw [Json.skip_of_not_space hinner.2.2.2] at h
      have hsame := (List.cons.inj (Json.expect_some h)).1
      rw [hsame] at hinner
      rw [isDelimiter_inner.mpr hinner] at hb
      cases hb

/-- The loop over the bytes of a number or a word. -/
theorem takes_dropWhile {cursor rest : List Byte} (h : Json.Takes cursor rest) (hends : Ends rest) :
    (cursor.dropWhile fun b => !isDelimiter b) = rest ∧ rest ≠ [] := by
  obtain ⟨used, rfl, hused⟩ := h
  obtain ⟨b, tail, rfl, hb⟩ := hends
  have hall : ∀ c ∈ used, (!isDelimiter c) = true := by
    intro c hc
    rw [isDelimiter_inner.mpr (hused c hc)]
    rfl
  rw [List.dropWhile_append_of_pos hall, List.dropWhile_cons_of_neg (by simp [hb])]
  exact ⟨rfl, List.cons_ne_nil _ _⟩

theorem skip_skip (text : List Byte) : Json.skip (Json.skip text) = Json.skip text := by
  unfold Json.skip
  rw [List.dropWhile_idempotent]

theorem value_skip (n : Nat) (text : List Byte) :
    Json.value n (Json.skip text) = Json.value n text := by
  cases n with
  | zero => rfl
  | succ n => rw [Json.value, Json.value, skip_skip]

/-- Members start with no brace. -/
theorem members_open {n : Nat} {text : List Byte} {r : List (List Byte × Json.Value) × List Byte}
    (h : Json.members n text = some r) : expect rbrace (Json.skip text) = none := by
  cases n with
  | zero => cases h
  | succ n =>
      rw [Json.members] at h
      obtain ⟨raw, hraw, -⟩ := Option.bind_eq_some_iff.mp h
      rw [Json.expect_some hraw]
      rfl

/-- The space in front of an item does not matter. -/
theorem elements_skip {n : Nat} {text : List Byte} {r : List Json.Value × List Byte}
    (h : Json.elements n text = some r) : Json.elements n (Json.skip text) = some r := by
  cases n with
  | zero => cases h
  | succ n =>
      rw [Json.elements] at h ⊢
      rw [value_skip]
      exact h

/-- **Every value is skipped**, up to where the decoder has read it. -/
theorem aiSkipJsonValue_value (n : Nat) :
    (∀ text v rest fuel, Json.value n text = some (v, rest) → Ends rest → n ≤ fuel →
      aiSkipJsonValue fuel text = some (true, rest)) ∧
    (∀ text ms rest fuel, Json.members n text = some (ms, rest) → n ≤ fuel →
      aiSkipMembers fuel (Json.skip text) = some (true, rest)) ∧
    (∀ text vs rest fuel, Json.elements n text = some (vs, rest) → n ≤ fuel →
      aiSkipItems fuel text = some (true, rest)) := by
  induction n with
  | zero => exact ⟨nofun, nofun, nofun⟩
  | succ n ih =>
      obtain ⟨ihvalue, ihmembers, ihitems⟩ := ih
      refine ⟨?_, ?_, ?_⟩
      · intro text v rest fuel h hends hfuel
        obtain ⟨fuel, rfl⟩ := Nat.exists_eq_add_of_le' (Nat.le_trans (Nat.le_add_left 1 n) hfuel)
        obtain ⟨b, tail, hskip, hcases⟩ := Json.value_some h
        rw [aiSkipJsonValue, aiSkipSpace_eq, hskip]
        dsimp only
        rcases hcases with ⟨rfl, hobj⟩ | ⟨rfl, harr⟩ | ⟨rfl, s, -, hs⟩ |
          ⟨hbrace, hbracket, hquote, hscalar⟩
        · rw [if_neg (by decide), if_pos rfl, aiSkipSpace_eq]
          rcases hobj with ⟨-, hend⟩ | ⟨ms, -, hms⟩
          · rw [hend]
          · have hopen : expect rbrace (Json.skip tail) = none := members_open hms
            rw [hopen]
            exact ihmembers tail ms rest fuel hms (by omega)
        · rw [if_neg (by decide), if_neg (by decide), if_pos rfl, aiSkipSpace_eq]
          rcases harr with ⟨-, hend⟩ | ⟨vs, -, hopen, hvs⟩
          · rw [hend]
          · rw [hopen]
            exact ihitems _ vs rest fuel (elements_skip hvs) (by omega)
        · rw [if_pos rfl, aiSkipJsonString_string hs]
        · obtain ⟨hdrop, hne⟩ := takes_dropWhile (Json.scalar_takes hscalar).2 hends
          rw [if_neg hquote, if_neg hbrace, if_neg hbracket, hdrop, decide_eq_true hne]
      · intro text ms rest fuel h hfuel
        obtain ⟨fuel, rfl⟩ := Nat.exists_eq_add_of_le' (Nat.le_trans (Nat.le_add_left 1 n) hfuel)
        rw [Json.members] at h
        obtain ⟨raw, hraw, h⟩ := Option.bind_eq_some_iff.mp h
        obtain ⟨⟨k, colonText⟩, hstring, h⟩ := Option.bind_eq_some_iff.mp h
        obtain ⟨valueText, hcolon, h⟩ := Option.bind_eq_some_iff.mp h
        obtain ⟨⟨v, behind⟩, hvalue, h⟩ := Option.bind_eq_some_iff.mp h
        rw [aiSkipMembers, Json.expect_some hraw, aiSkipJsonString_string hstring]
        dsimp only
        rw [aiSkipSpace_eq, hcolon]
        dsimp only at h ⊢
        split at h
        next next hnext =>
          obtain ⟨⟨ms', rest'⟩, hms, heq⟩ := Option.map_eq_some_iff.mp h
          have hends : Ends behind := ends_of_expect rfl hnext
          rw [ihvalue _ _ _ fuel hvalue hends (by omega)]
          cases heq
          have hskip := ihmembers next ms' rest' fuel hms (by omega)
          simp only [Option.bind_eq_bind, Option.bind_some, Bool.not_true, Bool.false_eq_true,
            if_false, aiSkipSpace_eq, hnext, hskip]
        next hnone =>
          obtain ⟨last, hlast, heq⟩ := Option.map_eq_some_iff.mp h
          have hends : Ends behind := ends_of_expect rfl hlast
          rw [ihvalue _ _ _ fuel hvalue hends (by omega)]
          cases heq
          simp only [Option.bind_eq_bind, Option.bind_some, Bool.not_true, Bool.false_eq_true,
            if_false, aiSkipSpace_eq, hnone, hlast]
      · intro text vs rest fuel h hfuel
        obtain ⟨fuel, rfl⟩ := Nat.exists_eq_add_of_le' (Nat.le_trans (Nat.le_add_left 1 n) hfuel)
        rw [Json.elements] at h
        obtain ⟨⟨v, behind⟩, hvalue, h⟩ := Option.bind_eq_some_iff.mp h
        rw [aiSkipItems]
        dsimp only at h ⊢
        split at h
        next next hnext =>
          obtain ⟨⟨vs', rest'⟩, hvs, heq⟩ := Option.map_eq_some_iff.mp h
          have hends : Ends behind := ends_of_expect rfl hnext
          rw [ihvalue _ _ _ fuel hvalue hends (by omega)]
          cases heq
          have hskip := ihitems _ vs' rest' fuel (elements_skip hvs) (by omega)
          simp only [Option.bind_eq_bind, Option.bind_some, Bool.not_true, Bool.false_eq_true,
            if_false, aiSkipSpace_eq, hnext, hskip]
        next hnone =>
          obtain ⟨last, hlast, heq⟩ := Option.map_eq_some_iff.mp h
          have hends : Ends behind := ends_of_expect rfl hlast
          rw [ihvalue _ _ _ fuel hvalue hends (by omega)]
          cases heq
          simp only [Option.bind_eq_bind, Option.bind_some, Bool.not_true, Bool.false_eq_true,
            if_false, aiSkipSpace_eq, hnone, hlast]

/-! ## Every walk comes to an end -/

theorem aiParseHexLoop_length (count : Nat) : ∀ result cursor,
    (aiParseHexLoop count result cursor).2.length ≤ cursor.length := by
  induction count with
  | zero => exact fun result cursor => Nat.le_refl _
  | succ count ih =>
      intro result cursor
      cases cursor with
      | nil => exact Nat.le_refl _
      | cons character cursor =>
          rw [aiParseHexLoop]
          split
          · exact Nat.le_refl _
          · exact Nat.le_succ_of_le (ih _ cursor)

theorem aiParseHex_length (cursor : List Byte) : (aiParseHex cursor).2.length ≤ cursor.length :=
  aiParseHexLoop_length 4 0 cursor

theorem aiPairedCode_length (code : Nat) (cursor : List Byte) :
    (aiPairedCode code cursor).2.length ≤ cursor.length := by
  unfold aiPairedCode
  split
  · split
    next first second third cursor =>
      split
      · have hparse := aiParseHex_length (third :: cursor)
        split
        next heq =>
          rw [heq] at hparse
          exact Nat.le_succ_of_le (Nat.le_succ_of_le hparse)
        next heq =>
          rw [heq] at hparse
          split <;> exact Nat.le_succ_of_le (Nat.le_succ_of_le hparse)
      · exact Nat.le_refl _
    next => exact Nat.le_refl _
  · split <;> exact Nat.le_refl _

theorem aiDecodeEscape_length (cursor : List Byte) :
    (aiDecodeEscape cursor).2.length ≤ cursor.length := by
  cases cursor with
  | nil => exact Nat.le_refl _
  | cons character cursor =>
      rw [aiDecodeEscape]
      split
      · exact Nat.le_succ _
      split
      · exact Nat.le_succ _
      split
      · have hparse := aiParseHex_length cursor
        split
        next heq =>
          rw [heq] at hparse
          exact Nat.le_succ_of_le hparse
        next code behind heq =>
          rw [heq] at hparse
          exact Nat.le_succ_of_le ((aiPairedCode_length code behind).trans hparse)
      · exact Nat.le_succ _

theorem aiDecodeLoop_length (size fuel : Nat) : ∀ output cursor,
    (aiDecodeLoop size fuel output cursor).2.length ≤ cursor.length := by
  induction fuel with
  | zero => exact fun output cursor => Nat.le_refl _
  | succ fuel ih =>
      intro output cursor
      cases cursor with
      | nil => exact Nat.le_refl _
      | cons character cursor =>
          rw [aiDecodeLoop]
          split
          · exact Nat.le_succ _
          split
          · split
            · exact Nat.le_refl _
            · exact Nat.le_succ_of_le (ih _ cursor)
          split
          · exact Nat.le_refl _
          have hescape := aiDecodeEscape_length cursor
          split
          next heq =>
            rw [heq] at hescape
            exact Nat.le_succ_of_le hescape
          next encoded behind heq =>
            rw [heq] at hescape
            split
            · exact Nat.le_succ_of_le hescape
            · exact Nat.le_succ_of_le ((ih _ behind).trans hescape)

theorem aiDecodeJsonString_length (size : Nat) (cursor : List Byte) :
    (aiDecodeJsonString size cursor).2.length ≤ cursor.length ∧
      ((aiDecodeJsonString size cursor).1.isSome →
        (aiDecodeJsonString size cursor).2.length < cursor.length) := by
  cases cursor with
  | nil => exact ⟨Nat.le_refl _, fun h => absurd h Bool.false_ne_true⟩
  | cons character cursor =>
      rw [aiDecodeJsonString]
      split
      · exact ⟨Nat.le_refl _, fun h => absurd h Bool.false_ne_true⟩
      · have hloop := aiDecodeLoop_length size (cursor.length + 1) [] cursor
        exact ⟨Nat.le_succ_of_le hloop, fun _ => Nat.lt_succ_of_le hloop⟩

theorem aiSkipSpace_length (cursor : List Byte) : (aiSkipSpace cursor).length ≤ cursor.length :=
  (List.dropWhile_sublist _).length_le

theorem expect_length {b : Byte} {cursor rest : List Byte} (h : expect b cursor = some rest) :
    rest.length < cursor.length := by
  rw [Json.expect_some h]
  exact Nat.lt_succ_self _

theorem aiSkipStringLoop_length (cursor : List Byte) :
    (aiSkipStringLoop cursor).2.length ≤ cursor.length := by
  fun_induction aiSkipStringLoop cursor with
  | case4 _ _ _ ih => exact Nat.le_succ_of_le (Nat.le_succ_of_le ih)
  | case5 _ _ _ _ ih => exact Nat.le_succ_of_le ih
  | _ => simp

theorem aiSkipJsonString_length (cursor : List Byte) :
    (aiSkipJsonString cursor).2.length ≤ cursor.length ∧
      ((aiSkipJsonString cursor).1 → (aiSkipJsonString cursor).2.length < cursor.length) := by
  unfold aiSkipJsonString
  split
  · exact ⟨Nat.le_refl _, nofun⟩
  next rest hopen =>
    have hloop := (aiSkipStringLoop_length rest).trans_lt (expect_length hopen)
    exact ⟨Nat.le_of_lt hloop, fun _ => hloop⟩

/-- A walk that has come to an end, no farther back than where it began. -/
def Ended {A : Type} (cursor : List Byte) (walk : Option (A × List Byte)) : Prop :=
  ∃ result rest, walk = some (result, rest) ∧ rest.length ≤ cursor.length

theorem Ended.mono {A : Type} {cursor cursor' : List Byte} {walk : Option (A × List Byte)}
    (h : Ended cursor walk) (hle : cursor.length ≤ cursor'.length) : Ended cursor' walk := by
  obtain ⟨result, rest, heq, hrest⟩ := h
  exact ⟨result, rest, heq, hrest.trans hle⟩

theorem ended_some {A : Type} {cursor rest : List Byte} (result : A)
    (h : rest.length ≤ cursor.length) : Ended cursor (some (result, rest)) :=
  ⟨result, rest, rfl, h⟩

/-- The skipper: two rounds are enough for each byte. -/
theorem aiSkipJsonValue_ended (fuel : Nat) :
    (∀ cursor, 2 * cursor.length < fuel → Ended cursor (aiSkipJsonValue fuel cursor)) ∧
    (∀ cursor, 2 * cursor.length + 1 < fuel → Ended cursor (aiSkipMembers fuel cursor)) ∧
    (∀ cursor, 2 * cursor.length + 1 < fuel → Ended cursor (aiSkipItems fuel cursor)) := by
  induction fuel with
  | zero => exact ⟨nofun, nofun, nofun⟩
  | succ fuel ih =>
      obtain ⟨ihvalue, ihmembers, ihitems⟩ := ih
      refine ⟨?_, ?_, ?_⟩
      · intro cursor hfuel
        have hspace := aiSkipSpace_length cursor
        rw [aiSkipJsonValue]
        cases hskip : aiSkipSpace cursor with
        | nil => exact ended_some _ (Nat.zero_le _)
        | cons b tail =>
            rw [hskip, List.length_cons] at hspace
            have htail := aiSkipSpace_length tail
            dsimp only
            split
            · have hstring := (aiSkipJsonString_length (b :: tail)).1
              rw [List.length_cons] at hstring
              exact ⟨_, _, rfl, hstring.trans hspace⟩
            split
            · split
              next hclosed =>
                have hshort := expect_length hclosed
                exact ended_some _ (by omega)
              next => exact (ihmembers _ (by omega)).mono (by omega)
            split
            · split
              next hclosed =>
                have hshort := expect_length hclosed
                exact ended_some _ (by omega)
              next => exact (ihitems _ (by omega)).mono (by omega)
            · have hdrop := (List.dropWhile_sublist (l := b :: tail)
                fun b => !isDelimiter b).length_le
              rw [List.length_cons] at hdrop
              exact ended_some _ (hdrop.trans hspace)
      · intro cursor hfuel
        rw [aiSkipMembers]
        obtain ⟨hstring, hshort⟩ := aiSkipJsonString_length cursor
        split
        next behind heq =>
          rw [heq] at hstring
          exact ended_some _ hstring
        next behind heq =>
          rw [heq] at hshort
          have hbehind : behind.length < cursor.length := hshort rfl
          have hspace := aiSkipSpace_length behind
          split
          · exact ended_some _ (by omega)
          next valueText hcolon =>
            have hvalue := expect_length hcolon
            obtain ⟨ok, rest, heq, hrest⟩ := ihvalue valueText (by omega)
            have hspace' := aiSkipSpace_length rest
            rw [heq]
            dsimp only [Option.bind_eq_bind, Option.bind_some]
            split
            · exact ended_some _ (by omega)
            split
            next next hnext =>
              have hnext := expect_length hnext
              have hspace'' := aiSkipSpace_length next
              exact (ihmembers _ (by omega)).mono (by omega)
            · split
              next hclosed =>
                have hclosed := expect_length hclosed
                exact ended_some _ (by omega)
              next => exact ended_some _ (by omega)
      · intro cursor hfuel
        rw [aiSkipItems]
        obtain ⟨ok, rest, heq, hrest⟩ := ihvalue cursor (by omega)
        have hspace' := aiSkipSpace_length rest
        rw [heq]
        dsimp only [Option.bind_eq_bind, Option.bind_some]
        split
        · exact ended_some _ (by omega)
        split
        next next hnext =>
          have hnext := expect_length hnext
          have hspace'' := aiSkipSpace_length next
          exact (ihitems _ (by omega)).mono (by omega)
        · split
          next hclosed =>
            have hclosed := expect_length hclosed
            exact ended_some _ (by omega)
          next => exact ended_some _ (by omega)

theorem aiKey_length (cursor : List Byte) :
    (aiKey cursor).2.length ≤ cursor.length ∧
      ((aiKey cursor).1.isSome → (aiKey cursor).2.length < cursor.length) := by
  obtain ⟨hle, hlt⟩ := aiDecodeJsonString_length KEY_SIZE cursor
  unfold aiKey
  split
  next heq =>
    rw [heq] at hle
    exact ⟨hle, nofun⟩
  next key behind heq =>
    rw [heq] at hlt
    have hshort : behind.length < cursor.length := hlt rfl
    split
    · exact ⟨Nat.le_of_lt hshort, nofun⟩
    next valueText hcolon =>
      have hvalue := expect_length hcolon
      have hspace := aiSkipSpace_length valueText
      exact ⟨by dsimp only; omega, fun _ => by dsimp only; omega⟩

/-- The cursor after an action. -/
def Action.cursor : Action → List Byte
  | .done _ cursor => cursor
  | .skip cursor => cursor

/-- An action that comes to an end. -/
def Acts (fuel : Nat) (act : List Byte → List Byte → Option Action) : Prop :=
  ∀ key cursor, 2 * cursor.length < fuel →
    ∃ action, act key cursor = some action ∧ action.cursor.length ≤ cursor.length

theorem aiNextMember_ended {fuel : Nat} {cursor : List Byte} (hfuel : 2 * cursor.length < fuel) :
    Ended cursor (aiNextMember fuel cursor) := by
  obtain ⟨ok, rest, heq, hrest⟩ := (aiSkipJsonValue_ended fuel).1 cursor hfuel
  have hspace := aiSkipSpace_length rest
  rw [aiNextMember, heq]
  dsimp only [Option.bind_eq_bind, Option.bind_some]
  split
  · exact ended_some _ hrest
  split
  next next hnext =>
    have hnext := expect_length hnext
    have hspace' := aiSkipSpace_length next
    exact ended_some _ (by omega)
  next => exact ended_some _ (by omega)

theorem aiMembers_ended {fuel : Nat} {act : List Byte → List Byte → Option Action}
    (hact : Acts fuel act) (rounds : Nat) : ∀ cursor, 2 * cursor.length < fuel →
      cursor.length < rounds → Ended cursor (aiMembers fuel act rounds cursor) := by
  induction rounds with
  | zero => exact fun cursor hfuel hrounds => absurd hrounds (Nat.not_lt_zero _)
  | succ rounds ih =>
      intro cursor hfuel hrounds
      rw [aiMembers]
      split
      · exact ended_some _ (Nat.le_refl _)
      obtain ⟨hle, hlt⟩ := aiKey_length cursor
      split
      next behind heq =>
        rw [heq] at hle
        exact ended_some _ hle
      next key behind heq =>
        rw [heq] at hlt
        have hshort : behind.length < cursor.length := hlt rfl
        obtain ⟨action, haction, hcursor⟩ := hact key behind (by omega)
        rw [haction]
        dsimp only [Option.bind_eq_bind, Option.bind_some]
        cases action with
        | done result rest => exact ended_some _ (hcursor.trans (Nat.le_of_lt hshort))
        | skip rest =>
            have hrest : rest.length ≤ behind.length := hcursor
            obtain ⟨ok, next, hnext, hlength⟩ := @aiNextMember_ended fuel rest (by omega)
            dsimp only
            rw [hnext]
            dsimp only [Option.bind_some]
            split
            · exact (ih next (by omega) (by omega)).mono (by omega)
            · exact ended_some _ (by omega)

section Actions

variable {size fuel : Nat}

theorem messageAction_acts : Acts fuel (messageAction size) := by
  intro key cursor hfuel
  unfold messageAction
  split
  · exact ⟨_, rfl, (aiDecodeJsonString_length size cursor).1⟩
  · exact ⟨_, rfl, Nat.le_refl _⟩

theorem choiceAction_acts : Acts fuel (choiceAction size fuel) := by
  intro key cursor hfuel
  unfold choiceAction
  split
  · split
    · exact ⟨_, rfl, Nat.le_refl _⟩
    next tail hopen =>
      have htail := expect_length hopen
      have hspace := aiSkipSpace_length tail
      obtain ⟨result, rest, heq, hrest⟩ := @aiMembers_ended fuel (messageAction size)
        messageAction_acts fuel (aiSkipSpace tail) (by omega) (by omega)
      rw [heq]
      exact ⟨_, rfl, by simp only [Action.cursor]; omega⟩
  · exact ⟨_, rfl, Nat.le_refl _⟩

theorem aiExtractChatContent_ended {cursor : List Byte} (hfuel : 2 * cursor.length < fuel) :
    Ended cursor (aiExtractChatContent size fuel cursor) := by
  have hspace := aiSkipSpace_length cursor
  unfold aiExtractChatContent
  split
  · exact ended_some _ hspace
  next tail hopen =>
    have htail := expect_length hopen
    have hspace' := aiSkipSpace_length tail
    split
    · exact ended_some _ (by omega)
    next tail' hopen' =>
      have htail' := expect_length hopen'
      have hspace'' := aiSkipSpace_length tail'
      exact (aiMembers_ended choiceAction_acts fuel _ (by omega) (by omega)).mono (by omega)

theorem responseAction_acts : Acts fuel (responseAction size fuel) := by
  intro key cursor hfuel
  unfold responseAction
  split
  · exact ⟨_, rfl, (aiDecodeJsonString_length size cursor).1⟩
  split
  · obtain ⟨result, rest, heq, hrest⟩ := @aiExtractChatContent_ended size fuel cursor hfuel
    rw [heq]
    cases result with
    | none => exact ⟨_, rfl, hrest⟩
    | some s => exact ⟨_, rfl, hrest⟩
  · exact ⟨_, rfl, Nat.le_refl _⟩

end Actions

/-- **Every walk comes to an end**, whatever the server has sent. -/
theorem aiExtractResponse_ends (size : Nat) (body : List Byte) :
    ∃ result, aiExtractResponse size body = some result := by
  have hspace := aiSkipSpace_length body
  unfold aiExtractResponse
  dsimp only
  split
  · exact ⟨none, rfl⟩
  next tail hopen =>
    have htail := expect_length hopen
    have hspace' := aiSkipSpace_length tail
    obtain ⟨result, rest, heq, -⟩ := aiMembers_ended (@responseAction_acts size
      (2 * body.length + 1)) (2 * body.length + 1) (aiSkipSpace tail) (by omega) (by omega)
    exact ⟨result, by rw [heq]; rfl⟩

end Ai
