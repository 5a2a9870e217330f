import Zzdwm.Ai.JsonWalks

/-!
# The answer that is extracted (`ai.c`)

* `Tight` — a name that the client can read;
* `aiMembers_stops`, `aiMembers_found` — what the loop over the members of an object finds;
* `Reached` — the answer is reached;
* `extract_response_reached` — **when the answer is extracted**.
-/

namespace Ai

open Ascii (Byte bytes isDigit)
open Json (quote backslash comma lbrace rbrace lbracket rbracket expect)

/-! ## Members that are reached -/

open Json (Part Member Parts ObjectParts)

/-- A name that the client can read: it fits, and the colon is right behind it. -/
structure Tight (part : Part) : Prop where
  gap : part.gap = []
  fits : part.key.length < KEY_SIZE

section Steps

variable {fuel : Nat} {cursor rest : List Byte} {part : Part}

theorem aiKey_tight (hmember : Member fuel cursor part rest) (htight : Tight part) :
    aiKey cursor = (some part.key, part.text) := by
  obtain ⟨raw, colonText, rfl, hstring, hgap, valueText, hcolon, htext, -⟩ := hmember
  have hskip : Json.skip colonText = colonText := by
    have hsplit := List.takeWhile_append_dropWhile (p := Json.isBlank) (l := colonText)
    rwa [← hgap, htight.gap, List.nil_append] at hsplit
  rw [hskip] at hcolon
  rw [aiKey, aiDecodeJsonString_spec hstring htight.fits]
  dsimp only
  rw [hcolon]
  dsimp only
  rw [aiSkipSpace_eq, htext]

theorem aiKey_loose (hmember : Member fuel cursor part rest) (hloose : ¬ Tight part) :
    (aiKey cursor).1 = none := by
  obtain ⟨raw, colonText, rfl, hstring, hgap, valueText, hcolon, htext, -⟩ := hmember
  rw [aiKey]
  by_cases hfits : part.key.length < KEY_SIZE
  · rw [aiDecodeJsonString_spec hstring hfits]
    dsimp only
    -- white space stands in front of the colon
    cases colonText with
    | nil => rfl
    | cons b tail =>
        have hblank : Json.isBlank b = true := by
          by_contra hno
          rw [Bool.not_eq_true] at hno
          rw [List.takeWhile_cons_of_neg (by simp [hno])] at hgap
          exact hloose ⟨hgap, hfits⟩
        have hne : b ≠ Json.colon := by
          rintro rfl
          cases hblank
        rw [Json.expect_ne hne]
  · have hnone := @aiDecodeJsonString_none KEY_SIZE raw (by decide) fun s rest h => by
      rw [hstring] at h
      cases h
      exact Nat.not_lt.mp hfits
    split
    · rfl
    next heq =>
      rw [heq] at hnone
      cases hnone

/-- The value of a member is skipped. -/
theorem aiSkipJsonValue_member {n : Nat} (hn : fuel ≤ n) (hmember : Member fuel cursor part rest)
    (hends : Ends rest) : aiSkipJsonValue n part.text = some (true, rest) := by
  obtain ⟨raw, colonText, -, -, -, valueText, -, htext, m, hm, hvalue⟩ := hmember
  rw [htext]
  rw [← value_skip] at hvalue
  exact (aiSkipJsonValue_value m).1 _ _ _ n hvalue hends (Nat.le_trans hm hn)

theorem member_open (hmember : Member fuel cursor part rest) :
    cursor ≠ [] ∧ expect rbrace cursor = none := by
  obtain ⟨raw, colonText, rfl, -⟩ := hmember
  exact ⟨List.cons_ne_nil _ _, rfl⟩

end Steps

section Loop

variable {fuel n : Nat} {act : List Byte → List Byte → Option Action}

/-- The function goes on to the next member. -/
def Skips (act : List Byte → List Byte → Option Action) (part : Part) : Prop :=
  act part.key part.text = some (.skip part.text)

/-- The loop over the members in front of one at which the function returns. -/
def Stops (act : List Byte → List Byte → Option Action) (parts : List Part)
    (result : Option (List Byte)) : Prop :=
  ∃ before part after, parts = before ++ part :: after ∧ (∀ p ∈ before, Tight p ∧ Skips act p) ∧
    Tight part ∧ ∃ cursor, act part.key part.text = some (.done result cursor)

theorem aiMembers_stop {rounds : Nat} {cursor rest : List Byte} {part : Part}
    (hmember : Member fuel cursor part rest) (htight : Tight part) {result : Option (List Byte)}
    {behind : List Byte} (hact : act part.key part.text = some (.done result behind)) :
    aiMembers n act (rounds + 1) cursor = some (result, behind) := by
  obtain ⟨hne, hopen⟩ := member_open hmember
  rw [aiMembers, hopen, if_neg (by simp [hne]), aiKey_tight hmember htight]
  dsimp only [Option.bind_eq_bind]
  rw [hact]
  rfl

theorem aiMembers_loose {rounds : Nat} {cursor rest : List Byte} {part : Part}
    (hmember : Member fuel cursor part rest) (hloose : ¬ Tight part) :
    ∃ behind, aiMembers n act (rounds + 1) cursor = some (none, behind) := by
  obtain ⟨hne, hopen⟩ := member_open hmember
  have hkey := aiKey_loose hmember hloose
  rw [aiMembers, hopen, if_neg (by simp [hne])]
  generalize aiKey cursor = key at hkey
  obtain ⟨key, behind⟩ := key
  cases hkey
  exact ⟨behind, rfl⟩

/-- One round, to the next member. -/
theorem aiMembers_more (hn : fuel ≤ n) {rounds : Nat} {cursor rest behind : List Byte} {part : Part}
    (hmember : Member fuel cursor part rest) (hnext : expect comma (Json.skip rest) = some behind)
    (htight : Tight part) (hskips : Skips act part) :
    aiMembers n act (rounds + 1) cursor = aiMembers n act rounds (Json.skip behind) := by
  obtain ⟨hne, hopen⟩ := member_open hmember
  have hends : Ends rest := ends_of_expect rfl hnext
  rw [aiMembers, hopen, if_neg (by simp [hne]), aiKey_tight hmember htight]
  dsimp only [Option.bind_eq_bind]
  rw [hskips]
  dsimp only [Option.bind_some]
  rw [aiNextMember, aiSkipJsonValue_member hn hmember hends]
  simp only [Option.bind_eq_bind, Option.bind_some, Bool.not_true, Bool.false_eq_true, if_false,
    aiSkipSpace_eq, hnext, if_true]

/-- The last round, to the brace. -/
theorem aiMembers_last (hn : fuel ≤ n) {rounds : Nat} {cursor rest behind : List Byte} {part : Part}
    (hmember : Member fuel cursor part rest) (hbrace : expect rbrace (Json.skip rest) = some behind)
    (htight : Tight part) (hskips : Skips act part) :
    aiMembers n act (rounds + 2) cursor = some (none, Json.skip rest) := by
  obtain ⟨hne, hopen⟩ := member_open hmember
  have hends : Ends rest := ends_of_expect rfl hbrace
  have hcomma : expect comma (Json.skip rest) = none := by
    rw [Json.expect_some hbrace]
    rfl
  rw [aiMembers, hopen, if_neg (by simp [hne]), aiKey_tight hmember htight]
  dsimp only [Option.bind_eq_bind]
  rw [hskips]
  dsimp only [Option.bind_some]
  rw [aiNextMember, aiSkipJsonValue_member hn hmember hends]
  simp only [Option.bind_eq_bind, Option.bind_some, Bool.not_true, Bool.false_eq_true, if_false,
    aiSkipSpace_eq, hcomma, hbrace, Option.isSome_some, if_true]
  have hclosed : (some behind).isSome = true := rfl
  rw [aiMembers, hbrace, if_pos (Or.inr hclosed)]

/-- **The loop returns where it stops.** -/
theorem aiMembers_stops (hn : fuel ≤ n) {parts : List Part} {result : Option (List Byte)} :
    ∀ {rounds cursor}, Parts fuel cursor parts → Stops act parts result → parts.length < rounds →
      ∃ behind, aiMembers n act rounds cursor = some (result, behind) := by
  induction parts with
  | nil =>
      intro rounds cursor hparts
      cases hparts
  | cons part parts ih =>
      intro rounds cursor hparts hstops hrounds
      obtain ⟨rounds, rfl⟩ := Nat.exists_eq_add_of_lt (Nat.zero_lt_of_lt hrounds)
      rw [Nat.zero_add] at hrounds ⊢
      obtain ⟨before, target, after, hsplit, hbefore, htight, behind, hact⟩ := hstops
      cases before with
      | nil =>
          obtain ⟨rfl, rfl⟩ := List.cons.inj hsplit
          cases hparts with
          | last hmember => exact ⟨behind, aiMembers_stop hmember htight hact⟩
          | more hmember => exact ⟨behind, aiMembers_stop hmember htight hact⟩
      | cons first before =>
          obtain ⟨rfl, hlist⟩ := List.cons.inj hsplit
          obtain ⟨⟨hfirst, hskips⟩, hbefore⟩ := List.forall_mem_cons.mp hbefore
          cases hparts with
          | last => exact absurd hlist (by simp)
          | more hmember hnext hothers =>
              rw [aiMembers_more hn hmember hnext hfirst hskips]
              exact ih hothers ⟨before, target, after, hlist, hbefore, htight, behind, hact⟩
                (Nat.lt_of_succ_lt_succ hrounds)

/-- **The loop over all members**: it finds what it stops at, and nothing else. -/
theorem aiMembers_found (hn : fuel ≤ n) {parts : List Part} : ∀ {rounds cursor},
    Parts fuel cursor parts →
      (∀ p ∈ parts, Skips act p ∨ ∃ r c, act p.key p.text = some (.done r c)) →
        parts.length < rounds →
          ∃ result behind, aiMembers n act rounds cursor = some (result, behind) ∧
            ∀ s, result = some s → Stops act parts (some s) := by
  induction parts with
  | nil =>
      intro rounds cursor hparts
      cases hparts
  | cons part parts ih =>
      intro rounds cursor hparts hall hrounds
      obtain ⟨hpart, hall⟩ := List.forall_mem_cons.mp hall
      obtain ⟨rounds, rfl⟩ := Nat.exists_eq_add_of_lt (Nat.zero_lt_of_lt hrounds)
      rw [Nat.zero_add] at hrounds ⊢
      obtain ⟨rest, hmember⟩ : ∃ rest, Member fuel cursor part rest := by
        cases hparts with
        | last hmember => exact ⟨_, hmember⟩
        | more hmember => exact ⟨_, hmember⟩
      by_cases htight : Tight part
      · rcases hpart with hskips | ⟨result, behind, hact⟩
        · cases hparts with
          | last hlast hbrace =>
              obtain ⟨rounds, rfl⟩ := Nat.exists_eq_add_of_lt
                (show 0 < rounds from Nat.lt_of_succ_lt_succ hrounds)
              rw [Nat.zero_add]
              exact ⟨none, _, aiMembers_last hn hlast hbrace htight hskips, nofun⟩
          | more hmore hnext hothers =>
              obtain ⟨result, behind, hrun, hfound⟩ :=
                ih hothers hall (Nat.lt_of_succ_lt_succ hrounds)
              refine ⟨result, behind, ?_, fun s hs => ?_⟩
              · rw [aiMembers_more hn hmore hnext htight hskips, hrun]
              · obtain ⟨before, target, after, rfl, hbefore, hstop⟩ := hfound s hs
                exact ⟨part :: before, target, after, rfl,
                  List.forall_mem_cons.mpr ⟨⟨htight, hskips⟩, hbefore⟩, hstop⟩
        · refine ⟨result, behind, aiMembers_stop hmember htight hact, fun s hs => ?_⟩
          rw [hs] at hact
          exact ⟨[], part, parts, rfl, nofun, htight, behind, hact⟩
      · obtain ⟨behind, hrun⟩ := @aiMembers_loose fuel n act rounds _ _ _ hmember htight
        exact ⟨none, behind, hrun, nofun⟩

end Loop

/-! ## What the client extracts -/

/-- The first member with this name: the names up to it can be read. -/
def Leads (stop : List Byte) (parts : List Part) (target : Part) : Prop :=
  ∃ before after, parts = before ++ target :: after ∧
    (∀ p ∈ before, Tight p ∧ cString p.key ≠ stop) ∧ Tight target ∧ cString target.key = stop

/-- The content of the message of the first choice, in an array whose text this is. -/
def ChatReached (fuel : Nat) (text s : List Byte) : Prop :=
  ∃ tail choice message fields content, text = lbracket :: tail ∧
    ObjectParts fuel (Json.skip tail) choice ∧ Leads (bytes "message") choice message ∧
    ObjectParts fuel message.text fields ∧ Leads (bytes "content") fields content ∧
    content.val = .str s

/-- A member that is passed on the way to the answer: it has another name, or it is no array of
choices. -/
structure Passed (p : Part) : Prop where
  tight : Tight p
  response : cString p.key ≠ bytes "response"
  choices : cString p.key = bytes "choices" → ¬ p.val.IsArray

/-- **The answer is reached**: the names up to it can be read. -/
def Reached (fuel : Nat) (parts : List Part) (s : List Byte) : Prop :=
  ∃ before target after, parts = before ++ target :: after ∧ (∀ p ∈ before, Passed p) ∧
    Tight target ∧
    (cString target.key = bytes "response" ∧ target.val = .str s ∨
      cString target.key = bytes "choices" ∧ ChatReached fuel target.text s)

theorem parts_member {fuel : Nat} {parts : List Part} {p : Part} (hp : p ∈ parts) :
    ∀ {cursor}, Parts fuel cursor parts → ∃ text rest, Member fuel text p rest := by
  induction parts with
  | nil => cases hp
  | cons part parts ih =>
      intro cursor hparts
      rcases List.mem_cons.mp hp with rfl | hp
      · cases hparts with
        | last hmember => exact ⟨_, _, hmember⟩
        | more hmember => exact ⟨_, _, hmember⟩
      · cases hparts with
        | last => cases hp
        | more _ _ hothers => exact ih hp hothers

theorem objectParts_member {fuel : Nat} {parts : List Part} {p : Part} {text : List Byte}
    (h : ObjectParts fuel text parts) (hp : p ∈ parts) : ∃ text rest, Member fuel text p rest := by
  obtain ⟨rest, -, -, ⟨rfl, -⟩ | hparts⟩ := h
  · cases hp
  · exact parts_member hp hparts

section Member

variable {fuel size : Nat} {cursor rest : List Byte} {part : Part}

/-- The text of a member that is a string is decoded, if it fits. -/
theorem aiDecodeJsonString_member (hmember : Member fuel cursor part rest) {s : List Byte}
    (hval : part.val = .str s) (hsize : s.length < size) :
    aiDecodeJsonString size part.text = (some s, rest) := by
  obtain ⟨raw, colonText, -, -, -, valueText, -, htext, m, -, hvalue⟩ := hmember
  rw [hval] at hvalue
  obtain ⟨body, hskip, hstring⟩ := Json.value_str_text hvalue
  rw [htext, hskip]
  exact aiDecodeJsonString_spec hstring hsize

/-- Nothing else is. -/
theorem aiDecodeJsonString_member_some (hmember : Member fuel cursor part rest) (hpos : 0 < size)
    {s behind : List Byte} (h : aiDecodeJsonString size part.text = (some s, behind)) :
    part.val = .str s ∧ s.length < size := by
  obtain ⟨raw, colonText, -, -, -, valueText, -, htext, m, -, hvalue⟩ := hmember
  cases m with
  | zero => cases hvalue
  | succ m =>
      obtain ⟨b, tail, hskip, hcases⟩ := Json.value_some hvalue
      rw [htext, hskip] at h
      by_cases hb : b = quote
      · subst hb
        obtain ⟨s', hval, hstring⟩ : ∃ s', part.val = .str s' ∧
            Json.string tail = some (s', rest) := by
          rcases hcases with ⟨heq, -⟩ | ⟨heq, -⟩ | ⟨-, hs⟩ | ⟨-, -, hne, -⟩
          · cases heq
          · cases heq
          · exact hs
          · exact absurd rfl hne
        by_cases hsize : s'.length < size
        · rw [aiDecodeJsonString_spec hstring hsize] at h
          cases h
          exact ⟨hval, hsize⟩
        · have hnone := @aiDecodeJsonString_none size tail hpos fun s'' rest'' h' => by
            rw [hstring] at h'
            cases h'
            exact Nat.not_lt.mp hsize
          rw [h] at hnone
          cases hnone
      · rw [aiDecodeJsonString, if_pos hb] at h
        cases h

/-- What is no array does not start with a bracket. -/
theorem member_not_array (hmember : Member fuel cursor part rest) (hval : ¬ part.val.IsArray) :
    expect lbracket part.text = none := by
  obtain ⟨raw, colonText, -, -, -, valueText, -, htext, m, -, hvalue⟩ := hmember
  cases m with
  | zero => cases hvalue
  | succ m =>
      obtain ⟨b, tail, hskip, hcases⟩ := Json.value_some hvalue
      rw [htext, hskip]
      apply Json.expect_ne
      rcases hcases with ⟨rfl, -⟩ | ⟨-, harr⟩ | ⟨rfl, -⟩ | ⟨-, hne, -⟩
      · decide
      · rcases harr with ⟨heq, -⟩ | ⟨vs, heq, -⟩ <;> exact absurd (heq ▸ trivial) hval
      · decide
      · exact hne

theorem aiSkipSpace_member (hmember : Member fuel cursor part rest) :
    aiSkipSpace part.text = part.text := by
  obtain ⟨raw, colonText, -, -, -, valueText, -, htext, -⟩ := hmember
  rw [aiSkipSpace_eq, htext, skip_skip]

end Member

section Extract

variable {fuel n size : Nat}

/-- The loop over the members of an object, from its brace on. -/
theorem objectParts_stops (hn : fuel ≤ n) {act : List Byte → List Byte → Option Action}
    {text rest : List Byte} {parts : List Part} (hparts : ObjectParts fuel text parts)
    (hopen : expect lbrace text = some rest) {result : Option (List Byte)}
    (hstops : Stops act parts result) :
    ∃ behind, aiMembers n act n (aiSkipSpace rest) = some (result, behind) := by
  obtain ⟨rest', htext, hlength, hcases⟩ := hparts
  have hrest : text = lbrace :: rest := Json.expect_some hopen
  obtain rfl : rest = rest' := (List.cons.inj (hrest.symm.trans htext)).2
  rw [aiSkipSpace_eq]
  rcases hcases with ⟨rfl, -⟩ | hparts
  · obtain ⟨before, target, after, hsplit, -⟩ := hstops
    exact absurd hsplit.symm (by simp)
  · exact aiMembers_stops hn hparts hstops (Nat.lt_of_lt_of_le hlength hn)

theorem objectParts_open {text : List Byte} {parts : List Part}
    (h : ObjectParts fuel text parts) : ∃ rest, expect lbrace text = some rest := by
  obtain ⟨rest, rfl, -⟩ := h
  exact ⟨rest, rfl⟩

/-- A member that is led to stops the loop of its function. -/
theorem Leads.stops {stop : List Byte} {parts : List Part} {target : Part}
    (h : Leads stop parts target) {act : List Byte → List Byte → Option Action}
    (hskip : ∀ key cursor, cString key ≠ stop → act key cursor = some (.skip cursor))
    {result : Option (List Byte)} {behind : List Byte}
    (hdone : act target.key target.text = some (.done result behind)) :
    Stops act parts result := by
  obtain ⟨before, after, hsplit, hbefore, htight, -⟩ := h
  exact ⟨before, target, after, hsplit,
    fun p hp => ⟨(hbefore p hp).1, hskip _ _ (hbefore p hp).2⟩, htight, behind, hdone⟩

theorem Leads.mem {stop : List Byte} {parts : List Part} {target : Part}
    (h : Leads stop parts target) : target ∈ parts := by
  obtain ⟨before, after, rfl, -⟩ := h
  exact List.mem_append_right _ List.mem_cons_self

/-- **The content of a chat.** -/
theorem aiExtractChatContent_reached (hn : fuel ≤ n) {text s : List Byte}
    (h : ChatReached fuel text s) (hsize : s.length < size) :
    ∃ behind, aiExtractChatContent size n text = some (some s, behind) := by
  obtain ⟨tail, choice, message, fields, content, rfl, hchoice, hmessage, hfields, hcontent,
    hval⟩ := h
  -- in the message
  obtain ⟨_, rest, hmember⟩ := objectParts_member hfields hcontent.mem
  have hdecode := aiDecodeJsonString_member hmember hval hsize
  have hdone : messageAction size content.key content.text = some (.done (some s) rest) := by
    obtain ⟨-, -, -, -, -, hkey⟩ := hcontent
    rw [messageAction, if_pos hkey, hdecode]
  have hskip : ∀ key cursor, cString key ≠ bytes "content" →
      messageAction size key cursor = some (.skip cursor) := fun key cursor hne => if_neg hne
  have hstops := hcontent.stops hskip hdone
  obtain ⟨inner, hinner⟩ := objectParts_open hfields
  obtain ⟨behind, hrun⟩ := objectParts_stops hn hfields hinner hstops
  -- in the choice
  have hdone' : choiceAction size n message.key message.text = some (.done (some s) behind) := by
    obtain ⟨-, -, -, -, -, hkey⟩ := hmessage
    rw [choiceAction, if_pos hkey, hinner]
    dsimp only [Option.bind_eq_bind]
    rw [hrun]
    rfl
  have hskip' : ∀ key cursor, cString key ≠ bytes "message" →
      choiceAction size n key cursor = some (.skip cursor) := fun key cursor hne => if_neg hne
  have hstops' := hmessage.stops hskip' hdone'
  obtain ⟨outer, houter⟩ := objectParts_open hchoice
  obtain ⟨behind', hrun'⟩ := objectParts_stops hn hchoice houter hstops'
  refine ⟨behind', ?_⟩
  have hopen : expect lbracket (aiSkipSpace (lbracket :: tail)) = some tail := rfl
  rw [aiExtractChatContent, hopen]
  dsimp only
  rw [aiSkipSpace_eq tail, houter]
  exact hrun'

end Extract

/-- The answer that a body has: a string with the name of an answer, or the content of the message
of the first choice. -/
def Answers (ms : List (List Byte × Json.Value)) (s : List Byte) : Prop :=
  (bytes "response", .str s) ∈ ms ∨
    ∃ choice choices message, (bytes "choices", .arr (.obj choice :: choices)) ∈ ms ∧
      (bytes "message", .obj message) ∈ choice ∧ (bytes "content", .str s) ∈ message

/-- The client gives an answer of the body. -/
def Extracts (size : Nat) (body : List Byte) (ms : List (List Byte × Json.Value)) : Prop :=
  ∃ s, Answers ms s ∧ aiExtractResponse size body = some (some s)

section Response

variable {fuel n size : Nat} {cursor rest : List Byte} {part : Part}

/-- An array of choices is the only member that is entered. -/
theorem responseAction_skips (hmember : Member fuel cursor part rest)
    (hresponse : cString part.key ≠ bytes "response")
    (hchoices : cString part.key = bytes "choices" → ¬ part.val.IsArray) :
    Skips (responseAction size n) part := by
  unfold Skips
  rw [responseAction, if_neg hresponse]
  by_cases hkey : cString part.key = bytes "choices"
  · have hchat : aiExtractChatContent size n part.text = some (none, part.text) := by
      rw [aiExtractChatContent, aiSkipSpace_member hmember,
        member_not_array hmember (hchoices hkey)]
    rw [if_pos hkey, hchat]
    rfl
  · rw [if_neg hkey]

theorem Reached.stops (hn : fuel ≤ n) {text : List Byte} {parts : List Part}
    (hparts : ObjectParts fuel text parts) {s : List Byte} (h : Reached fuel parts s)
    (hsize : s.length < size) : Stops (responseAction size n) parts (some s) := by
  obtain ⟨before, target, after, rfl, hbefore, htight, htarget⟩ := h
  have hmembers := fun p hp => @objectParts_member fuel _ p text hparts hp
  refine ⟨before, target, after, rfl, fun p hp => ?_, htight, ?_⟩
  · obtain ⟨_, rest, hmember⟩ := hmembers p (List.mem_append_left _ hp)
    obtain ⟨hp, hresponse, hchoices⟩ := hbefore p hp
    exact ⟨hp, responseAction_skips hmember hresponse hchoices⟩
  · rcases htarget with ⟨hkey, hval⟩ | ⟨hkey, hchat⟩
    · obtain ⟨_, rest, hmember⟩ := hmembers target (List.mem_append_right _ List.mem_cons_self)
      refine ⟨rest, ?_⟩
      rw [responseAction, if_pos hkey, aiDecodeJsonString_member hmember hval hsize]
    · obtain ⟨behind, hrun⟩ := aiExtractChatContent_reached hn hchat hsize
      have hresponse : ¬ cString target.key = bytes "response" := by
        rw [hkey]
        decide
      refine ⟨behind, ?_⟩
      rw [responseAction, if_neg hresponse, if_pos hkey, hrun]
      rfl

/-- Without an array of choices, the loop only stops at an answer. -/
theorem reached_of_stops {text : List Byte} {parts : List Part}
    (hparts : ObjectParts fuel text parts) (hsize : 0 < size)
    (hnone : ∀ p ∈ parts, cString p.key = bytes "choices" → ¬ p.val.IsArray) {s : List Byte}
    (h : Stops (responseAction size n) parts (some s)) :
    s.length < size ∧ Reached fuel parts s := by
  obtain ⟨before, target, after, rfl, hbefore, htight, behind, hact⟩ := h
  have htarget : target ∈ before ++ target :: after :=
    List.mem_append_right _ List.mem_cons_self
  obtain ⟨_, rest, hmember⟩ := objectParts_member hparts htarget
  have hresponse : cString target.key = bytes "response" := by
    by_contra hne
    have hskips := @responseAction_skips fuel n size _ _ _ hmember hne (hnone target htarget)
    rw [Skips, hact] at hskips
    cases hskips
  have hdecode : aiDecodeJsonString size target.text = (some s, behind) := by
    rw [responseAction, if_pos hresponse] at hact
    generalize aiDecodeJsonString size target.text = decoded at hact ⊢
    obtain ⟨result, cursor⟩ := decoded
    cases hact
    rfl
  obtain ⟨hval, hfits⟩ := aiDecodeJsonString_member_some hmember hsize hdecode
  refine ⟨hfits, before, target, after, rfl, fun p hp => ?_, htight, Or.inl ⟨hresponse, hval⟩⟩
  obtain ⟨hp', hskips⟩ := hbefore p hp
  refine ⟨hp', fun hkey => ?_, hnone p (List.mem_append_left _ hp)⟩
  rw [Skips, responseAction, if_pos hkey] at hskips
  cases hskips

/-- The loop over the members of the answer. -/
theorem aiExtractResponse_eq {body : List Byte} {parts : List Part}
    (hparts : ObjectParts body.length (Json.skip body) parts) :
    ∃ rest, expect lbrace (Json.skip body) = some rest ∧ aiExtractResponse size body =
      (aiMembers (2 * body.length + 1) (responseAction size (2 * body.length + 1))
        (2 * body.length + 1) (aiSkipSpace rest)).map Prod.fst := by
  obtain ⟨rest, hopen⟩ := objectParts_open hparts
  refine ⟨rest, hopen, ?_⟩
  rw [aiExtractResponse, aiSkipSpace_eq body, hopen]

/-- Without an array of choices, nothing but an answer is extracted. -/
theorem aiExtractResponse_found {body : List Byte} {parts : List Part}
    (hparts : ObjectParts body.length (Json.skip body) parts) (hsize : 0 < size)
    (hnone : ∀ p ∈ parts, cString p.key = bytes "choices" → ¬ p.val.IsArray) {s : List Byte}
    (h : aiExtractResponse size body = some (some s)) :
    s.length < size ∧ Reached body.length parts s := by
  obtain ⟨rest, hopen, heq⟩ := @aiExtractResponse_eq size body parts hparts
  rw [heq, aiSkipSpace_eq] at h
  obtain ⟨⟨result, behind⟩, hrun, hresult⟩ := Option.map_eq_some_iff.mp h
  obtain rfl : result = some s := hresult
  obtain ⟨rest', htext, hlength, hcases⟩ := hparts
  have hrest := Json.expect_some hopen
  obtain rfl : rest = rest' := (List.cons.inj (hrest.symm.trans htext)).2
  rcases hcases with ⟨rfl, behind', hend⟩ | hmembers
  · have hclosed : (expect rbrace (Json.skip rest)).isSome = true := by
      rw [hend]
      rfl
    rw [aiMembers, if_pos (Or.inr hclosed)] at hrun
    cases hrun
  · have hall : ∀ p ∈ parts, Skips (responseAction size (2 * body.length + 1)) p ∨
        ∃ r c, responseAction size (2 * body.length + 1) p.key p.text = some (.done r c) := by
      intro p hp
      by_cases hkey : cString p.key = bytes "response"
      · exact Or.inr ⟨_, _, if_pos hkey⟩
      · obtain ⟨_, rest, hmember⟩ := parts_member hp hmembers
        exact Or.inl (responseAction_skips hmember hkey (hnone p hp))
    have hle : body.length ≤ 2 * body.length + 1 := by omega
    obtain ⟨result, behind', hrun', hfound⟩ := aiMembers_found hle hmembers hall
      (Nat.lt_of_lt_of_le hlength hle)
    rw [hrun] at hrun'
    cases hrun'
    exact reached_of_stops ⟨rest, htext, hlength, Or.inr hmembers⟩ hsize hnone (hfound s rfl)

end Response

/-- **The answer of the server.**  It is extracted from every object in which it is reached: each
name up to it takes fewer than 32 bytes and has its colon right behind it, and no array of choices
without a content stands in front of it.  Where no array of choices stands in the object, it is
extracted from no other. -/
theorem extract_response_reached {size : Nat} (hsize : 0 < size) {body : List Byte}
    {ms : List (List Byte × Json.Value)} (hbody : Json.decode body = some (.obj ms)) :
    ∃ parts, ObjectParts body.length (Json.skip body) parts ∧
      parts.map (fun p => (p.key, p.val)) = ms ∧
      ((∃ s, Answers ms s ∧ s.length < size ∧ Reached body.length parts s) →
        Extracts size body ms) ∧
      ((∀ p ∈ parts, cString p.key = bytes "choices" → ¬ p.val.IsArray) →
        (Extracts size body ms ↔
          ∃ s, Answers ms s ∧ s.length < size ∧ Reached body.length parts s)) := by
  obtain ⟨rest, hvalue⟩ : ∃ rest, Json.value body.length body = some (.obj ms, rest) := by
    rw [Json.decode] at hbody
    split at hbody
    next v rest hvalue =>
      split at hbody
      · cases hbody
        exact ⟨rest, hvalue⟩
      · cases hbody
    next => cases hbody
  obtain ⟨parts, hparts, hmap⟩ := Json.value_obj_parts (Nat.le_refl _) hvalue
  have hreached : (∃ s, Answers ms s ∧ s.length < size ∧ Reached body.length parts s) →
      Extracts size body ms := by
    rintro ⟨s, hanswers, hfits, hs⟩
    have hle : body.length ≤ 2 * body.length + 1 := by omega
    obtain ⟨rest, hopen, heq⟩ := @aiExtractResponse_eq size body parts hparts
    obtain ⟨behind, hrun⟩ := objectParts_stops hle hparts hopen (hs.stops hle hparts hfits)
    refine ⟨s, hanswers, ?_⟩
    rw [heq, hrun]
    rfl
  refine ⟨parts, hparts, hmap, hreached, fun hnone => ⟨?_, hreached⟩⟩
  rintro ⟨s, hanswers, hextract⟩
  exact ⟨s, hanswers, aiExtractResponse_found hparts hsize hnone hextract⟩

/-- An answer with another member in front of it. -/
def helloBody : List Byte := bytes "\x7b \"done\": true,\n \"response\": \"hello\" \x7d"

theorem extract_response_hello :
    ∃ parts, ObjectParts helloBody.length (Json.skip helloBody) parts ∧
      ∃ s, s.length < 100 ∧ Reached helloBody.length parts s := by
  obtain ⟨parts, hparts, hmap, -, hiff⟩ := @extract_response_reached 100 (by decide) helloBody
    [(bytes "done", .bool true), (bytes "response", .str (bytes "hello"))] rfl
  have hnone : ∀ p ∈ parts, cString p.key = bytes "choices" → ¬ p.val.IsArray := by
    intro p hp
    have hmem := List.mem_map_of_mem (f := fun p : Part => (p.key, p.val)) hp
    rw [hmap] at hmem
    rcases List.mem_pair.mp hmem with heq | heq
    · rw [(Prod.mk.inj heq).1]
      exact fun hkey => absurd hkey (by decide)
    · rw [(Prod.mk.inj heq).1]
      exact fun hkey => absurd hkey (by decide)
  have hextracts : Extracts 100 helloBody
      [(bytes "done", .bool true), (bytes "response", .str (bytes "hello"))] :=
    ⟨bytes "hello", Or.inl (by simp), by decide⟩
  obtain ⟨s, -, hfits, hreached⟩ := (hiff hnone).mp hextracts
  exact ⟨parts, hparts, s, hfits, hreached⟩

/-- White space stands in front of the colon. -/
theorem extract_response_space :
    ¬ ∀ size body ms, Json.decode body = some (.obj ms) → (∃ s, Answers ms s) →
      (∀ s, Answers ms s → s.length < size) → Extracts size body ms := by
  intro hall
  have hanswers : ∀ s, Answers [(bytes "response", .str (bytes "hi"))] s → s = bytes "hi" := by
    rintro s (hs | ⟨choice, choices, message, hs, -⟩)
    · have heq := List.mem_singleton.mp hs
      cases heq
      rfl
    · have heq := List.mem_singleton.mp hs
      cases heq
  obtain ⟨s, -, hextract⟩ := hall 100 (bytes "\x7b\"response\" : \"hi\"\x7d")
    [(bytes "response", .str (bytes "hi"))] rfl ⟨_, Or.inl List.mem_cons_self⟩ fun s hs => by
      rw [hanswers s hs]
      decide
  have hnone : aiExtractResponse 100 (bytes "\x7b\"response\" : \"hi\"\x7d") = some none := by
    decide
  rw [hnone] at hextract
  cases hextract

end Ai
