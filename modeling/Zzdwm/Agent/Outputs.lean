import Zzdwm.Agent.Encoding
import Zzdwm.Agent.Tools
import Zzdwm.Lib.Utf8

/-!
# What is told of an output

The output of a command is answered with one tool message.  If the message is too
long, a shorter tail of the output is tried, and the tail begins at a byte, wherever
that byte stands in its character.

* `valid_escape_iff`, `valid_toolText_iff` — a message is valid UTF-8 exactly if its
  strings are;
* `appendBoundedOutput_round` — what one round does;
* `bounded_output_iff` — **the answer to an output**.
-/

namespace Agent

open Ascii Json

variable {call : ToolCall} {lead output content : List Byte} {c c' : Conversation}

/-! ## Valid messages -/

theorem control_ascii : ∀ d : Fin 32, (UInt8.ofNat d < 0x80) ∧
    hexDigit (UInt8.ofNat d / 16) < 0x80 ∧ hexDigit (UInt8.ofNat d % 16) < 0x80 := by
  decide

theorem backslash_ascii {b : Byte} (hb : b < 0x80) : ∀ e ∈ [backslash, b], e < 0x80 := by
  rw [List.forall_mem_cons]
  exact ⟨by decide, List.forall_mem_singleton.mpr hb⟩

/-- A byte stands for itself, or it is an ASCII byte and so are those that stand for it. -/
theorem escaped_cases (b : Byte) :
    escaped b = [b] ∨ b < 0x80 ∧ escaped b ≠ [] ∧ ∀ e ∈ escaped b, e < 0x80 := by
  unfold escaped
  split
  next h =>
    have hb : b < 0x80 := by rcases h with rfl | rfl <;> decide
    exact Or.inr ⟨hb, List.cons_ne_nil _ _, backslash_ascii hb⟩
  next =>
    iterate 5
      split
      · next h => exact Or.inr ⟨h ▸ by decide, List.cons_ne_nil _ _, backslash_ascii (by decide)⟩
    split
    next h =>
      -- a control character is written with the digits of its code
      have hd := control_ascii ⟨b.toNat, UInt8.lt_iff_toNat_lt.mp h⟩
      rw [UInt8.ofNat_toNat] at hd
      refine Or.inr ⟨hd.1, List.cons_ne_nil _ _, fun e he => ?_⟩
      simp only [List.mem_cons, List.not_mem_nil, or_false] at he
      rcases he with rfl | rfl | rfl | rfl | rfl | rfl
      · decide
      · decide
      · decide
      · decide
      · exact hd.2.1
      · exact hd.2.2
    next => exact Or.inl rfl

theorem escape_append (s t : List Byte) : escape (s ++ t) = escape s ++ escape t :=
  List.flatMap_append

theorem escape_self {s : List Byte} (h : ∀ b ∈ s, escaped b = [b]) : escape s = s := by
  rw [escape, List.flatMap_congr h, List.flatMap_singleton']

/-- The bytes in front are some that the escaper left as they are. -/
theorem valid_escape_behind (front s : List Byte) :
    Utf8.Valid (front ++ escape s) ↔ Utf8.Valid (front ++ s) := by
  induction s generalizing front with
  | nil => exact Iff.rfl
  | cons b s ih =>
      have hcons : escape (b :: s) = escaped b ++ escape s := List.flatMap_cons
      rw [hcons]
      rcases escaped_cases b with hself | ⟨hb, hne, hascii⟩
      · have hnext := ih (front ++ [b])
        rw [List.append_assoc, List.append_assoc] at hnext
        rw [hself]
        exact hnext
      · rw [Utf8.valid_between_iff hascii hne, Utf8.valid_ascii_iff hb]
        exact and_congr_right' (ih [])

/-- Escaping keeps a text valid, and an invalid one invalid. -/
theorem valid_escape_iff (s : List Byte) : Utf8.Valid (escape s) ↔ Utf8.Valid s :=
  valid_escape_behind [] s

/-- The text of a tool message, string by string. -/
theorem toolText_eq (call : ToolCall) (content : List Byte) :
    textOf (toolFields call content) =
      bytes "\x7b\"role\":\"tool\",\"tool_call_id\":\"" ++ (escape call.id.bytes ++
        (bytes "\",\"name\":\"" ++ (escape call.name.bytes ++
          (bytes "\",\"content\":\"" ++ (escape content ++ bytes "\"\x7d"))))) := by
  simp [textOf, toolFields, strField, objText, joined, memberText, quoted, bytes_eq,
    String.utf8EncodeChar, roleKey, callIdKey, nameKey, contentKey, escape, escaped, quote,
    backslash, colon, comma, lbrace, rbrace]

theorem valid_toolText_iff (call : ToolCall) (content : List Byte) :
    Utf8.Valid (textOf (toolFields call content)) ↔
      Utf8.Valid call.id.bytes ∧ Utf8.Valid call.name.bytes ∧ Utf8.Valid content := by
  have hhead : ∀ b ∈ bytes "\x7b\"role\":\"tool\",\"tool_call_id\":\"", b < 0x80 := forall_bytes rfl
  have hname : ∀ b ∈ bytes "\",\"name\":\"", b < 0x80 := forall_bytes rfl
  have hcontent : ∀ b ∈ bytes "\",\"content\":\"", b < 0x80 := forall_bytes rfl
  have hlast : ∀ b ∈ bytes "\"\x7d", b < 0x80 := forall_bytes rfl
  have hend : Utf8.Valid (escape content ++ bytes "\"\x7d") ↔ Utf8.Valid content := by
    have hbetween := Utf8.valid_between_iff (s := escape content) (t := []) hlast
      (bytes_ne_nil (List.cons_ne_nil _ _))
    rw [List.append_nil] at hbetween
    rw [hbetween, valid_escape_iff]
    exact and_iff_left Utf8.valid_nil
  rw [toolText_eq, (Utf8.valid_of_ascii hhead).append_iff,
    Utf8.valid_between_iff hname (bytes_ne_nil (List.cons_ne_nil _ _)),
    Utf8.valid_between_iff hcontent (bytes_ne_nil (List.cons_ne_nil _ _)), valid_escape_iff, valid_escape_iff, hend]

/-! ## One round -/

def tailMark : List Byte := bytes "[output tail]\n"

/-- What the model is told of a tail. -/
def replyContent (lead output : List Byte) (tail : Nat) : List Byte :=
  if output.length - tail ≠ 0 then
    lead ++ [newline] ++ tailMark ++ output.drop (output.length - tail)
  else lead ++ [newline] ++ output

/-- A message with this content finds room. -/
def FitsMessage (call : ToolCall) (content : List Byte) : Prop :=
  (textOf (toolFields call content)).length ≤ messageSize

instance (call : ToolCall) (content : List Byte) : Decidable (FitsMessage call content) := by
  unfold FitsMessage
  infer_instance

/-- The text is added as a message that is not a system message. -/
def tell (c : Conversation) (text : List Byte) : Option Conversation :=
  bufferAppend text Buffer.empty >>= fun buffer => addMessage c buffer false

theorem tell_adds {text : List Byte} (h : tell c text = some c') : Adds c c' text false :=
  (writes_append text).adds h

theorem tell_fits {text : List Byte} (h : tell c text = some c') : text.length ≤ messageSize := by
  obtain ⟨m, -, hjson, -⟩ := tell_adds h
  exact hjson ▸ m.fits

/-- A text that is not too long is added, if the history has room for one message more. -/
theorem tell_isSome_iff {text : List Byte} (hfits : text.length ≤ messageSize) :
    (tell c text).isSome ↔ (room c.messages).length < maxMessages := by
  have hempty : (Buffer.empty : Buffer messageSize).data.length = 0 := rfl
  have hbuffer : bufferAppend text (Buffer.empty : Buffer messageSize) = some ⟨text, hfits⟩ :=
    dif_pos (by rw [hempty]; exact hfits)
  rw [tell, hbuffer, Option.bind_eq_bind, Option.bind_some, addMessage, room]
  dsimp only
  split
  next hlt => simp [hlt]
  next hfull =>
    split
    next hlt =>
      simp only [Option.isSome_some, true_iff]
      exact hlt
    next hno =>
      simp only [Option.isSome_none, Bool.false_eq_true, false_iff]
      exact hno

/-- If one text finds no room and another does, then the first one is too long. -/
theorem tell_none {text text' : List Byte} (hnone : tell c text = none)
    (h : tell c text' = some c') : ¬ text.length ≤ messageSize := by
  intro hfits
  have hroom := (tell_isSome_iff (tell_fits h)).mp (by rw [h]; rfl)
  have hsome := (tell_isSome_iff hfits).mpr hroom
  rw [hnone] at hsome
  cases hsome

theorem appendToolResult_eq (call : ToolCall) (content : List Byte) (c : Conversation) :
    appendToolResult call content c = tell c (textOf (toolFields call (cString content))) := by
  rw [appendToolResult, tell, writes_toolMessage call (writes_text content)]

/-- The array for the content is long enough. -/
theorem appendToolOutput_eq (hlead : lead.length < maxLine)
    (houtput : output.length ≤ modelOutputSize) :
    appendToolOutput call lead output c = tell c (textOf (toolFields call (lead ++ output))) := by
  have hsize : ¬ (modelOutputSize + maxLine ≤ lead.length ∨
      modelOutputSize + maxLine - lead.length - 1 < output.length) := by omega
  rw [appendToolOutput, if_neg hsize, tell, writes_toolMessage call (writes_string _)]

def notRepresented : List Byte :=
  bytes "Command output could not be represented within the bounded context."

/-- The lead, with what follows it, is too long for its array. -/
def LeadTooLong (lead output : List Byte) (tail : Nat) : Prop :=
  maxLine ≤ lead.length + 1 ∨
    output.length - tail ≠ 0 ∧ maxLine ≤ lead.length + 1 + tailMark.length

instance (lead output : List Byte) (tail : Nat) : Decidable (LeadTooLong lead output tail) := by
  unfold LeadTooLong
  infer_instance

/-- **One round.** -/
theorem appendBoundedOutput_round {fuel tail : Nat} (htail : tail ≤ modelOutputSize) :
    appendBoundedOutput call lead output c (fuel + 1) tail =
      if LeadTooLong lead output tail then none
      else
        match tell c (textOf (toolFields call (replyContent lead output tail))) with
        | some c' => some c'
        | none =>
            if tail ≤ 256 then tell c (textOf (toolFields call notRepresented))
            else appendBoundedOutput call lead output c fuel (tail / 2) := by
  have hlen : (lead ++ [newline]).length = lead.length + 1 := by simp
  have hdrop : (output.drop (output.length - tail)).length ≤ modelOutputSize := by
    rw [List.length_drop]
    omega
  have hresult : appendToolResult call notRepresented c =
      tell c (textOf (toolFields call notRepresented)) := by
    have hc : cString notRepresented = notRepresented := by decide
    rw [appendToolResult_eq, hc]
  have hwords : bytes "[output tail]\n" = tailMark := rfl
  conv_lhs => unfold appendBoundedOutput
  dsimp only
  rw [hlen, ← hresult, hwords]
  by_cases hlong : maxLine ≤ lead.length + 1
  · have htoo : LeadTooLong lead output tail := Or.inl hlong
    rw [if_pos hlong, if_pos htoo]
  rw [if_neg hlong]
  by_cases hmark : output.length - tail ≠ 0 ∧ maxLine ≤ lead.length + 1 + tailMark.length
  · have htoo : LeadTooLong lead output tail := Or.inr hmark
    rw [if_pos hmark, if_pos htoo]
  have hnot : ¬ LeadTooLong lead output tail := by
    rintro (h | h)
    · exact hlong h
    · exact hmark h
  have hout : appendToolOutput call
      (if output.length - tail ≠ 0 then lead ++ [newline] ++ tailMark else lead ++ [newline])
      (output.drop (output.length - tail)) c =
      tell c (textOf (toolFields call (replyContent lead output tail))) := by
    unfold replyContent
    split
    next hcut =>
      rw [appendToolOutput_eq _ hdrop]
      rw [List.length_append, hlen]
      exact Nat.lt_of_not_le fun h => hmark ⟨hcut, h⟩
    next hwhole =>
      rw [appendToolOutput_eq _ hdrop, Decidable.not_not.mp hwhole, List.drop_zero]
      rw [hlen]
      exact Nat.lt_of_not_le hlong
  rw [if_neg hmark, if_neg hnot, hout]
  rfl

/-! ## All rounds -/

/-- The tails that are tried, one after the other. -/
def tailsFrom : Nat → Nat → List Nat
  | 0, _ => []
  | fuel + 1, tail => tail :: if tail ≤ 256 then [] else tailsFrom fuel (tail / 2)

/-- The first tail whose message is not too long. -/
def firstTail (call : ToolCall) (lead output : List Byte) (fuel tail : Nat) : Option Nat :=
  (tailsFrom fuel tail).find? fun t => FitsMessage call (replyContent lead output t)

/-- What is told at the end. -/
def told (call : ToolCall) (lead output : List Byte) (fuel tail : Nat) : List Byte :=
  ((firstTail call lead output fuel tail).map (replyContent lead output)).getD notRepresented

theorem firstTail_of_fits {fuel tail : Nat}
    (h : FitsMessage call (replyContent lead output tail)) :
    firstTail call lead output (fuel + 1) tail = some tail := by
  rw [firstTail, tailsFrom, List.find?_cons_of_pos (by simpa using h)]

theorem told_of_fits {fuel tail : Nat} (h : FitsMessage call (replyContent lead output tail)) :
    told call lead output (fuel + 1) tail = replyContent lead output tail := by
  rw [told, firstTail_of_fits h, Option.map_some, Option.getD_some]

/-- The first tail that fits is told. -/
theorem appendBoundedOutput_tells {fuel tail : Nat} (htail : tail ≤ modelOutputSize)
    (h : appendBoundedOutput call lead output c fuel tail = some c') :
    tell c (textOf (toolFields call (told call lead output fuel tail))) = some c' := by
  induction fuel generalizing tail with
  | zero => cases h
  | succ fuel ih =>
      rw [appendBoundedOutput_round htail] at h
      split at h
      · cases h
      by_cases hfits : FitsMessage call (replyContent lead output tail)
      · rw [told_of_fits hfits]
        cases hout : tell c (textOf (toolFields call (replyContent lead output tail))) with
        | some c'' =>
            rw [hout] at h
            exact h
        | none =>
            rw [hout] at h
            dsimp only at h
            split at h
            · exact absurd hfits (tell_none hout h)
            · exact absurd hfits (tell_none hout (ih (by omega) h))
      · have hout : tell c (textOf (toolFields call (replyContent lead output tail))) = none :=
          Option.eq_none_iff_forall_not_mem.mpr fun c'' hc => hfits (tell_fits hc)
        rw [hout] at h
        dsimp only at h
        rw [told, firstTail, tailsFrom, List.find?_cons_of_neg (by simpa using hfits)]
        split at h
        next hsmall =>
          rw [if_pos hsmall]
          exact h
        next hlarge =>
          rw [if_neg hlarge]
          exact ih (by omega) h

/-- If the longest tail fits, then it is told. -/
theorem appendBoundedOutput_first (fuel : Nat) {tail : Nat} (htail : tail ≤ modelOutputSize)
    (hlead : ¬ LeadTooLong lead output tail)
    (hfits : FitsMessage call (replyContent lead output tail))
    (hroom : (room c.messages).length < maxMessages) :
    ∃ c', appendBoundedOutput call lead output c (fuel + 1) tail = some c' := by
  obtain ⟨c', hc⟩ := Option.isSome_iff_exists.mp ((tell_isSome_iff hfits).mpr hroom)
  rw [appendBoundedOutput_round htail, if_neg hlead, hc]
  exact ⟨c', rfl⟩

/-- What comes of the tails in a list, one after the other. -/
def rounds (call : ToolCall) (lead output : List Byte) (c : Conversation) :
    List Nat → Option Conversation
  | [] => tell c (textOf (toolFields call notRepresented))
  | tail :: tails =>
      if LeadTooLong lead output tail then none
      else
        match tell c (textOf (toolFields call (replyContent lead output tail))) with
        | some c' => some c'
        | none => rounds call lead output c tails

/-- The tail is halved until it is small, and no round follows then. -/
theorem appendBoundedOutput_ends (n fuel : Nat) {tail : Nat} (htail : tail ≤ modelOutputSize)
    (hn : tail ≤ 256 * 2 ^ n) :
    appendBoundedOutput call lead output c (fuel + n + 1) tail =
      rounds call lead output c (tailsFrom (n + 1) tail) := by
  induction n generalizing tail with
  | zero =>
      have hsmall : tail ≤ 256 := by simpa using hn
      rw [appendBoundedOutput_round htail, tailsFrom, if_pos hsmall]
      simp only [rounds, if_pos hsmall]
  | succ n ih =>
      rw [appendBoundedOutput_round htail, tailsFrom, rounds]
      by_cases hsmall : tail ≤ 256
      · simp only [if_pos hsmall, rounds]
      · have hhalf : tail / 2 ≤ 256 * 2 ^ n := by
          rw [Nat.pow_succ] at hn
          omega
        have hrest := @ih (tail / 2) (by omega) hhalf
        simp only [if_neg hsmall]
        rw [← Nat.add_assoc, hrest]

/-! ## The answer -/

/-- One tool message for the call: the lead and the whole output, or a marked tail of it, in
valid UTF-8 if the output is. -/
def Answered (call : ToolCall) (lead output : List Byte) (c c' : Conversation) : Prop :=
  ∃ m content, c'.messages = room c.messages ++ [m] ∧ m.system = false ∧
    m.json = textOf (toolFields call content) ∧ m.json.length ≤ messageSize ∧
    (content = lead ++ [newline] ++ output ∨
      ∃ k, 0 < k ∧ k ≤ output.length ∧ content = lead ++ [newline] ++ tailMark ++ output.drop k) ∧
    (Utf8.Valid output → Utf8.Valid m.json)

/-- Some tail fits, and the first one that does begins a character, if the strings of the
call and the lead are valid too. -/
def TellsWell (call : ToolCall) (lead output : List Byte) : Prop :=
  ∃ t, firstTail call lead output modelOutputSize modelOutputSize = some t ∧
    (Utf8.Valid output → Utf8.Valid call.id.bytes ∧ Utf8.Valid call.name.bytes ∧ Utf8.Valid lead ∧
      ∀ b ∈ (output.drop (output.length - t)).head?, Utf8.continues b = false)

theorem toolText_injective {content content' : List Byte}
    (h : textOf (toolFields call content) = textOf (toolFields call content')) :
    content = content' := by
  have hdecode := decode_textOf (toolFields call content)
  rw [h, decode_textOf] at hdecode
  have hvalue : (valueOf (toolFields call content')).get contentKey =
      (valueOf (toolFields call content)).get contentKey :=
    congrArg _ (Option.some.inj hdecode)
  have hget : ∀ s, (valueOf (toolFields call s)).get contentKey = some (.str s) := fun _ => rfl
  rw [hget, hget] at hvalue
  cases hvalue
  rfl

theorem valid_replyContent_iff (houtput : Utf8.Valid output) (tail : Nat) :
    Utf8.Valid (replyContent lead output tail) ↔
      Utf8.Valid lead ∧
        ∀ b ∈ (output.drop (output.length - tail)).head?, Utf8.continues b = false := by
  rw [← Utf8.valid_drop_head_iff houtput]
  unfold replyContent
  split
  next hcut =>
    have hwords : ∀ b ∈ tailMark, b < 0x80 := forall_bytes rfl
    have hmark : ∀ b ∈ [newline] ++ tailMark, b < 0x80 := by
      rintro b (_ | ⟨_, hb⟩)
      · decide
      · exact hwords b hb
    rw [List.append_assoc lead, List.append_assoc lead]
    exact Utf8.valid_between_iff hmark (List.cons_ne_nil _ _)
  next hwhole =>
    rw [Decidable.not_not.mp hwhole, List.drop_zero, List.append_assoc]
    exact Utf8.valid_ascii_iff (by decide)

theorem replyContent_cases (lead output : List Byte) (tail : Nat) :
    replyContent lead output tail = lead ++ [newline] ++ output ∨
      ∃ k, 0 < k ∧ k ≤ output.length ∧
        replyContent lead output tail = lead ++ [newline] ++ tailMark ++ output.drop k := by
  unfold replyContent
  split
  next hcut => exact Or.inr ⟨_, Nat.pos_of_ne_zero hcut, Nat.sub_le _ _, rfl⟩
  next => exact Or.inl rfl

/-- **The answer to an output.**  No more than five tails are tried.  If there is an answer, then one
tool message of the size of a message is added, with the lead and the output or a marked
tail of it, and it is valid UTF-8 if the output is: if and only if one of the tails fits
and the first one that fits does not begin inside a character. -/
theorem bounded_output_iff (call : ToolCall) (lead output : List Byte) (c : Conversation) :
    (∀ fuel, appendBoundedOutput call lead output c (fuel + 5) modelOutputSize =
      rounds call lead output c [3072, 1536, 768, 384, 192]) ∧
    ∀ c', appendBoundedOutput call lead output c modelOutputSize modelOutputSize = some c' →
      (Answered call lead output c c' ↔ TellsWell call lead output) := by
  refine ⟨fun fuel => appendBoundedOutput_ends 4 fuel (Nat.le_refl _) (by decide), fun c' h => ?_⟩
  have htold := appendBoundedOutput_tells (Nat.le_refl _) h
  obtain ⟨m, hmessages, hjson, hsystem⟩ := tell_adds htold
  constructor
  · rintro ⟨m', content, hmessages', -, hjson', -, hcontent, hvalid⟩
    obtain rfl : m = m' := by
      rw [hmessages] at hmessages'
      exact List.singleton_inj.mp (List.append_cancel_left hmessages')
    have htext : told call lead output modelOutputSize modelOutputSize = content :=
      toolText_injective (hjson.symm.trans hjson')
    cases hfirst : firstTail call lead output modelOutputSize modelOutputSize with
    | none =>
        rw [told, hfirst, Option.map_none, Option.getD_none] at htext
        have hline : newline ∈ content := by
          rcases hcontent with rfl | ⟨k, -, -, rfl⟩ <;> simp
        rw [← htext] at hline
        exact absurd hline (by decide)
    | some t =>
        rw [told, hfirst, Option.map_some, Option.getD_some] at hjson
        refine ⟨t, hfirst, fun hv => ?_⟩
        have hm := hvalid hv
        rw [hjson, valid_toolText_iff, valid_replyContent_iff hv] at hm
        exact hm
  · rintro ⟨t, hfirst, hwell⟩
    rw [told, hfirst, Option.map_some, Option.getD_some] at hjson
    refine ⟨m, _, hmessages, hsystem, hjson, m.fits, replyContent_cases lead output t, fun hv => ?_⟩
    rw [hjson, valid_toolText_iff, valid_replyContent_iff hv]
    exact hwell hv

/-- The line in front of the output of a command. -/
def completed : List Byte := bytes "[command completed] exit status 0. Output:"

theorem bounded_output_hello :
    ∃ c', appendBoundedOutput listCall completed (bytes "hello\n") noMessages modelOutputSize
      modelOutputSize = some c' ∧ Answered listCall completed (bytes "hello\n") noMessages c' := by
  have hfits : FitsMessage listCall (replyContent completed (bytes "hello\n") modelOutputSize) := by
    decide +kernel
  have hlead : ¬ LeadTooLong completed (bytes "hello\n") modelOutputSize := by
    decide
  obtain ⟨c', hc⟩ : ∃ c', appendBoundedOutput listCall completed (bytes "hello\n") noMessages
      modelOutputSize modelOutputSize = some c' :=
    appendBoundedOutput_first 3071 (Nat.le_refl _) hlead hfits (by decide)
  have hiff := (bounded_output_iff listCall completed (bytes "hello\n") noMessages).2 c' hc
  have hascii : ∀ b ∈ bytes "hello\n", b < 0x80 := forall_bytes rfl
  refine ⟨c', hc, hiff.mpr ⟨modelOutputSize, firstTail_of_fits hfits, fun _ => ?_⟩⟩
  refine ⟨Utf8.valid_of_ascii (forall_bytes rfl), Utf8.valid_of_ascii (forall_bytes rfl),
    Utf8.valid_of_ascii (forall_bytes rfl), fun b hb => ?_⟩
  exact Utf8.continues_ascii (hascii b (List.mem_of_mem_head? hb))

/-- A character of two bytes, and as many letters as make the cut fall inside it. -/
def longOutput : List Byte := bytes "\u00e9" ++ List.replicate 3071 0x61

theorem replyContent_longOutput : replyContent completed longOutput modelOutputSize =
    completed ++ [newline] ++ tailMark ++ ([0xA9] ++ List.replicate 3071 0x61) := by
  have hlength : longOutput.length = 2 + 3071 := by
    rw [longOutput, List.length_append, List.length_replicate]
    rfl
  rw [replyContent, hlength]
  rfl

theorem bounded_output_cut :
    ∃ c', appendBoundedOutput listCall completed longOutput noMessages modelOutputSize
      modelOutputSize = some c' ∧ ¬ Answered listCall completed longOutput noMessages c' := by
  have hletters : ∀ b ∈ List.replicate 3071 (0x61 : Byte), b = 0x61 :=
    fun _ hb => List.eq_of_mem_replicate hb
  have hvalid : Utf8.Valid longOutput := by
    have hchar := Utf8.valid_chars "\u00e9".toList
    rw [← bytes_eq] at hchar
    refine hchar.append (Utf8.valid_of_ascii fun b hb => ?_)
    rw [hletters b hb]
    decide
  have hfits : FitsMessage listCall (replyContent completed longOutput modelOutputSize) := by
    have hplain : escape (List.replicate 3071 0x61) = List.replicate 3071 0x61 := by
      refine escape_self fun b hb => ?_
      rw [hletters b hb]
      decide
    rw [FitsMessage, toolText_eq, replyContent_longOutput]
    simp only [escape_append, hplain, List.length_append, List.length_replicate]
    decide
  have hlead : ¬ LeadTooLong completed longOutput modelOutputSize := by
    rintro (h | ⟨-, h⟩) <;> exact absurd h (by decide)
  obtain ⟨c', hc⟩ : ∃ c', appendBoundedOutput listCall completed longOutput noMessages
      modelOutputSize modelOutputSize = some c' :=
    appendBoundedOutput_first 3071 (Nat.le_refl _) hlead hfits (by decide)
  obtain ⟨m, hmessages, hjson, -⟩ := tell_adds (appendBoundedOutput_tells (Nat.le_refl _) hc)
  have htold : told listCall completed longOutput modelOutputSize modelOutputSize =
      replyContent completed longOutput modelOutputSize := told_of_fits hfits
  rw [htold] at hjson
  refine ⟨c', hc, ?_⟩
  rintro ⟨m', content, hmessages', -, -, -, -, hwell⟩
  rw [hmessages] at hmessages'
  have hm : m = m' := List.singleton_inj.mp (List.append_cancel_left hmessages')
  have hjsonValid := hwell hvalid
  rw [← hm, hjson, valid_toolText_iff, replyContent_longOutput] at hjsonValid
  have hfront : Utf8.Valid (completed ++ [newline] ++ tailMark) :=
    ((Utf8.valid_of_ascii (forall_bytes rfl)).append (Utf8.valid_ascii (by decide))).append
      (Utf8.valid_of_ascii (forall_bytes rfl))
  have htail := hfront.append_iff.mp hjsonValid.2.2
  exact absurd htail.head (by decide)

end Agent
