import Mathlib
import Zzdwm.Lib.Utf8
import Zzdwm.Emacs.Utf8

/-!
# Replies in the echo line (`echo.c`)

`eread` reads a reply key by key.  Its buffer holds bytes, and the cursor is a number of bytes.

* `readkey`, `eread` — the keys, and the reply;
* `CharLine` — the line character by character, and what the keys do to it;
* `MeetsKey`, `MeetsAll` — the steps that treat the line as characters do: a character or a
  completion finds room behind the whole line, and the cursor passes over, and removes,
  characters of one byte;
* `eread_line` — **such steps keep the line**: the buffer never overflows, and the reply is that of
  the line of characters.

The reply is typed: it comes neither from the queue nor from a macro.  What is shown on the screen
is left out, and so is the recording of a macro, which does not change the reply.
-/

open Utf8 (Valid encodeChars decodeChars)

namespace Emacs

def HUGE : Nat := 1000
def NFILEN : Nat := 256

/-- The flags of `eread` that it looks at here. -/
structure ReadFlags where
  efauto : Bool
  effile : Bool
  efbuf : Bool

/-- What `nextname` finds for a text, one name after the other: `symsearch`, `ffsearch` and
`bufsearch` compare as many bytes as the text has. -/
structure NameSource where
  next : List Byte → List (List Byte)
  begins : ∀ p, 0 ∉ p → ∀ name ∈ next p, p <+: name
  short : ∀ p, ∀ name ∈ next p, name.length < NFILEN
  plain : ∀ p, ∀ name ∈ next p, (0 : Byte) ∉ name

/-- The bytes in `buf` up to `buflen`, and `cpos`. -/
structure EchoLine where
  buf : List Byte
  cpos : Nat

/-- How a key leaves `eread`. -/
inductive Answer (A : Type) where
  | more
  | done (reply : A)
  | abort
deriving DecidableEq

def Answer.map {A B : Type} (f : A → B) : Answer A → Answer B
  | .more => .more
  | .done reply => .done (f reply)
  | .abort => .abort

namespace EchoLine

def buflen (s : EchoLine) : Nat := s.buf.length

/-- Bytes are put at the cursor, which moves behind them. -/
def insert (ubuf : List Byte) (s : EchoLine) : EchoLine where
  buf := s.buf.take s.cpos ++ (ubuf ++ s.buf.drop s.cpos)
  cpos := s.cpos + ubuf.length

end EchoLine

section Source

variable (flag : ReadFlags) (nbuf : Nat) (names : NameSource) (ffisdir : List Byte → Bool)
  (kill : List Byte)

/-- The loop that pastes the kill buffer, whose bytes it takes one by one. -/
def pasteReply : List Byte → EchoLine → EchoLine
  | [], s => s
  | kc :: rest, s =>
      if kc = 0x0D ∨ kc = 0x0A then s
      else
        let ubuf := uputc kc.toNat
        if nbuf ≤ s.buflen + ubuf.length then s else pasteReply rest (s.insert ubuf)

/-- The zapping of trailing spaces. -/
def zapSpaces (buf : List Byte) : List Byte := buf.rdropWhile (· = 0x20)

def insertchar (c : Nat) (s : EchoLine) : EchoLine :=
  let ubuf := uputc c
  if s.cpos + ubuf.length < nbuf then s.insert ubuf else s

/-- C-D where it does not complete. -/
def deletechar (s : EchoLine) : EchoLine :=
  if s.cpos = s.buflen then s else { s with buf := s.buf.eraseIdx s.cpos }

/-- The `switch` of `eread`. -/
def editkey (c : Nat) (s : EchoLine) : EchoLine × Answer (List Byte) :=
  if c = 0x01 then ({ s with cpos := 0 }, .more)
  else if c = 0x02 then (if 0 < s.cpos then { s with cpos := s.cpos - 1 } else s, .more)
  else if c = 0x05 then ({ s with cpos := s.buflen }, .more)
  else if c = 0x06 then (if s.cpos < s.buflen then { s with cpos := s.cpos + 1 } else s, .more)
  else if c = 0x19 then (pasteReply nbuf kill s, .more)
  else if c = 0x0D then
    let reply := if flag.effile then zapSpaces s.buf else s.buf
    (s, .done (reply.takeWhile (· ≠ 0)))
  else if c = 0x07 then (s, .abort)
  else if c = 0x7F ∨ c = 0x08 then
    (if s.cpos = 0 then s else deletechar { s with cpos := s.cpos - 1 }, .more)
  else if c = 0x04 then (deletechar s, .more)
  else if c = 0x15 then (if s.buflen = 0 then s else ⟨[], 0⟩, .more)
  else if c = 0x0B then
    (if s.cpos = s.buflen then s else { s with buf := s.buf.take s.cpos }, .more)
  else (insertchar nbuf c s, .more)

/-- How many bytes two lists have in common at their beginnings. -/
def commonLength : List Byte → List Byte → Nat
  | a :: s, b :: t => if a = b then commonLength s t + 1 else 0
  | _, _ => 0

def getxtra (sp1 sp2 : List Byte) (cpos : Nat) : Nat := commonLength (sp1.drop cpos) (sp2.drop cpos)

/-- `nxtra` after the loop over the names, of which `np2` is the first. -/
def nxtra (np2 : List Byte) (hits : List (List Byte)) (cpos : Nat) : Nat :=
  hits.foldl (fun nxtra np1 => min nxtra (getxtra np2 np1 cpos)) HUGE

/-- The loop that puts in what the names have in common. -/
def completeLoop (np2 : List Byte) : Nat → EchoLine → EchoLine
  | 0, s => s
  | i + 1, s =>
      if s.cpos + 1 < nbuf then completeLoop np2 i (s.insert [np2.getD s.cpos 0]) else s

/-- The keys that complete, where there is something to complete. -/
def completes (c : Nat) : Bool :=
  (c = 0x20 ∨ c = 0x09 ∨ c = 0x3F ∨ c = 0x04) && (flag.efauto || flag.effile || flag.efbuf)

/-- One round of the loop of `eread`, for any key but C-Q. -/
def readkey (c : Nat) (s : EchoLine) : EchoLine × Answer (List Byte) :=
  if completes flag c then
    match names.next (s.buf.take s.cpos) with
    | [] => (s, .more)
    | np2 :: rest =>
        let s := completeLoop nbuf np2 (nxtra np2 (np2 :: rest) s.cpos) s
        if rest ≠ [] then (s, .more)
        else if flag.effile then
          editkey flag nbuf kill (if ffisdir (s.buf.take s.cpos) then 0x2F else 0x20) s
        else editkey flag nbuf kill 0x0D s
  else editkey flag nbuf kill c s

/-- `eread` on the keys that are typed; C-Q quotes the key behind it. -/
def eread : List Nat → EchoLine → EchoLine × Answer (List Byte)
  | [], s => (s, .more)
  | [c], s => if c = 0x11 then (s, .more) else readkey flag nbuf names ffisdir kill c s
  | c :: d :: keys, s =>
      if c = 0x11 then eread keys (insertchar nbuf d s)
      else
        match readkey flag nbuf names ffisdir kill c s with
        | (s, .more) => eread (d :: keys) s
        | (s, answer) => (s, answer)

end Source

/-! ## The line of characters -/

/-- A line of characters, with a cursor between two of them. -/
structure CharLine where
  before : List Char
  after : List Char

namespace CharLine

def text (l : CharLine) : List Char := l.before ++ l.after

/-- The bytes that the line takes. -/
def size (l : CharLine) : Nat := (encodeChars l.text).length

variable (room : Nat)

/-- A character is put in where there is room for it. -/
def insert (c : Char) (l : CharLine) : CharLine :=
  if l.size + (String.utf8EncodeChar c).length ≤ room then ⟨l.before ++ [c], l.after⟩ else l

/-- As many characters as there is room for. -/
def insertAll : List Char → CharLine → CharLine
  | [], l => l
  | c :: cs, l =>
      if l.size + (String.utf8EncodeChar c).length ≤ room then
        insertAll cs ⟨l.before ++ [c], l.after⟩
      else l

def back (l : CharLine) : CharLine :=
  match l.before.getLast? with
  | none => l
  | some c => ⟨l.before.dropLast, c :: l.after⟩

def forward (l : CharLine) : CharLine :=
  match l.after with
  | [] => l
  | c :: after => ⟨l.before ++ [c], after⟩

end CharLine

/-- The bytes of the kill buffer that can be pasted: those in front of the end of a line. -/
def killLine (kill : List Byte) : List Byte := kill.takeWhile fun b => !(b = 0x0D ∨ b = 0x0A)

/-- What two texts have in common. -/
def common : List Char → List Char → List Char
  | c :: m, d :: n => if c = d then c :: common m n else []
  | _, _ => []

/-- What some texts have in common. -/
def commonAll : List (List Char) → List Char
  | [] => []
  | m :: ms => ms.foldl common m

section Characters

variable (flag : ReadFlags) (nbuf : Nat) (names : NameSource) (ffisdir : List Byte → Bool)
  (kill : List Byte)

/-- What a key does to the line of characters. -/
noncomputable def CharLine.edit (c : Nat) (l : CharLine) : CharLine × Answer (List Char) :=
  if c = 0x01 then (⟨[], l.text⟩, .more)
  else if c = 0x02 then (l.back, .more)
  else if c = 0x05 then (⟨l.text, []⟩, .more)
  else if c = 0x06 then (l.forward, .more)
  else if c = 0x19 then (l.insertAll (nbuf - 1) (decodeChars (killLine kill)), .more)
  else if c = 0x0D then
    (l, .done (if flag.effile then l.text.rdropWhile (· = ' ') else l.text))
  else if c = 0x07 then (l, .abort)
  else if c = 0x7F ∨ c = 0x08 then (⟨l.before.dropLast, l.after⟩, .more)
  else if c = 0x04 then (⟨l.before, l.after.tail⟩, .more)
  else if c = 0x15 then (⟨[], []⟩, .more)
  else if c = 0x0B then (⟨l.before, []⟩, .more)
  else (l.insert (nbuf - 1) (Char.ofNat c), .more)

/-- What the names that begin with the text in front of the cursor have behind it. -/
noncomputable def CharLine.endings (l : CharLine) : List (List Char) :=
  (names.next (encodeChars l.before)).map fun name =>
    decodeChars (name.drop (encodeChars l.before).length)

/-- A key, with completions. -/
noncomputable def CharLine.key (c : Nat) (l : CharLine) : CharLine × Answer (List Char) :=
  if completes flag c then
    match l.endings names with
    | [] => (l, .more)
    | ending :: rest =>
        let l := l.insertAll (nbuf - 1) (commonAll (ending :: rest))
        if rest ≠ [] then (l, .more)
        else if flag.effile then
          l.edit flag nbuf kill (if ffisdir (encodeChars l.before) then 0x2F else 0x20)
        else l.edit flag nbuf kill 0x0D
  else l.edit flag nbuf kill c

noncomputable def CharLine.keys : List Nat → CharLine → CharLine × Answer (List Char)
  | [], l => (l, .more)
  | [c], l => if c = 0x11 then (l, .more) else l.key flag nbuf names ffisdir kill c
  | c :: d :: keys, l =>
      if c = 0x11 then CharLine.keys keys (l.insert (nbuf - 1) (Char.ofNat d))
      else
        match l.key flag nbuf names ffisdir kill c with
        | (l, .more) => CharLine.keys (d :: keys) l
        | (l, answer) => (l, answer)

/-! ## The steps that keep the line -/

/-- Where the source finds room in front of the cursor, there is room behind the whole line. -/
def RoomFor (cpos buflen ulen : Nat) : Prop := cpos + ulen < nbuf → buflen + ulen < nbuf

/-- A character that is put in. -/
structure MeetsInsert (c : Nat) (s : EchoLine) : Prop where
  char : c.isValidChar
  ne_zero : c ≠ 0
  room : RoomFor nbuf s.cpos s.buflen (uputc c).length

/-- Next to the cursor there is a character of one byte, or none. -/
def SingleByte (b : Option Byte) : Prop := ∀ x ∈ b, x < 0x80

/-- The byte in front of the cursor. -/
def EchoLine.last (s : EchoLine) : Option Byte := (s.buf.take s.cpos).getLast?

def MeetsEdit (c : Nat) (s : EchoLine) : Prop :=
  if c = 0x01 ∨ c = 0x05 ∨ c = 0x0D ∨ c = 0x07 ∨ c = 0x15 ∨ c = 0x0B then True
  else if c = 0x02 ∨ c = 0x7F ∨ c = 0x08 then SingleByte s.last
  else if c = 0x06 ∨ c = 0x04 then SingleByte s.buf[s.cpos]?
  else if c = 0x19 then
    Valid (killLine kill) ∧
      ∀ b ∈ (killLine kill).take (nbuf - 1 - s.buflen), b < 0x80 ∧ b ≠ 0
  else MeetsInsert nbuf c s

/-- What a completion puts in. -/
def completion (np2 : List Byte) (rest : List (List Byte)) (cpos : Nat) : List Byte :=
  (np2.drop cpos).take (min (nxtra np2 (np2 :: rest) cpos) (nbuf - 1 - cpos))

/-- A completion puts in whole characters, for which there is room behind the whole line. -/
structure MeetsCompletion (np2 : List Byte) (rest : List (List Byte)) (s : EchoLine) :
    Prop where
  names : ∀ name ∈ np2 :: rest, Valid (name.drop s.cpos)
  whole : Valid (completion nbuf np2 rest s.cpos)
  room : s.buflen + (completion nbuf np2 rest s.cpos).length < nbuf
  next : rest = [] → flag.effile → RoomFor nbuf (s.cpos + (completion nbuf np2 rest s.cpos).length)
    (s.buflen + (completion nbuf np2 rest s.cpos).length) 1

def MeetsKey (c : Nat) (s : EchoLine) : Prop :=
  if completes flag c then
    match names.next (s.buf.take s.cpos) with
    | [] => True
    | np2 :: rest => MeetsCompletion flag nbuf np2 rest s
  else MeetsEdit nbuf kill c s

/-- Every step of the reading meets the condition. -/
def MeetsAll : List Nat → EchoLine → Prop
  | [], _ => True
  | [c], s => c = 0x11 ∨ MeetsKey flag nbuf names kill c s
  | c :: d :: keys, s =>
      if c = 0x11 then MeetsInsert nbuf d s ∧ MeetsAll keys (insertchar nbuf d s)
      else MeetsKey flag nbuf names kill c s ∧
        match readkey flag nbuf names ffisdir kill c s with
        | (s, .more) => MeetsAll (d :: keys) s
        | _ => True

end Characters

/-! ## What the buffer shows -/

theorem ofNat_val {c : Nat} (h : c.isValidChar) : (Char.ofNat c).val.toNat = c := by
  rw [Char.ofNat, dif_pos h]
  rfl

/-- `uputc` stores the bytes of a character in UTF-8. -/
theorem uputc_char {c : Nat} (h : c.isValidChar) :
    uputc c = String.utf8EncodeChar (Char.ofNat c) := by
  have hval := ofNat_val h
  have hlimit : c ≤ 0x1fffff := by
    rcases h with h | ⟨-, h⟩ <;> omega
  have hlead : ∀ {base mask : Nat} (x : Nat), (∀ y ≤ mask, base ||| y = y % (mask + 1) + base) →
      base ||| (x &&& mask) = (x &&& mask) % (mask + 1) + base :=
    fun x hall => hall _ Nat.and_le_right
  have htrail : ∀ x, 0x80 ||| (x &&& 0x3f) = x % 0x40 + 0x80 := by
    intro x
    rw [hlead x (by decide), Nat.and_two_pow_sub_one_eq_mod x 6]
    omega
  unfold uputc String.utf8EncodeChar trail
  dsimp only
  rw [hval]
  by_cases h1 : c < 0x80
  · rw [if_pos h1, if_pos (show c ≤ 0x7f by omega)]
  · rw [if_neg h1, if_neg (show ¬ c ≤ 0x7f by omega)]
    by_cases h2 : c ≤ 0x7ff
    · have hfirst : 0xc0 ||| (c >>> 6 &&& 0x1f) = c / 64 % 0x20 + 0xc0 := by
        rw [hlead _ (by decide), Nat.and_two_pow_sub_one_eq_mod _ 5, Nat.shiftRight_eq_div_pow]
        omega
      rw [if_pos h2, if_pos h2, hfirst, htrail]
    · rw [if_neg h2, if_neg h2]
      by_cases h3 : c ≤ 0xffff
      · have hfirst : 0xe0 ||| (c >>> 12 &&& 0x0f) = c / 4096 % 0x10 + 0xe0 := by
          rw [hlead _ (by decide), Nat.and_two_pow_sub_one_eq_mod _ 4, Nat.shiftRight_eq_div_pow]
          omega
        rw [if_pos h3, if_pos h3, hfirst, htrail, htrail, Nat.shiftRight_eq_div_pow]
      · have hfirst : 0xf0 ||| (c >>> 18 &&& 0x07) = c / 262144 % 0x08 + 0xf0 := by
          rw [hlead _ (by decide), Nat.and_two_pow_sub_one_eq_mod _ 3, Nat.shiftRight_eq_div_pow]
          omega
        rw [if_neg h3, if_neg h3, if_pos hlimit, hfirst, htrail, htrail, htrail,
          Nat.shiftRight_eq_div_pow, Nat.shiftRight_eq_div_pow]

theorem uputc_ascii {b : Byte} (h : b < 0x80) : uputc b.toNat = [b] := by
  have hlt : b.toNat < 0x80 := h
  rw [uputc, if_pos hlt, UInt8.ofNat_toNat]

/-- The buffer holds the bytes of the line, and there is room for the NUL behind them. -/
structure ShowsLine (nbuf : Nat) (l : CharLine) (s : EchoLine) : Prop where
  buf : s.buf = encodeChars l.before ++ encodeChars l.after
  cpos : s.cpos = (encodeChars l.before).length
  room : s.buflen < nbuf
  plain : ∀ c ∈ l.text, c ≠ '\x00'

namespace ShowsLine

variable {nbuf : Nat} {l : CharLine} {s : EchoLine}

theorem size (h : ShowsLine nbuf l s) : l.size = s.buflen := by
  rw [CharLine.size, CharLine.text, Utf8.encodeChars_append, EchoLine.buflen, h.buf]

theorem take (h : ShowsLine nbuf l s) : s.buf.take s.cpos = encodeChars l.before := by
  rw [h.buf, h.cpos, List.take_left]

theorem drop (h : ShowsLine nbuf l s) : s.buf.drop s.cpos = encodeChars l.after := by
  rw [h.buf, h.cpos, List.drop_left]

theorem cpos_le (h : ShowsLine nbuf l s) : s.cpos ≤ s.buflen := by
  rw [h.cpos, EchoLine.buflen, h.buf, List.length_append]
  exact Nat.le_add_right _ _

/-- Moving the cursor to the boundary of two characters. -/
theorem move (h : ShowsLine nbuf l s) {before after : List Char} (htext : before ++ after = l.text)
    {cpos : Nat} (hcpos : cpos = (encodeChars before).length) :
    ShowsLine nbuf ⟨before, after⟩ { s with cpos := cpos } where
  buf := by
    have hbytes := congrArg encodeChars htext
    rw [CharLine.text, Utf8.encodeChars_append, Utf8.encodeChars_append] at hbytes
    exact h.buf.trans hbytes.symm
  cpos := hcpos
  room := h.room
  plain := by
    intro c hc
    rw [CharLine.text, htext] at hc
    exact h.plain c hc

/-- Text is put in where there is room for it. -/
theorem insert (h : ShowsLine nbuf l s) {m : List Char} (hm : ∀ c ∈ m, c ≠ '\x00')
    (hroom : s.buflen + (encodeChars m).length < nbuf) :
    ShowsLine nbuf ⟨l.before ++ m, l.after⟩ (s.insert (encodeChars m)) where
  buf := by
    rw [EchoLine.insert, h.take, h.drop, Utf8.encodeChars_append, List.append_assoc]
  cpos := by
    rw [EchoLine.insert, h.cpos, Utf8.encodeChars_append, List.length_append]
  room := by
    have hbuf := h.buf
    have hlen : (s.insert (encodeChars m)).buflen = s.buflen + (encodeChars m).length := by
      rw [EchoLine.buflen, EchoLine.buflen, EchoLine.insert, h.take, h.drop, hbuf]
      simp only [List.length_append]
      omega
    rw [hlen]
    exact hroom
  plain := by
    intro c hc
    have hmem : c ∈ l.text ∨ c ∈ m := by
      simp only [CharLine.text, List.mem_append] at hc ⊢
      tauto
    exact hmem.elim (h.plain c) (hm c)

/-- Text is taken out behind the cursor. -/
theorem cut (h : ShowsLine nbuf l s) {after : List Char} (hsub : after.Sublist l.after)
    {buf : List Byte} (hbuf : buf = encodeChars l.before ++ encodeChars after) :
    ShowsLine nbuf ⟨l.before, after⟩ { s with buf := buf } where
  buf := hbuf
  cpos := h.cpos
  room := by
    have hle : (encodeChars after).length ≤ (encodeChars l.after).length :=
      (hsub.flatMap String.utf8EncodeChar).length_le
    have hroom := h.room
    rw [EchoLine.buflen, h.buf, List.length_append] at hroom
    rw [EchoLine.buflen, hbuf, List.length_append]
    omega
  plain := by
    intro c hc
    rcases List.mem_append.mp hc with hc | hc
    · exact h.plain c (List.mem_append_left _ hc)
    · exact h.plain c (List.mem_append_right _ (hsub.subset hc))

/-- The character in front of the cursor, where it has one byte. -/
theorem last_single (h : ShowsLine nbuf l s) (hlast : SingleByte s.last) :
    l.before = [] ∨ ∃ init c b, l.before = init ++ [c] ∧ String.utf8EncodeChar c = [b] := by
  rcases List.eq_nil_or_concat' l.before with hnil | ⟨init, c, hconcat⟩
  · exact Or.inl hnil
  · right
    rcases Utf8.char_ascii_or c with ⟨b, -, hb⟩ | hhigh
    · exact ⟨init, c, b, hconcat, hb⟩
    · exfalso
      obtain ⟨x, hx⟩ := Option.ne_none_iff_exists'.mp
        (mt List.getLast?_eq_none_iff.mp (String.utf8EncodeChar_ne_nil (c := c)))
      have hend : s.last = some x := by
        rw [EchoLine.last, h.take, hconcat, Utf8.encodeChars_concat,
          List.getLast?_append_of_ne_nil _ String.utf8EncodeChar_ne_nil, hx]
      exact hhigh x (List.mem_of_getLast? hx) (hlast x hend)

/-- The character behind the cursor, where it has one byte. -/
theorem next_single (h : ShowsLine nbuf l s) (hnext : SingleByte s.buf[s.cpos]?) :
    l.after = [] ∨ ∃ c after b, l.after = c :: after ∧ String.utf8EncodeChar c = [b] := by
  cases hafter : l.after with
  | nil => exact Or.inl rfl
  | cons c after =>
      right
      rcases Utf8.char_ascii_or c with ⟨b, -, hb⟩ | hhigh
      · exact ⟨c, after, b, rfl, hb⟩
      · exfalso
        obtain ⟨x, rest, hx⟩ := List.exists_cons_of_ne_nil (String.utf8EncodeChar_ne_nil (c := c))
        have hget : s.buf[s.cpos]? = some x := by
          rw [h.buf, h.cpos, List.getElem?_append_right (Nat.le_refl _), Nat.sub_self, hafter,
            Utf8.encodeChars_cons, hx]
          rfl
        exact hhigh x (hx ▸ List.mem_cons_self) (hnext x hget)

end ShowsLine

/-! ## SingleByte keys -/

section Keys

variable {flag : ReadFlags} {nbuf : Nat} {names : NameSource} {ffisdir : List Byte → Bool}
  {kill : List Byte} {l : CharLine} {s : EchoLine}

theorem insertchar_shows (h : ShowsLine nbuf l s) {c : Nat} (hc : MeetsInsert nbuf c s) :
    ShowsLine nbuf (l.insert (nbuf - 1) (Char.ofNat c)) (insertchar nbuf c s) := by
  obtain ⟨hchar, hzero, hroom⟩ := hc
  have hbytes := uputc_char hchar
  have hsize := h.size
  have hcpos := h.cpos_le
  have hlt := h.room
  unfold insertchar CharLine.insert
  dsimp only
  rw [hsize, ← hbytes]
  by_cases hfits : s.cpos + (uputc c).length < nbuf
  · have htotal : s.buflen + (uputc c).length < nbuf := hroom hfits
    have hone : uputc c = encodeChars [Char.ofNat c] := by
      rw [hbytes, Utf8.encodeChars_cons, Utf8.encodeChars_nil, List.append_nil]
    have hplain : ∀ d ∈ [Char.ofNat c], d ≠ '\x00' := by
      intro d hd
      rw [List.mem_singleton.mp hd]
      intro hnul
      have hval := ofNat_val hchar
      rw [hnul] at hval
      exact hzero hval.symm
    rw [if_pos hfits, if_pos (by omega), hone]
    exact h.insert hplain (hone ▸ htotal)
  · rw [if_neg hfits, if_neg (by omega)]
    exact h

theorem deletechar_shows (h : ShowsLine nbuf l s) (hnext : SingleByte s.buf[s.cpos]?) :
    ShowsLine nbuf ⟨l.before, l.after.tail⟩ (deletechar s) := by
  have hbuf := h.buf
  have hcpos := h.cpos
  unfold deletechar
  rcases h.next_single hnext with hnil | ⟨c, after, b, hafter, hb⟩
  · have hend : s.cpos = s.buflen := by
      rw [hcpos, EchoLine.buflen, hbuf, hnil, Utf8.encodeChars_nil, List.append_nil]
    rw [if_pos hend, hnil, List.tail_nil, ← hnil]
    exact h
  · have hbytes : s.buf = encodeChars l.before ++ b :: encodeChars after := by
      rw [hbuf, hafter, Utf8.encodeChars_cons, hb]
      rfl
    have hinside : ¬ s.cpos = s.buflen := by
      rw [hcpos, EchoLine.buflen, hbytes, List.length_append, List.length_cons]
      omega
    rw [if_neg hinside, hafter, List.tail_cons]
    refine h.cut ?_ ?_
    · rw [hafter]
      exact List.sublist_cons_self c after
    · rw [hbytes, hcpos, List.eraseIdx_append_of_length_le (Nat.le_refl _), Nat.sub_self]
      rfl

theorem back_shows (h : ShowsLine nbuf l s) (hlast : SingleByte s.last) :
    ShowsLine nbuf l.back (if 0 < s.cpos then { s with cpos := s.cpos - 1 } else s) := by
  have hcpos := h.cpos
  unfold CharLine.back
  rcases h.last_single hlast with hnil | ⟨init, c, b, hconcat, hb⟩
  · have hzero : ¬ 0 < s.cpos := by
      rw [hcpos, hnil]
      exact Nat.lt_irrefl 0
    rw [if_neg hzero, hnil]
    exact h
  · have hlength : s.cpos = (encodeChars init).length + 1 := by
      rw [hcpos, hconcat, Utf8.encodeChars_concat, hb, List.length_append]
      rfl
    rw [if_pos (by omega), hconcat, List.getLast?_concat, List.dropLast_concat]
    refine h.move ?_ (by omega)
    rw [CharLine.text, hconcat, List.append_assoc]
    rfl

theorem rubout_shows (h : ShowsLine nbuf l s) (hlast : SingleByte s.last) :
    ShowsLine nbuf ⟨l.before.dropLast, l.after⟩
      (if s.cpos = 0 then s else deletechar { s with cpos := s.cpos - 1 }) := by
  have hcpos := h.cpos
  have hback := back_shows h hlast
  unfold CharLine.back at hback
  rcases h.last_single hlast with hnil | ⟨init, c, b, hconcat, hb⟩
  · have hzero : s.cpos = 0 := by
      rw [hcpos, hnil]
      rfl
    rw [if_pos hzero, hnil, List.dropLast_nil, ← hnil]
    exact h
  · have hlength : s.cpos = (encodeChars init).length + 1 := by
      rw [hcpos, hconcat, Utf8.encodeChars_concat, hb, List.length_append]
      rfl
    rw [if_pos (by omega), hconcat, List.getLast?_concat, List.dropLast_concat] at hback
    rw [if_neg (by omega), hconcat, List.dropLast_concat]
    have hsingle : SingleByte s.buf[s.cpos - 1]? := by
      have hget : s.buf[s.cpos - 1]? = some b := by
        rw [h.buf, hconcat, Utf8.encodeChars_concat, hb, hlength]
        simp
      have hend : s.last = some b := by
        rw [EchoLine.last, h.take, hconcat, Utf8.encodeChars_concat, hb, List.getLast?_concat]
      rw [hget, ← hend]
      exact hlast
    exact deletechar_shows hback hsingle

theorem forward_shows (h : ShowsLine nbuf l s) (hnext : SingleByte s.buf[s.cpos]?) :
    ShowsLine nbuf l.forward (if s.cpos < s.buflen then { s with cpos := s.cpos + 1 } else s) := by
  have hbuf := h.buf
  have hcpos := h.cpos
  unfold CharLine.forward
  rcases h.next_single hnext with hnil | ⟨c, after, b, hafter, hb⟩
  · have hend : s.cpos = s.buflen := by
      rw [hcpos, EchoLine.buflen, hbuf, hnil, Utf8.encodeChars_nil, List.append_nil]
    rw [if_neg (by omega), hnil]
    exact h
  · have hinside : s.cpos < s.buflen := by
      rw [hcpos, EchoLine.buflen, hbuf, hafter, Utf8.encodeChars_cons, hb]
      simp
    rw [if_pos hinside, hafter]
    refine h.move ?_ ?_
    · rw [CharLine.text, hafter, List.append_assoc]
      rfl
    · rw [Utf8.encodeChars_concat, hb, List.length_append, hcpos]
      rfl

/-! ## Pasting -/

/-- The loop ends where the line of the kill buffer does. -/
theorem pasteReply_killLine (s : EchoLine) :
    pasteReply nbuf kill s = pasteReply nbuf (killLine kill) s := by
  induction kill generalizing s with
  | nil => rfl
  | cons kc rest ih =>
      unfold killLine at ih ⊢
      by_cases hend : kc = 0x0D ∨ kc = 0x0A
      · rw [pasteReply, if_pos hend, List.takeWhile_cons_of_neg (by simp [hend])]
        rfl
      · rw [List.takeWhile_cons_of_pos (by simp [hend]), pasteReply, pasteReply, if_neg hend,
          if_neg hend]
        dsimp only
        rw [ih]

/-- **A pasted line of ASCII** goes in as far as there is room for it. -/
theorem pasteReply_shows {m : List Char} (h : ShowsLine nbuf l s)
    (hline : ∀ b ∈ encodeChars m, ¬ (b = 0x0D ∨ b = 0x0A))
    (hascii : ∀ b ∈ (encodeChars m).take (nbuf - 1 - s.buflen), b < 0x80 ∧ b ≠ 0) :
    ShowsLine nbuf (l.insertAll (nbuf - 1) m) (pasteReply nbuf (encodeChars m) s) := by
  induction m generalizing l s with
  | nil => exact h
  | cons c m ih =>
      have hroom := h.room
      have hsize := h.size
      have hne : String.utf8EncodeChar c ≠ [] := String.utf8EncodeChar_ne_nil
      rw [Utf8.encodeChars_cons] at hline hascii ⊢
      unfold CharLine.insertAll
      rw [hsize]
      by_cases hone : s.buflen + 1 < nbuf
      · obtain ⟨b, rest, hb⟩ := List.exists_cons_of_ne_nil hne
        obtain ⟨k, hk⟩ : ∃ k, nbuf - 1 - s.buflen = k + 1 := ⟨nbuf - 1 - s.buflen - 1, by omega⟩
        have hfirst : b < 0x80 ∧ b ≠ 0 := by
          apply hascii b
          rw [hb, hk, List.cons_append, List.take_succ_cons]
          exact List.mem_cons_self
        have hsingle : String.utf8EncodeChar c = [b] := by
          rcases Utf8.char_ascii_or c with ⟨x, -, hx⟩ | hhigh
          · rw [hx] at hb ⊢
            rw [List.head_eq_of_cons_eq hb]
          · exact absurd hfirst.1 (hhigh b (hb ▸ List.mem_cons_self))
        have hzero : c ≠ '\x00' := by
          rintro rfl
          have hnul : String.utf8EncodeChar '\x00' = [0] := by decide
          rw [hnul] at hsingle
          exact hfirst.2 (List.head_eq_of_cons_eq hsingle).symm
        rw [hsingle, List.singleton_append] at hline hascii ⊢
        have hrest : ¬ (b = 0x0D ∨ b = 0x0A) := hline b List.mem_cons_self
        rw [if_pos (show s.buflen + [b].length ≤ nbuf - 1 by rw [List.length_singleton]; omega),
          pasteReply, if_neg hrest, uputc_ascii hfirst.1]
        dsimp only
        rw [if_neg (by rw [List.length_singleton]; omega)]
        have hchar : encodeChars [c] = [b] := by
          rw [Utf8.encodeChars_cons, hsingle, Utf8.encodeChars_nil]
          rfl
        have hnext := h.insert (m := [c]) (by simpa using hzero) (by
          rw [hchar, List.length_singleton]
          exact hone)
        rw [hchar] at hnext
        refine ih hnext (fun x hx => hline x (List.mem_cons_of_mem b hx)) ?_
        have hlen : (s.insert [b]).buflen = s.buflen + 1 := by
          have hcpos := h.cpos_le
          unfold EchoLine.buflen at hcpos ⊢
          unfold EchoLine.insert
          simp only [List.length_append, List.length_take, List.length_drop, List.length_singleton]
          omega
        intro x hx
        apply hascii x
        rw [hlen] at hx
        have hk' : nbuf - 1 - (s.buflen + 1) = k := by omega
        rw [hk'] at hx
        rw [hk, List.take_succ_cons]
        exact List.mem_cons_of_mem b hx
      · have hpos : 0 < (String.utf8EncodeChar c).length := List.length_pos_iff.mpr hne
        rw [if_neg (by omega)]
        obtain ⟨b, rest, hb⟩ := List.exists_cons_of_ne_nil hne
        have hstop : pasteReply nbuf (b :: (rest ++ encodeChars m)) s = s := by
          rw [pasteReply]
          split
          · rfl
          · have hubuf : 0 < (uputc b.toNat).length := by
              have hlt := b.toNat_lt
              exact List.length_pos_iff.mpr (uputc_isUChar (by omega)).ne_nil
            dsimp only
            rw [if_pos (by omega)]
        rw [hb, List.cons_append, hstop]
        exact h

end Keys

/-! ## Completions -/

theorem le_commonLength {x s t : List Byte} (hs : x <+: s) (ht : x <+: t) :
    x.length ≤ commonLength s t := by
  induction x generalizing s t with
  | nil => exact Nat.zero_le _
  | cons b x ih =>
      obtain ⟨s', rfl⟩ := hs
      obtain ⟨t', rfl⟩ := ht
      rw [List.cons_append, List.cons_append, commonLength, if_pos rfl, List.length_cons]
      exact Nat.succ_le_succ (ih (List.prefix_append x s') (List.prefix_append x t'))

theorem take_commonLength {s t : List Byte} {k : Nat} (h : k ≤ commonLength s t) :
    s.take k <+: t ∧ k ≤ s.length := by
  induction s generalizing t k with
  | nil =>
      have hzero : k = 0 := Nat.le_zero.mp (by simpa [commonLength] using h)
      subst hzero
      exact ⟨List.nil_prefix, Nat.le_refl _⟩
  | cons a s ih =>
      cases t with
      | nil =>
          have hzero : k = 0 := Nat.le_zero.mp h
          subst hzero
          exact ⟨List.nil_prefix, Nat.zero_le _⟩
      | cons b t =>
          rw [commonLength] at h
          cases k with
          | zero => exact ⟨List.nil_prefix, Nat.zero_le _⟩
          | succ k =>
              split at h
              next hab =>
                obtain ⟨hbegin, hle⟩ := ih (Nat.le_of_succ_le_succ h)
                exact ⟨List.cons_prefix_cons.mpr ⟨hab, hbegin⟩, Nat.succ_le_succ hle⟩
              next => exact absurd h (Nat.not_succ_le_zero k)

theorem le_nxtra_iff {np2 : List Byte} {hits : List (List Byte)} {cpos k : Nat} :
    k ≤ nxtra np2 hits cpos ↔ k ≤ HUGE ∧ ∀ np1 ∈ hits, k ≤ getxtra np2 np1 cpos := by
  unfold nxtra
  generalize HUGE = limit
  induction hits generalizing limit with
  | nil => simp
  | cons np1 hits ih =>
      rw [List.foldl_cons, ih, List.forall_mem_cons, Nat.le_min, and_assoc]

theorem prefix_common_iff {x m n : List Char} : x <+: common m n ↔ x <+: m ∧ x <+: n := by
  induction m generalizing x n with
  | nil =>
      rw [common.eq_2 [] n nofun]
      simp only [List.prefix_nil]
      exact ⟨fun h => ⟨h, h ▸ List.nil_prefix⟩, And.left⟩
  | cons c m ih =>
      cases n with
      | nil =>
          rw [common.eq_2 (c :: m) [] nofun]
          simp only [List.prefix_nil]
          exact ⟨fun h => ⟨h ▸ List.nil_prefix, h⟩, And.right⟩
      | cons d n =>
          rw [common]
          cases x with
          | nil => simp
          | cons b x =>
              split
              next hcd =>
                subst hcd
                simp only [List.cons_prefix_cons, ih]
                tauto
              next hcd =>
                simp only [List.prefix_nil, List.cons_prefix_cons, reduceCtorEq, false_iff]
                rintro ⟨⟨rfl, -⟩, rfl, -⟩
                exact hcd rfl

theorem prefix_commonAll_iff {x m : List Char} {ms : List (List Char)} :
    x <+: commonAll (m :: ms) ↔ ∀ n ∈ m :: ms, x <+: n := by
  rw [commonAll]
  induction ms generalizing m with
  | nil => simp
  | cons n ms ih =>
      rw [List.foldl_cons, ih, List.forall_mem_cons, List.forall_mem_cons, List.forall_mem_cons,
        prefix_common_iff, and_assoc]

namespace EchoLine

variable {s : EchoLine}

theorem insert_nil (s : EchoLine) : s.insert [] = s := by
  rw [insert, List.nil_append, List.take_append_drop]
  rfl

theorem insert_insert (h : s.cpos ≤ s.buflen) (u v : List Byte) :
    (s.insert u).insert v = s.insert (u ++ v) := by
  have hcpos : (s.buf.take s.cpos).length = s.cpos := List.length_take_of_le h
  have hsplit : (s.insert u).buf = (s.buf.take s.cpos ++ u) ++ s.buf.drop s.cpos := by
    rw [insert, List.append_assoc]
  have hlen : (s.insert u).cpos = (s.buf.take s.cpos ++ u).length := by
    rw [List.length_append, hcpos]
    rfl
  rw [insert.eq_def v, hsplit, hlen, List.take_left, List.drop_left, List.length_append, hcpos,
    insert, List.length_append, List.append_assoc, List.append_assoc, Nat.add_assoc]

theorem insert_buflen (h : s.cpos ≤ s.buflen) (u : List Byte) :
    (s.insert u).buflen = s.buflen + u.length := by
  unfold buflen at h ⊢
  unfold insert
  simp only [List.length_append, List.length_take, List.length_drop]
  omega

end EchoLine

theorem completeLoop_eq {nbuf n : Nat} {np2 : List Byte} {s : EchoLine} (hcpos : s.cpos ≤ s.buflen)
    (hn : s.cpos + n ≤ np2.length) :
    completeLoop nbuf np2 n s =
      s.insert ((np2.drop s.cpos).take (min n (nbuf - 1 - s.cpos))) := by
  induction n generalizing s with
  | zero => rw [Nat.zero_min, List.take_zero, EchoLine.insert_nil]; rfl
  | succ n ih =>
      rw [completeLoop]
      split
      next hroom =>
        have hlt : s.cpos < np2.length := by omega
        have hnext : (s.insert [np2.getD s.cpos 0]).cpos = s.cpos + 1 := rfl
        have hmin : min (n + 1) (nbuf - 1 - s.cpos) = min n (nbuf - 1 - (s.cpos + 1)) + 1 := by
          omega
        have hget : np2.getD s.cpos 0 = np2[s.cpos] := by
          rw [List.getD_eq_getElem?_getD, List.getElem?_eq_getElem hlt, Option.getD_some]
        rw [ih (by rw [EchoLine.insert_buflen hcpos, hnext, List.length_singleton]; omega)
          (by rw [hnext]; omega), EchoLine.insert_insert hcpos, hnext, hmin, hget,
          List.drop_eq_getElem_cons hlt, List.take_succ_cons]
        rfl
      next hroom =>
        have hmin : min (n + 1) (nbuf - 1 - s.cpos) = 0 := by omega
        rw [hmin, List.take_zero, EchoLine.insert_nil]

theorem CharLine.insertAll_append {room : Nat} {m tail : List Char} {l : CharLine}
    (hfits : l.size + (encodeChars m).length ≤ room)
    (hstop : tail = [] ∨ l.size + (encodeChars m).length = room) :
    l.insertAll room (m ++ tail) = ⟨l.before ++ m, l.after⟩ := by
  induction m generalizing l with
  | nil =>
      rw [List.nil_append, List.append_nil]
      cases tail with
      | nil => rfl
      | cons c tail =>
          have hpos : 0 < (String.utf8EncodeChar c).length :=
            List.length_pos_iff.mpr String.utf8EncodeChar_ne_nil
          have hfull : l.size = room := by simpa using hstop
          rw [insertAll, if_neg (by omega)]
  | cons c m ih =>
      rw [Utf8.encodeChars_cons, List.length_append] at hfits hstop
      have hsize : (⟨l.before ++ [c], l.after⟩ : CharLine).size =
          l.size + (String.utf8EncodeChar c).length := by
        simp only [size, text, Utf8.encodeChars_append, Utf8.encodeChars_cons,
          Utf8.encodeChars_nil, List.length_append, List.length_nil]
        omega
      rw [List.cons_append, insertAll, if_pos (by omega), ih (by rw [hsize]; omega)
        (by rw [hsize, Nat.add_assoc]; exact hstop)]
      simp

theorem zero_mem_iff {m : List Char} : (0 : Byte) ∈ encodeChars m ↔ '\x00' ∈ m := by
  have hnul : String.utf8EncodeChar '\x00' = [0] := by decide
  constructor
  · intro h
    obtain ⟨c, hc, hzero⟩ := List.mem_flatMap.mp h
    rcases Utf8.char_ascii_or c with ⟨b, -, hb⟩ | hhigh
    · rw [hb, List.mem_singleton] at hzero
      subst hzero
      have hsame : String.utf8EncodeChar c ++ [] = String.utf8EncodeChar '\x00' ++ [] := by
        rw [hb, hnul]
      exact (Utf8.char_append_inj hsame).1 ▸ hc
    · exact absurd (by decide) (hhigh 0 hzero)
  · intro h
    exact List.mem_flatMap.mpr ⟨'\x00', h, hnul ▸ List.mem_singleton_self 0⟩

section Completing

variable {flag : ReadFlags} {nbuf : Nat} {names : NameSource} {ffisdir : List Byte → Bool}
  {kill : List Byte} {l : CharLine} {s : EchoLine}

/-- **A completion of whole characters** puts in what the names have in common. -/
theorem completion_shows (h : ShowsLine nbuf l s) {np2 : List Byte} {rest : List (List Byte)}
    (hnames : names.next (s.buf.take s.cpos) = np2 :: rest)
    (hmeets : MeetsCompletion flag nbuf np2 rest s) :
    completeLoop nbuf np2 (nxtra np2 (np2 :: rest) s.cpos) s =
        s.insert (completion nbuf np2 rest s.cpos) ∧
      ShowsLine nbuf (l.insertAll (nbuf - 1) (commonAll (l.endings names)))
        (s.insert (completion nbuf np2 rest s.cpos)) := by
  have hcpos := h.cpos_le
  have hroom := hmeets.room
  have hfirst : np2 ∈ names.next (s.buf.take s.cpos) := hnames ▸ List.mem_cons_self
  -- what the loop puts in is the beginning of what each name has behind the cursor
  have hbytes : nxtra np2 (np2 :: rest) s.cpos ≤ (np2.drop s.cpos).length :=
    (take_commonLength ((le_nxtra_iff.mp (Nat.le_refl _)).2 np2 List.mem_cons_self)).2
  have hlength : s.cpos + nxtra np2 (np2 :: rest) s.cpos ≤ np2.length ∨
      nxtra np2 (np2 :: rest) s.cpos = 0 := by
    rw [List.length_drop] at hbytes
    omega
  have hloop : completeLoop nbuf np2 (nxtra np2 (np2 :: rest) s.cpos) s =
      s.insert (completion nbuf np2 rest s.cpos) := by
    rcases hlength with hle | hzero
    · exact completeLoop_eq hcpos hle
    · rw [completion, hzero, Nat.zero_min, List.take_zero, EchoLine.insert_nil]
      rfl
  refine ⟨hloop, ?_⟩
  have hsize : (completion nbuf np2 rest s.cpos).length =
      min (nxtra np2 (np2 :: rest) s.cpos) (nbuf - 1 - s.cpos) := by
    rw [completion, List.length_take]
    omega
  have hbegins : ∀ name ∈ np2 :: rest,
      completion nbuf np2 rest s.cpos <+: name.drop s.cpos := by
    intro name hname
    have hle : min (nxtra np2 (np2 :: rest) s.cpos) (nbuf - 1 - s.cpos) ≤
        getxtra np2 name s.cpos :=
      (Nat.min_le_left _ _).trans ((le_nxtra_iff.mp (Nat.le_refl _)).2 name hname)
    exact (take_commonLength hle).1
  -- the same for characters
  have hchars := hmeets.whole.encode_decode
  generalize decodeChars (completion nbuf np2 rest s.cpos) = m at hchars
  have hendings : l.endings names =
      (np2 :: rest).map fun name => decodeChars (name.drop s.cpos) := by
    rw [CharLine.endings, ← h.take, hnames, h.take, h.cpos]
  have hbegin : m <+: commonAll (l.endings names) := by
    rw [hendings, List.map_cons, prefix_commonAll_iff]
    intro ending hending
    obtain ⟨name, hname, rfl⟩ :
        ∃ name ∈ np2 :: rest, decodeChars (name.drop s.cpos) = ending := List.mem_map.mp hending
    rw [← Utf8.encodeChars_prefix_iff, hchars, (hmeets.names name hname).encode_decode]
    exact hbegins name hname
  obtain ⟨tail, htail⟩ := hbegin
  have hplain : ∀ c ∈ m, c ≠ '\x00' := by
    rintro c hc rfl
    have hzero : (0 : Byte) ∈ completion nbuf np2 rest s.cpos := hchars ▸ zero_mem_iff.mpr hc
    exact names.plain _ np2 hfirst (List.mem_of_mem_drop (List.mem_of_mem_take hzero))
  have hstop : tail = [] ∨ l.size + (encodeChars m).length = nbuf - 1 := by
    rw [h.size, hchars, hsize]
    rcases Nat.le_total (nxtra np2 (np2 :: rest) s.cpos) (nbuf - 1 - s.cpos) with hle | hge
    · -- the names have no more in common
      left
      have hall : (encodeChars (m ++ tail)).length ≤ nxtra np2 (np2 :: rest) s.cpos := by
        have hcommon : ∀ name ∈ np2 :: rest, encodeChars (m ++ tail) <+: name.drop s.cpos := by
          intro name hname
          have hending : decodeChars (name.drop s.cpos) ∈
              (np2 :: rest).map fun name => decodeChars (name.drop s.cpos) :=
            List.mem_map.mpr ⟨name, hname, rfl⟩
          have hle : m ++ tail <+: decodeChars (name.drop s.cpos) := by
            have hself : m ++ tail <+: commonAll (l.endings names) := htail ▸ List.prefix_refl _
            rw [hendings, List.map_cons, prefix_commonAll_iff] at hself
            exact hself _ hending
          rw [← (hmeets.names name hname).encode_decode]
          exact Utf8.encodeChars_prefix_iff.mpr hle
        refine le_nxtra_iff.mpr ⟨?_, ?_⟩
        · have hshort := names.short _ np2 hfirst
          have hle := (hcommon np2 List.mem_cons_self).length_le
          rw [List.length_drop] at hle
          unfold NFILEN at hshort
          unfold HUGE
          omega
        · intro name hname
          exact le_commonLength (hcommon np2 List.mem_cons_self) (hcommon name hname)
      rw [Utf8.encodeChars_append, List.length_append, hchars, hsize, Nat.min_eq_left hle] at hall
      have hnil : encodeChars tail = encodeChars [] := by
        apply List.eq_nil_of_length_eq_zero
        omega
      exact Utf8.encodeChars_injective hnil
    · -- the buffer is full
      right
      rw [hsize] at hroom
      omega
  have hfits : l.size + (encodeChars m).length ≤ nbuf - 1 := by
    rw [h.size, hchars]
    omega
  have hinsert := h.insert hplain (hchars ▸ hroom)
  rw [hchars] at hinsert
  rw [← htail, CharLine.insertAll_append hfits hstop]
  exact hinsert

/-! ## Keys -/

theorem rdropWhile_encode (m : List Char) :
    (encodeChars m).rdropWhile (· = 0x20) = encodeChars (m.rdropWhile (· = ' ')) := by
  have hspace : String.utf8EncodeChar ' ' = [0x20] := by decide
  induction m using List.reverseRecOn with
  | nil => rfl
  | append_singleton m c ih =>
      by_cases hc : c = ' '
      · subst hc
        rw [Utf8.encodeChars_concat, hspace, List.rdropWhile_concat_pos _ _ _ (by simp), ih,
          List.rdropWhile_concat_pos _ _ _ (by simp)]
      · rw [List.rdropWhile_concat_neg _ _ _ (by simpa using hc), Utf8.encodeChars_concat]
        rcases List.eq_nil_or_concat' (String.utf8EncodeChar c) with hnil | ⟨init, b, hb⟩
        · exact absurd hnil String.utf8EncodeChar_ne_nil
        · have hne : b ≠ 0x20 := by
            rintro rfl
            rcases Utf8.char_ascii_or c with ⟨x, -, hx⟩ | hhigh
            · rw [hx] at hb
              have hlast := congrArg List.getLast? hb
              rw [List.getLast?_concat, List.getLast?_singleton] at hlast
              have hsame : String.utf8EncodeChar c ++ [] = String.utf8EncodeChar ' ' ++ [] := by
                rw [hx, hspace, Option.some.inj hlast]
              exact hc (Utf8.char_append_inj hsame).1
            · exact absurd (by decide) (hhigh 0x20 (hb ▸ by simp))
          rw [hb, ← List.append_assoc, List.rdropWhile_concat_neg _ _ _ (by simpa using hne)]

theorem takeWhile_encode {m : List Char} (h : ∀ c ∈ m, c ≠ '\x00') :
    (encodeChars m).takeWhile (· ≠ 0) = encodeChars m := by
  apply List.takeWhile_eq_self_iff.mpr
  intro b hb
  refine decide_eq_true ?_
  rintro rfl
  exact h _ (zero_mem_iff.mp hb) rfl

/-- **A key that meets the condition.** -/
theorem editkey_shows (h : ShowsLine nbuf l s) {c : Nat} (hc : MeetsEdit nbuf kill c s) :
    ShowsLine nbuf (l.edit flag nbuf kill c).1 (editkey flag nbuf kill c s).1 ∧
      (editkey flag nbuf kill c s).2 = (l.edit flag nbuf kill c).2.map encodeChars := by
  have hbuf : s.buf = encodeChars l.text := by
    rw [h.buf, CharLine.text, Utf8.encodeChars_append]
  unfold editkey CharLine.edit
  by_cases h1 : c = 0x01
  · rw [if_pos h1, if_pos h1]
    exact ⟨@ShowsLine.move nbuf l s h [] l.text rfl 0 rfl, rfl⟩
  rw [if_neg h1, if_neg h1]
  by_cases h2 : c = 0x02
  · subst h2
    rw [if_pos rfl, if_pos rfl]
    exact ⟨back_shows h hc, rfl⟩
  rw [if_neg h2, if_neg h2]
  by_cases h3 : c = 0x05
  · rw [if_pos h3, if_pos h3]
    refine ⟨h.move (List.append_nil _) ?_, rfl⟩
    rw [EchoLine.buflen, hbuf]
  rw [if_neg h3, if_neg h3]
  by_cases h4 : c = 0x06
  · subst h4
    rw [if_pos rfl, if_pos rfl]
    exact ⟨forward_shows h hc, rfl⟩
  rw [if_neg h4, if_neg h4]
  by_cases h5 : c = 0x19
  · subst h5
    obtain ⟨hvalid, hascii⟩ := hc
    rw [if_pos rfl, if_pos rfl]
    have hline : ∀ b ∈ encodeChars (decodeChars (killLine kill)), ¬ (b = 0x0D ∨ b = 0x0A) := by
      rw [hvalid.encode_decode]
      intro b hb
      simpa using List.mem_takeWhile_imp hb
    have hpaste := pasteReply_shows h hline (hvalid.encode_decode.symm ▸ hascii)
    rw [hvalid.encode_decode, ← pasteReply_killLine] at hpaste
    exact ⟨hpaste, rfl⟩
  rw [if_neg h5, if_neg h5]
  by_cases h6 : c = 0x0D
  · rw [if_pos h6, if_pos h6]
    refine ⟨h, congrArg Answer.done ?_⟩
    cases flag.effile with
    | false =>
        simp only [Bool.false_eq_true, if_false]
        rw [hbuf, takeWhile_encode h.plain]
    | true =>
        simp only [if_true]
        rw [zapSpaces, hbuf, rdropWhile_encode]
        exact takeWhile_encode fun d hd => h.plain d ((List.rdropWhile_prefix _ l.text).subset hd)
  rw [if_neg h6, if_neg h6]
  by_cases h7 : c = 0x07
  · rw [if_pos h7, if_pos h7]
    exact ⟨h, rfl⟩
  rw [if_neg h7, if_neg h7]
  by_cases h8 : c = 0x7F ∨ c = 0x08
  · rw [if_pos h8, if_pos h8]
    have hlast : SingleByte s.last := by
      rcases h8 with rfl | rfl
      · exact hc
      · exact hc
    exact ⟨rubout_shows h hlast, rfl⟩
  rw [if_neg h8, if_neg h8]
  by_cases h9 : c = 0x04
  · subst h9
    rw [if_pos rfl, if_pos rfl]
    exact ⟨deletechar_shows h hc, rfl⟩
  rw [if_neg h9, if_neg h9]
  by_cases h10 : c = 0x15
  · rw [if_pos h10, if_pos h10]
    have hroom := h.room
    refine ⟨?_, rfl⟩
    have hempty : ShowsLine nbuf ⟨[], []⟩ ⟨[], 0⟩ :=
      ⟨rfl, rfl, Nat.lt_of_le_of_lt (Nat.zero_le _) hroom, nofun⟩
    split
    next hzero =>
      have hnil : s = ⟨[], 0⟩ := by
        have hcpos := h.cpos_le
        have hbuf0 : s.buf = [] := List.eq_nil_of_length_eq_zero hzero
        have hcpos0 : s.cpos = 0 := by omega
        cases s
        subst hbuf0 hcpos0
        rfl
      rw [hnil]
      exact hempty
    next => exact hempty
  rw [if_neg h10, if_neg h10]
  by_cases h11 : c = 0x0B
  · rw [if_pos h11, if_pos h11]
    refine ⟨?_, rfl⟩
    have hcut : ShowsLine nbuf ⟨l.before, []⟩ { s with buf := s.buf.take s.cpos } :=
      h.cut (List.nil_sublist _) (by rw [h.take, Utf8.encodeChars_nil, List.append_nil])
    split
    next hend =>
      have hsame : s.buf.take s.cpos = s.buf := by
        rw [hend]
        exact List.take_length
      rw [hsame] at hcut
      exact hcut
    next => exact hcut
  rw [if_neg h11, if_neg h11]
  have hinsert : MeetsInsert nbuf c s := by
    push Not at h8
    have hmeets := hc
    unfold MeetsEdit at hmeets
    rw [if_neg (by omega), if_neg (by omega), if_neg (by omega), if_neg h5] at hmeets
    exact hmeets
  exact ⟨insertchar_shows h hinsert, rfl⟩

theorem readkey_shows (h : ShowsLine nbuf l s) {c : Nat} (hc : MeetsKey flag nbuf names kill c s) :
    ShowsLine nbuf (l.key flag nbuf names ffisdir kill c).1
        (readkey flag nbuf names ffisdir kill c s).1 ∧
      (readkey flag nbuf names ffisdir kill c s).2 =
        (l.key flag nbuf names ffisdir kill c).2.map encodeChars := by
  unfold readkey CharLine.key
  unfold MeetsKey at hc
  by_cases hcompletes : completes flag c = true
  · rw [if_pos hcompletes] at hc
    rw [if_pos hcompletes, if_pos hcompletes]
    have hendings : l.endings names = (names.next (s.buf.take s.cpos)).map fun name =>
        decodeChars (name.drop s.cpos) := by
      rw [CharLine.endings, h.take, h.cpos]
    cases hnames : names.next (s.buf.take s.cpos) with
    | nil =>
        rw [hnames, List.map_nil] at hendings
        rw [hendings]
        exact ⟨h, rfl⟩
    | cons np2 rest =>
        rw [hnames] at hc
        obtain ⟨hloop, hshows⟩ := completion_shows h hnames hc
        rw [hnames, List.map_cons] at hendings
        rw [hendings] at hshows ⊢
        dsimp only
        rw [hloop]
        by_cases hrest : rest ≠ []
        · rw [if_pos hrest, if_pos (by simpa using hrest)]
          exact ⟨hshows, rfl⟩
        · rw [if_neg hrest, if_neg (by simpa using hrest)]
          by_cases hfile : flag.effile = true
          · rw [if_pos hfile, if_pos hfile, hshows.take]
            have hroom := hc.next (not_not.mp hrest) hfile
            have hlen := EchoLine.insert_buflen h.cpos_le (completion nbuf np2 rest s.cpos)
            split
            · refine editkey_shows hshows ⟨by decide, by decide, ?_⟩
              rw [hlen]
              exact hroom
            · refine editkey_shows hshows ⟨by decide, by decide, ?_⟩
              rw [hlen]
              exact hroom
          · rw [if_neg hfile, if_neg hfile]
            exact editkey_shows hshows trivial
  · rw [if_neg hcompletes] at hc
    rw [if_neg hcompletes, if_neg hcompletes]
    exact editkey_shows h hc

/-- **The line is kept** from key to key. -/
theorem eread_shows : ∀ (keys : List Nat) {l : CharLine} {s : EchoLine}, ShowsLine nbuf l s →
    MeetsAll flag nbuf names ffisdir kill keys s →
    ShowsLine nbuf (l.keys flag nbuf names ffisdir kill keys).1
        (eread flag nbuf names ffisdir kill keys s).1 ∧
      (eread flag nbuf names ffisdir kill keys s).2 =
        (l.keys flag nbuf names ffisdir kill keys).2.map encodeChars
  | [], _, _, h, _ => ⟨h, rfl⟩
  | [c], _, _, h, hmeets => by
      rw [eread, CharLine.keys]
      by_cases hquote : c = 0x11
      · rw [if_pos hquote, if_pos hquote]
        exact ⟨h, rfl⟩
      · rw [if_neg hquote, if_neg hquote]
        exact readkey_shows h (hmeets.resolve_left hquote)
  | c :: d :: keys, l, s, h, hmeets => by
      rw [MeetsAll] at hmeets
      rw [eread, CharLine.keys]
      by_cases hquote : c = 0x11
      · rw [if_pos hquote] at hmeets
        rw [if_pos hquote, if_pos hquote]
        exact eread_shows keys (insertchar_shows h hmeets.1) hmeets.2
      · rw [if_neg hquote] at hmeets
        rw [if_neg hquote, if_neg hquote]
        obtain ⟨hshows, hanswer⟩ :=
          @readkey_shows flag nbuf names ffisdir kill l s h c hmeets.1
        have hrest := hmeets.2
        generalize readkey flag nbuf names ffisdir kill c s = got at hshows hanswer hrest
        generalize l.key flag nbuf names ffisdir kill c = lgot at hshows hanswer
        obtain ⟨s', answer⟩ := got
        obtain ⟨l', lanswer⟩ := lgot
        cases lanswer with
        | more =>
            cases hanswer
            exact eread_shows (d :: keys) hshows hrest
        | done reply =>
            cases hanswer
            exact ⟨hshows, rfl⟩
        | abort =>
            cases hanswer
            exact ⟨hshows, rfl⟩

end Completing

/-- **A reply.**  Where every key that is typed meets the condition, the cursor stays in the line
and the line in the buffer, the bytes are those of the line of characters, and so is the reply. -/
theorem eread_line (flag : ReadFlags) {nbuf : Nat} (hnbuf : 0 < nbuf) (names : NameSource)
    (ffisdir : List Byte → Bool) (kill : List Byte) {keys : List Nat}
    (h : MeetsAll flag nbuf names ffisdir kill keys ⟨[], 0⟩) :
    let got := eread flag nbuf names ffisdir kill keys ⟨[], 0⟩
    let line := CharLine.keys flag nbuf names ffisdir kill keys ⟨[], []⟩
    got.1.cpos ≤ got.1.buflen ∧ got.1.buflen ≤ nbuf - 1 ∧
      got.1.buf = encodeChars line.1.text ∧ got.1.cpos = (encodeChars line.1.before).length ∧
      got.2 = line.2.map encodeChars ∧ ∀ reply, got.2 = .done reply → Valid reply := by
  have hstart : ShowsLine nbuf ⟨[], []⟩ ⟨[], 0⟩ := ⟨rfl, rfl, hnbuf, nofun⟩
  obtain ⟨hshows, hanswer⟩ := eread_shows keys hstart h
  refine ⟨hshows.cpos_le, Nat.le_sub_one_of_lt hshows.room, ?_, hshows.cpos, hanswer, ?_⟩
  · rw [hshows.buf, CharLine.text, Utf8.encodeChars_append]
  · intro reply hreply
    rw [hanswer] at hreply
    cases hline : (CharLine.keys flag nbuf names ffisdir kill keys ⟨[], []⟩).2 with
    | more =>
        rw [hline] at hreply
        cases hreply
    | done text =>
        rw [hline] at hreply
        cases hreply
        exact Utf8.valid_encodeChars text
    | abort =>
        rw [hline] at hreply
        cases hreply

/-- A prompt without completions. -/
def noNames : NameSource where
  next _ := []
  begins := nofun
  short := nofun
  plain := nofun

/-- `a`, `é`, the cursor back to the start and over the `a`, `b`, and return. -/
theorem eread_line_typed :
    let flag : ReadFlags := ⟨false, false, false⟩
    let keys := [0x61, 0xE9, 0x01, 0x06, 0x62, 0x0D]
    let got := eread flag 8 noNames (fun _ => false) [] keys ⟨[], 0⟩
    let line := CharLine.keys flag 8 noNames (fun _ => false) [] keys ⟨[], []⟩
    got.1.cpos ≤ got.1.buflen ∧ got.1.buflen ≤ 8 - 1 ∧
      got.1.buf = encodeChars line.1.text ∧ got.1.cpos = (encodeChars line.1.before).length ∧
      got.2 = line.2.map encodeChars ∧ ∀ reply, got.2 = .done reply → Valid reply := by
  have hinsert : ∀ {c : Nat} {s : EchoLine}, c.isValidChar → c ≠ 0 →
      s.buflen + (uputc c).length < 8 → MeetsInsert 8 c s :=
    fun hchar hzero hroom => ⟨hchar, hzero, fun _ => hroom⟩
  refine eread_line ⟨false, false, false⟩ (by decide) noNames (fun _ => false) [] ?_
  refine And.intro (hinsert (c := 0x61) (by decide) (by decide) (by decide)) ?_
  refine And.intro (hinsert (c := 0xE9) (by decide) (by decide) (by decide)) ?_
  refine And.intro trivial ?_
  refine And.intro (show SingleByte (some 0x61) from ?_) ?_
  · intro x hx
    rw [← Option.some.inj hx]
    decide
  refine And.intro (hinsert (c := 0x62) (by decide) (by decide) (by decide)) ?_
  exact Or.inr trivial

/-- A character in front of a full line is put in behind the end of the buffer, and a cursor inside
of a character tears it apart. -/
theorem eread_overflow :
    let flag : ReadFlags := ⟨false, false, false⟩
    let full := eread flag 4 noNames (fun _ => false) [] [0x61, 0x62, 0x63, 0x01, 0x78] ⟨[], 0⟩
    let torn := eread flag 16 noNames (fun _ => false) [] [0xE9, 0x02, 0x78, 0x0D] ⟨[], 0⟩
    full.1.buf = [0x78, 0x61, 0x62, 0x63] ∧ ¬ full.1.buflen ≤ 4 - 1 ∧
      torn.2 = .done [0xC3, 0x78, 0xA9] ∧ ¬ Valid [0xC3, 0x78, 0xA9] := by
  refine ⟨by decide, by decide, by decide, ?_⟩
  unfold Valid
  decide

end Emacs
