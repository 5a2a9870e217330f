import Zzdwm.Lib.Numerals

/-!
# The chunks of a response (`ai.c`)

A response may come in chunks.  The decoder steps over carriage returns, line feeds and
semicolons behind the size of a chunk, however many there are.

* `aiDecodeChunked` — the decoder;
* `aiDecodeChunkedLoop_ends` — it comes to an end on every sequence of bytes;
* `decode_chunked_iff` — **what is sent in chunks is decoded** exactly if no chunk begins
  with a byte that the decoder steps over.
-/

namespace Ai

open Ascii (Byte)
open Json (hexVal)
open Numerals

def AI_MAX_RESPONSE_SIZE : Nat := 256 * 1024

/-! ## The decoder -/

def semicolon : Byte := 0x3B

def isEol (b : Byte) : Bool := b = 0x0D || b = 0x0A

/-- What the decoder steps over behind the size. -/
def isLoose (b : Byte) : Bool := isEol b || b = semicolon

/-- A chunk extension, up to the end of its line. -/
def skipExtension : List Byte → List Byte
  | [] => []
  | b :: s => if b = semicolon then s.dropWhile (!isEol ·) else b :: s

/-- The loop of `ai_decode_chunked` on the rest of the body: the inner `none` is `FALSE`,
the outer one says that the rounds do not suffice. -/
def aiDecodeChunkedLoop : Nat → List Byte → List Byte → Option (Option (List Byte))
  | 0, _, _ => none
  | fuel + 1, body, buffer =>
      let body := body.dropWhile isEol
      if body = [] then some (some buffer)
      else
        match strtoul body with
        | none => some none
        | some (chunk, body) =>
            if AI_MAX_RESPONSE_SIZE < chunk then some none
            else
              let body := (skipExtension body).dropWhile isLoose
              if body.length < chunk then some none
              else if chunk = 0 then some (some buffer)
              else aiDecodeChunkedLoop fuel (body.drop chunk) (buffer ++ body.take chunk)

/-- `ai_decode_chunked`. -/
def aiDecodeChunked (body : List Byte) : Option (Option (List Byte)) :=
  aiDecodeChunkedLoop (body.length + 1) body []

/-! ## The end of the loop -/

theorem skipExtension_length (s : List Byte) : (skipExtension s).length ≤ s.length := by
  unfold skipExtension
  split
  · exact Nat.le_refl _
  next b s =>
    split
    · exact Nat.le_succ_of_le (List.dropWhile_sublist _).length_le
    · exact Nat.le_refl _

/-- **The decoder comes to an end**, whatever the bytes are. -/
theorem aiDecodeChunkedLoop_ends (fuel : Nat) (body buffer : List Byte) (h : body.length < fuel) :
    (aiDecodeChunkedLoop fuel body buffer).isSome := by
  induction fuel generalizing body buffer with
  | zero => exact absurd h (Nat.not_lt_zero _)
  | succ fuel ih =>
      rw [aiDecodeChunkedLoop]
      dsimp only
      split
      · rfl
      split
      · rfl
      next chunk rest hchunk =>
        split
        · rfl
        split
        · rfl
        split
        · rfl
        · refine ih _ _ ?_
          have heol := (List.dropWhile_sublist (l := body) isEol).length_le
          have hnumber := strtoul_shrinks hchunk
          have hextension := skipExtension_length rest
          have hloose := (List.dropWhile_sublist (l := skipExtension rest) isLoose).length_le
          rw [List.length_drop]
          omega

/-! ## Chunks -/

def crlf : List Byte := [0x0D, 0x0A]

theorem crlf_eol : ∀ b ∈ crlf, isEol b = true := by simp [crlf, isEol]

theorem crlf_loose : ∀ b ∈ crlf, isLoose b = true := by simp [crlf, isLoose, isEol]

/-- What may stand between a size and the end of its line. -/
structure Extension where
  text : List Byte
  marked : text = [] ∨ text.head? = some semicolon
  oneLine : ∀ b ∈ text, isEol b = false

/-- A chunk, with its size as it is sent: in digits of either case, with zeros in front. -/
structure Chunk where
  size : List Byte
  extension : Extension
  data : List Byte
  sized : size ≠ [] ∧ ∀ b ∈ size, isXDigit b = true
  counted : hexValue size = data.length
  nonempty : data ≠ []
  limited : data.length ≤ AI_MAX_RESPONSE_SIZE

/-- The chunk that says that it is the last one, and whatever follows it. -/
structure LastChunk where
  size : List Byte
  extension : Extension
  trailer : List Byte
  sized : size ≠ [] ∧ ∀ b ∈ size, b = 0x30

def Chunk.encode (chunk : Chunk) : List Byte :=
  chunk.size ++ (chunk.extension.text ++ (crlf ++ (chunk.data ++ crlf)))

def LastChunk.encode (last : LastChunk) : List Byte :=
  last.size ++ (last.extension.text ++ (crlf ++ last.trailer))

/-- A body in chunks. -/
def encode (chunks : List Chunk) (last : LastChunk) : List Byte :=
  chunks.flatMap Chunk.encode ++ last.encode

/-! ## Reading them -/

theorem xDigit_not_eol (b : Byte) (h : isXDigit b = true) : isEol b = false := by
  have hall : ∀ n : Fin 256, isXDigit (UInt8.ofNat n) = true → isEol (UInt8.ofNat n) = false := by
    decide +kernel
  have hb := hall ⟨b.toNat, b.toNat_lt⟩
  rw [UInt8.ofNat_toNat] at hb
  exact hb h

theorem loose_not_xDigit (b : Byte) (h : isLoose b = true) :
    isXDigit b = false ∧ b ≠ 0x78 ∧ b ≠ 0x58 := by
  have hall : ∀ n : Fin 256, isLoose (UInt8.ofNat n) = true →
      isXDigit (UInt8.ofNat n) = false ∧ UInt8.ofNat n ≠ 0x78 ∧ UInt8.ofNat n ≠ 0x58 := by
    decide +kernel
  have hb := hall ⟨b.toNat, b.toNat_lt⟩
  rw [UInt8.ofNat_toNat] at hb
  exact hb h

/-- Behind the size, the decoder steps over the extension and the end of the line, and goes
on stepping. -/
theorem skipExtension_line (extension : Extension) (s : List Byte) :
    (skipExtension (extension.text ++ (crlf ++ s))).dropWhile isLoose = s.dropWhile isLoose := by
  have hline : (crlf ++ s).dropWhile isLoose = s.dropWhile isLoose :=
    List.dropWhile_append_of_pos crlf_loose
  obtain ⟨text, hmarked, honeLine⟩ := extension
  cases text with
  | nil => exact hline
  | cons b text =>
      have hb : b = semicolon := by simpa using hmarked
      have hrest : (text ++ (crlf ++ s)).dropWhile (!isEol ·) = crlf ++ s := by
        rw [List.dropWhile_append_of_pos fun e he => by
          simp [honeLine e (List.mem_cons_of_mem b he)]]
        rfl
      rw [List.cons_append, skipExtension, if_pos hb, hrest, hline]

/-- One round, on a size with its line. -/
theorem aiDecodeChunkedLoop_size {size : List Byte} (hne : size ≠ [])
    (hhex : ∀ b ∈ size, isXDigit b = true) (hlimit : hexValue size ≤ AI_MAX_RESPONSE_SIZE)
    (extension : Extension) {gap : List Byte} (hgap : ∀ b ∈ gap, isEol b = true)
    (fuel : Nat) (s buffer : List Byte) :
    aiDecodeChunkedLoop (fuel + 1) (gap ++ (size ++ (extension.text ++ (crlf ++ s)))) buffer =
      if (s.dropWhile isLoose).length < hexValue size then some none
      else if hexValue size = 0 then some (some buffer)
      else
        aiDecodeChunkedLoop fuel ((s.dropWhile isLoose).drop (hexValue size))
          (buffer ++ (s.dropWhile isLoose).take (hexValue size)) := by
  have hline : ∃ b rest, isLoose b = true ∧ extension.text ++ (crlf ++ s) = b :: rest := by
    cases htext : extension.text with
    | nil => exact ⟨0x0D, 0x0A :: s, by decide, rfl⟩
    | cons b text =>
        have hb : b = semicolon := by simpa [htext] using extension.marked
        exact ⟨b, _, by rw [hb]; decide, rfl⟩
  obtain ⟨b, rest, hb, hrest⟩ := hline
  have heol : (gap ++ (size ++ (extension.text ++ (crlf ++ s)))).dropWhile isEol =
      size ++ b :: rest := by
    rw [List.dropWhile_append_of_pos hgap, hrest]
    obtain ⟨d, ds, rfl⟩ := List.exists_cons_of_ne_nil hne
    exact List.dropWhile_cons_of_neg (by simp [xDigit_not_eol d (hhex d List.mem_cons_self)])
  have hvalue : hexValue size < 2 ^ 64 := by
    unfold AI_MAX_RESPONSE_SIZE at hlimit
    omega
  have hbody : size ++ b :: rest ≠ [] := by simp
  rw [aiDecodeChunkedLoop]
  dsimp only
  obtain ⟨hdigit, hmark⟩ := loose_not_xDigit b hb
  rw [heol, if_neg hbody, strtoul_digits hne hhex hvalue hdigit hmark]
  dsimp only
  rw [if_neg (Nat.not_lt_of_le hlimit), ← hrest, skipExtension_line]

/-- What is in the buffer stays there. -/
theorem aiDecodeChunkedLoop_keeps {fuel : Nat} {body buffer out : List Byte}
    (h : aiDecodeChunkedLoop fuel body buffer = some (some out)) : buffer <+: out := by
  induction fuel generalizing body buffer with
  | zero => cases h
  | succ fuel ih =>
      rw [aiDecodeChunkedLoop] at h
      dsimp only at h
      split at h
      · cases h
        exact List.prefix_rfl
      split at h
      · cases h
      split at h
      · cases h
      split at h
      · cases h
      split at h
      · cases h
        exact List.prefix_rfl
      · exact (List.prefix_append _ _).trans (ih h)

theorem hexValue_zeros {size : List Byte} (h : ∀ b ∈ size, b = 0x30) : hexValue size = 0 := by
  have hfold : ∀ n, n = 0 → size.foldl (fun n b => n * 16 + (hexVal b).getD 0) n = 0 := by
    induction size with
    | nil => exact fun n hn => hn
    | cons b size ih =>
        obtain ⟨rfl, hrest⟩ := List.forall_mem_cons.mp h
        rintro n rfl
        exact ih hrest _ rfl
  exact hfold 0 rfl

/-- The decoder does not step into the data. -/
def Chunk.Firm (chunk : Chunk) : Prop := ∀ b ∈ chunk.data.head?, isLoose b = false

theorem Chunk.firm_iff {chunk : Chunk} {b : Byte} {data : List Byte} (h : chunk.data = b :: data) :
    chunk.Firm ↔ isLoose b = false := by
  rw [Firm, h]
  simp

theorem encode_cons (chunk : Chunk) (chunks : List Chunk) (last : LastChunk) :
    encode (chunk :: chunks) last =
      chunk.size ++ (chunk.extension.text ++
        (crlf ++ (chunk.data ++ (crlf ++ encode chunks last)))) := by
  simp only [encode, Chunk.encode, List.flatMap_cons, List.append_assoc]

/-- The loop over the chunks, by induction on them: the buffer holds the data of those that
were read, and between two of them stands the end of a line. -/
theorem aiDecodeChunkedLoop_chunks (chunks : List Chunk) (last : LastChunk) {gap : List Byte}
    (hgap : ∀ b ∈ gap, isEol b = true) {fuel : Nat} (hfuel : chunks.length < fuel)
    (buffer : List Byte) :
    aiDecodeChunkedLoop fuel (gap ++ encode chunks last) buffer =
        some (some (buffer ++ chunks.flatMap Chunk.data)) ↔ ∀ chunk ∈ chunks, chunk.Firm := by
  obtain ⟨fuel, rfl⟩ := Nat.exists_eq_succ_of_ne_zero (Nat.ne_of_gt (Nat.zero_lt_of_lt hfuel))
  induction chunks generalizing gap fuel buffer with
  | nil =>
      obtain ⟨hne, hzero⟩ := last.sized
      have hvalue := hexValue_zeros hzero
      have hhex : ∀ b ∈ last.size, isXDigit b = true := fun b hb => by
        rw [hzero b hb]
        decide
      have hround := aiDecodeChunkedLoop_size hne hhex (hvalue ▸ Nat.zero_le _) last.extension hgap
        fuel last.trailer buffer
      rw [hvalue, if_neg (Nat.not_lt_zero _), if_pos rfl] at hround
      rw [encode, List.flatMap_nil, List.nil_append, LastChunk.encode, hround]
      simp
  | cons chunk chunks ih =>
      obtain ⟨b, data, hdata⟩ := List.exists_cons_of_ne_nil chunk.nonempty
      have hpos : chunk.data.length ≠ 0 := by simp [hdata]
      have hround := aiDecodeChunkedLoop_size chunk.sized.1 chunk.sized.2
        (chunk.counted ▸ chunk.limited) chunk.extension hgap fuel
        (chunk.data ++ (crlf ++ encode chunks last)) buffer
      rw [chunk.counted, if_neg hpos] at hround
      rw [encode_cons, hround, List.forall_mem_cons, chunk.firm_iff hdata]
      by_cases hb : isLoose b = true
      · -- The first byte that is put into the buffer is not the first one of the data.
        simp only [hb, Bool.true_eq_false, false_and, iff_false]
        intro hread
        split at hread
        · cases hread
        next hlong =>
          have hkeeps := aiDecodeChunkedLoop_keeps hread
          rw [List.prefix_append_right_inj, List.flatMap_cons, hdata] at hkeeps
          cases hrest : (b :: data ++ (crlf ++ encode chunks last)).dropWhile isLoose with
          | nil =>
              rw [hdata, hrest] at hlong
              simp at hlong
          | cons e rest =>
              have he : isLoose e = false := by
                have hhead := List.head?_dropWhile_not isLoose
                  (b :: data ++ (crlf ++ encode chunks last))
                rw [hrest] at hhead
                simpa using hhead
              rw [hrest] at hkeeps
              simp only [List.length_cons, List.take_succ_cons, List.cons_append,
                List.cons_prefix_cons] at hkeeps
              rw [hkeeps.1, hb] at he
              cases he
      · rw [Bool.not_eq_true] at hb
        have hfirm : (chunk.data ++ (crlf ++ encode chunks last)).dropWhile isLoose =
            chunk.data ++ (crlf ++ encode chunks last) := by
          rw [hdata]
          exact List.dropWhile_cons_of_neg (by simp [hb])
        have hfits : ¬ (chunk.data ++ (crlf ++ encode chunks last)).length < chunk.data.length := by
          simp
        obtain ⟨fuel, rfl⟩ := Nat.exists_eq_succ_of_ne_zero (n := fuel) (by
          rw [List.length_cons] at hfuel
          omega)
        have hnext := ih crlf_eol (buffer ++ chunk.data) fuel
          (by rw [List.length_cons] at hfuel; omega)
        rw [hfirm, if_neg hfits, List.drop_left, List.take_left, List.flatMap_cons,
          ← List.append_assoc buffer, hnext]
        simp [hb]

/-- **What is sent in chunks is decoded.**  The decoder comes to an end on every sequence of
bytes.  The encoding of some chunks is decoded as their data, one behind the other, if and
only if no chunk begins with a carriage return, a line feed or a semicolon. -/
theorem decode_chunked_iff (chunks : List Chunk) (last : LastChunk) :
    (∀ body, (aiDecodeChunked body).isSome) ∧
      (aiDecodeChunked (encode chunks last) = some (some (chunks.flatMap Chunk.data)) ↔
        ∀ chunk ∈ chunks, chunk.Firm) := by
  refine ⟨fun body => aiDecodeChunkedLoop_ends _ body [] (Nat.lt_succ_self _), ?_⟩
  have hfuel : chunks.length < (encode chunks last).length + 1 := by
    have hlength : ∀ chunks : List Chunk, chunks.length ≤ (encode chunks last).length := by
      intro chunks
      induction chunks with
      | nil => exact Nat.zero_le _
      | cons chunk chunks ih =>
          rw [encode_cons]
          simp only [List.length_append, List.length_cons, crlf]
          omega
    exact Nat.lt_succ_of_le (hlength chunks)
  exact aiDecodeChunkedLoop_chunks chunks last (List.forall_mem_nil _) hfuel []

def noExtension : Extension := ⟨[], Or.inl rfl, by simp⟩

/-- A chunk that is a line feed, and the last chunk. -/
def lineChunk : Chunk where
  size := [0x31]
  extension := noExtension
  data := [0x0A]
  sized := by decide +kernel
  counted := by decide
  nonempty := by decide
  limited := by simp [AI_MAX_RESPONSE_SIZE]

def lastZero : LastChunk := ⟨[0x30], noExtension, crlf, by simp⟩

/-- The line feed is taken for a part of the line with the size, and the `0` of the last chunk
for the data. -/
theorem decode_chunked_line :
    aiDecodeChunked (encode [lineChunk] lastZero) = some (some [0x30]) ∧
      [lineChunk].flatMap Chunk.data = [0x0A] := by
  decide

end Ai
