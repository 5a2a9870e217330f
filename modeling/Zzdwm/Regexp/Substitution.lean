import Zzdwm.Regexp.Searching

/-!
# Replacements (`regsub.c`)

A replacement is a template: `&` stands for what the pattern has matched, and `\1` to `\9`
for what its groups have.

* `regsub` — the template is written into a buffer;
* `template`, `expansion` — what it stands for;
* `regsub_expands` — **a match is expanded as the template says**, if there is room.
-/

namespace Regexp

open Ascii (Byte isDigit)
open Regular (Mark Matches record)

/-! ## The substitution -/

/-- `startp`; number 0 is the whole match. -/
def Found.startp (found : Found) (no : Nat) : Option Nat :=
  if no = 0 then some found.1 else found.2.spans.startp no

/-- `endp`. -/
def Found.endp (found : Found) (no : Nat) : Option Nat :=
  if no = 0 then some found.2.reginput else found.2.spans.endp no

/-- What `strncpy` writes: the string, filled up with zero bytes. -/
def strncpy (src : List Byte) (len : Nat) : List Byte :=
  src.take len ++ List.replicate (len - src.length) 0

section Source

-- the string that has been searched, the match, and the length of the buffer
variable (s : List Byte) (found : Found) (destlen : Nat)

/-- An ordinary character. -/
def putChar (c : Byte) (dst : List Byte) : Except String (List Byte) :=
  if destlen ≤ dst.length then .error "destination buffer too small" else .ok (dst ++ [c])

/-- What a group has matched. -/
def putGroup (no : Nat) (dst : List Byte) : Except String (List Byte) :=
  match found.startp no, found.endp no with
  | some a, some b =>
      if a < b then
        if destlen ≤ dst.length + (b - a) then .error "destination buffer too small"
        else
          let dst := dst ++ strncpy (s.drop a) (b - a)
          -- strncpy hit NUL
          if dst.getLast? = some 0 then .error "damaged match string" else .ok dst
      else .ok dst
  | _, _ => .ok dst

/-- The loop of `regsub`, `dst` being what has been written. -/
def regsubLoop : List Byte → List Byte → Except String (List Byte)
  | [], dst => if destlen ≤ dst.length then .error "destination buffer too small" else .ok dst
  | c :: src, dst =>
      if c = 0x26 then do regsubLoop src (← putGroup s found destlen 0 dst)
      else if c = 0x5C then
        match src with
        | [] => do regsubLoop [] (← putChar destlen c dst)
        | d :: rest =>
            if isDigit d then do
              regsubLoop rest (← putGroup s found destlen (d.toNat - 0x30) dst)
            else if d = 0x5C ∨ d = 0x26 then do regsubLoop rest (← putChar destlen d dst)
            else do regsubLoop (d :: rest) (← putChar destlen c dst)
      else do regsubLoop src (← putChar destlen c dst)

/-- `regsub`: the string that is left in the buffer. -/
def regsub (source : List Byte) : Except String (List Byte) :=
  regsubLoop s found destlen (source.takeWhile (· ≠ 0)) []

end Source

/-! ## Templates -/

inductive Part
  | char (c : Byte)
  | group (no : Nat)

/-- The parts of a template. -/
def template : List Byte → List Part
  | [] => []
  | c :: src =>
      if c = 0x26 then .group 0 :: template src
      else if c = 0x5C then
        match src with
        | [] => [.char c]
        | d :: rest =>
            if isDigit d then .group (d.toNat - 0x30) :: template rest
            else if d = 0x5C ∨ d = 0x26 then .char d :: template rest
            else .char c :: template (d :: rest)
      else .char c :: template src

/-- What a part stands for. -/
def Part.text (s : List Byte) (found : Found) : Part → List Byte
  | .char c => [c]
  | .group no =>
      match found.startp no, found.endp no with
      | some a, some b => (s.drop a).take (b - a)
      | _, _ => []

/-- What a template stands for. -/
def expansion (s : List Byte) (found : Found) (source : List Byte) : List Byte :=
  (template source).flatMap (Part.text s found)

/-! ## What is written -/

/-- What is recorded lies in the string. -/
def Found.Within (s : List Byte) (found : Found) : Prop :=
  ∀ no a b, found.startp no = some a → found.endp no = some b → a < b → b ≤ s.length

variable {s : List Byte} {found : Found} {destlen : Nat} {out : List Byte}
  {x : Except String (List Byte)}

/-- Something is written, or there is no room for it. -/
def Written (destlen : Nat) (x : Except String (List Byte)) (out : List Byte) : Prop :=
  x = .ok out ∨ x = .error "destination buffer too small" ∧ destlen ≤ out.length

/-- The string in the buffer, with room for its zero byte. -/
def filled (destlen : Nat) (out : List Byte) : Except String (List Byte) :=
  if out.length < destlen then .ok out else .error "destination buffer too small"

theorem putChar_written (c : Byte) (dst : List Byte) :
    Written destlen (putChar destlen c dst) (dst ++ [c]) := by
  rw [putChar]
  split
  · rename_i hfull
    refine .inr ⟨rfl, ?_⟩
    rw [List.length_append]
    exact Nat.le_add_right_of_le hfull
  · exact .inl rfl

theorem strncpy_within {a b : Nat} (hb : b ≤ s.length) :
    strncpy (s.drop a) (b - a) = (s.drop a).take (b - a) := by
  have hnone : b - a - (s.drop a).length = 0 := by
    rw [List.length_drop]
    omega
  rw [strncpy, hnone, List.replicate_zero, List.append_nil]

/-- **No group is damaged.** -/
theorem putGroup_written (hs : 0 ∉ s) (hin : found.Within s) (no : Nat) (dst : List Byte) :
    Written destlen (putGroup s found destlen no dst) (dst ++ Part.text s found (.group no)) := by
  rw [putGroup, Part.text]
  split
  · rename_i a b ha hb
    have hlen : ((s.drop a).take (b - a)).length = min (b - a) (s.length - a) := by
      rw [List.length_take, List.length_drop]
    split
    · rename_i hlt
      have hle := hin no a b ha hb hlt
      split
      · rename_i hfull
        refine .inr ⟨rfl, ?_⟩
        rw [List.length_append, hlen]
        omega
      · rw [strncpy_within hle]
        have hlast : (dst ++ (s.drop a).take (b - a)).getLast? ≠ some 0 := by
          intro hzero
          have hne : (s.drop a).take (b - a) ≠ [] := by
            refine List.ne_nil_of_length_pos ?_
            rw [hlen]
            omega
          rw [List.getLast?_append_of_ne_nil _ hne] at hzero
          exact hs (List.mem_of_mem_drop (List.mem_of_mem_take (List.mem_of_getLast? hzero)))
        rw [if_neg hlast]
        exact .inl rfl
    · rename_i hge
      have hnone : b - a = 0 := by omega
      rw [hnone, List.take_zero, List.append_nil]
      exact .inl rfl
  · rw [List.append_nil]
    exact .inl rfl

/-- Behind a part the rest is written. -/
theorem Written.bind (h : Written destlen x out) {k : List Byte → Except String (List Byte)}
    {rest : List Byte} (hk : ∀ dst, k dst = filled destlen (dst ++ rest)) :
    (x >>= k) = filled destlen (out ++ rest) := by
  rcases h with rfl | ⟨rfl, hfull⟩
  · exact hk out
  · rw [filled, if_neg]
    · rfl
    · rw [List.length_append]
      omega

theorem regsubLoop_nil (dst : List Byte) :
    regsubLoop s found destlen [] dst = filled destlen dst := by
  rw [regsubLoop, filled]
  split
  · rw [if_neg (by omega)]
  · rw [if_pos (by omega)]

theorem append_char (dst : List Byte) (c : Byte) (parts : List Part) :
    dst ++ (Part.char c :: parts).flatMap (Part.text s found) =
      dst ++ [c] ++ parts.flatMap (Part.text s found) := by
  rw [List.flatMap_cons, ← List.append_assoc]
  rfl

/-- **The template is written**, part after part. -/
theorem regsubLoop_eq (hs : 0 ∉ s) (hin : found.Within s) (src dst : List Byte) :
    regsubLoop s found destlen src dst =
      filled destlen (dst ++ (template src).flatMap (Part.text s found)) := by
  fun_induction template src generalizing dst with
  | case1 => rw [regsubLoop_nil, List.flatMap_nil, List.append_nil]
  | case2 src ih =>
      rw [regsubLoop.eq_def, List.flatMap_cons, ← List.append_assoc]
      dsimp only
      rw [if_pos rfl]
      exact (putGroup_written hs hin 0 dst).bind ih
  | case3 hamp =>
      rw [regsubLoop.eq_def, append_char]
      dsimp only
      rw [if_neg hamp, if_pos rfl]
      refine (putChar_written _ dst).bind fun dst => ?_
      rw [regsubLoop_nil, List.flatMap_nil, List.append_nil]
  | case4 d rest hdigit hamp ih =>
      rw [regsubLoop.eq_def, List.flatMap_cons, ← List.append_assoc]
      dsimp only
      rw [if_neg hamp, if_pos rfl, if_pos hdigit]
      exact (putGroup_written hs hin _ dst).bind ih
  | case5 d rest hdigit hquoted hamp ih =>
      rw [regsubLoop.eq_def, append_char]
      dsimp only
      rw [if_neg hamp, if_pos rfl, if_neg hdigit, if_pos hquoted]
      exact (putChar_written d dst).bind ih
  | case6 d rest hdigit hquoted hamp ih =>
      rw [regsubLoop.eq_def, append_char]
      dsimp only
      rw [if_neg hamp, if_pos rfl, if_neg hdigit, if_neg hquoted]
      exact (putChar_written _ dst).bind ih
  | case7 d rest hamp hquote ih =>
      rw [regsubLoop.eq_def, append_char]
      dsimp only
      rw [if_neg hamp, if_neg hquote]
      exact (putChar_written d dst).bind ih

/-! ## Matches -/

variable {exp : List Byte} {prog : Prog} {r : Exp} {i : Nat} {st : Input} {ms : List Mark}

/-- A match and its groups lie in the string. -/
theorem found_within (hm : Matches Class.mem s r i st.reginput ms)
    (hspans : st.spans = record ms .none) (hr : Regular.Unnested r) : Found.Within s (i, st) := by
  intro no a b ha hb hlt
  rw [Found.startp] at ha
  rw [Found.endp] at hb
  split at ha
  · rename_i hno
    rw [if_pos hno] at hb
    cases ha
    cases hb
    exact hm.bounds.2 hlt
  · rename_i hno
    rw [if_neg hno] at hb
    rcases hspans ▸ hm.genuine hr no with ⟨hnone, -⟩ | ⟨a', b', u, ns, ha', hb', -, hu, -⟩
    · rw [hnone] at ha
      cases ha
    · cases ha.symm.trans ha'
      cases hb.symm.trans hb'
      exact hu.bounds.2 hlt

/-- **A match is expanded as the template says**, or the buffer is too small for that: it is
never said that the match is damaged. -/
theorem regsub_expands (h : regcomp exp = .ok prog) (string : List Byte) :
    ∃ f₀, ∀ f, f₀ ≤ f → ∀ found, regexec f prog string = .ok (some found) →
      ∀ (source : List Byte) (destlen : Nat),
        regsub (string.takeWhile (· ≠ 0)) found destlen source =
          if (expansion (string.takeWhile (· ≠ 0)) found (source.takeWhile (· ≠ 0))).length < destlen
          then .ok (expansion (string.takeWhile (· ≠ 0)) found (source.takeWhile (· ≠ 0)))
          else .error "destination buffer too small" := by
  obtain ⟨r, m, hreads, hfits, hnotes⟩ := regcomp_notes h
  obtain ⟨f₀, hfound⟩ := hnotes.found hfits string
  refine ⟨f₀, fun f hf found hrun source destlen => ?_⟩
  obtain ⟨ms, hm, hspans⟩ := hfound f hf found.1 found.2 hrun
  exact regsubLoop_eq (zero_notMem_cut string) (found_within hm hspans hreads.unnested) _ []

/-- `(a*)b` in "xaab". -/
theorem regsub_expands_group : ∃ prog, regcomp [0x28, 0x61, 0x2A, 0x29, 0x62] = .ok prog ∧
    ∃ f₀, ∀ f, f₀ ≤ f → ∀ found, regexec f prog [0x78, 0x61, 0x61, 0x62] = .ok (some found) →
      ∀ (source : List Byte) (destlen : Nat),
        regsub [0x78, 0x61, 0x61, 0x62] found destlen source =
          if (expansion [0x78, 0x61, 0x61, 0x62] found (source.takeWhile (· ≠ 0))).length < destlen
          then .ok (expansion [0x78, 0x61, 0x61, 0x62] found (source.takeWhile (· ≠ 0)))
          else .error "destination buffer too small" := by
  obtain ⟨prog, h⟩ : ∃ prog, regcomp [0x28, 0x61, 0x2A, 0x29, 0x62] = .ok prog := ⟨_, rfl⟩
  exact ⟨prog, h, regsub_expands h _⟩

end Regexp
