import Mathlib

/-!
# UTF-8 in lines (`utf8.c`)

A line is a sequence of bytes, and the editor counts in characters.  It finds
the length of a character from its first byte alone.  Where it walks over a line
by characters, the model stops at the end of the bytes; the source never walks
further in a line of whole characters.

* `uputc_isUChar` — what `uputc` stores is one character;
* `unslen_flatten`, `uoffset_flatten`, `uchars_flatten` — counting and cutting
  where the bytes are those of whole characters.
-/

namespace Emacs

abbrev Byte := UInt8

/-- `'\n'`. -/
def newline : Byte := 10

/-- `uclen`, which looks at the first byte only. -/
def uclen (c : Byte) : Nat :=
  if c < 0x80 then 1
  else if c ≥ 0xc0 ∧ c ≤ 0xdf then 2
  else if c ≥ 0xe0 ∧ c ≤ 0xef then 3
  else if c ≥ 0xf0 ∧ c ≤ 0xf7 then 4
  else if c ≥ 0xf8 ∧ c ≤ 0xfb then 5
  else if c ≥ 0xfc ∧ c ≤ 0xfd then 6
  else 1

/-- `uoffset`. -/
def uoffset : List Byte → Nat → Nat
  | _, 0 => 0
  | [], _ + 1 => 0
  | b :: s, n + 1 => uclen b + uoffset ((b :: s).drop (uclen b)) n

/-- `unblen`, the same loop. -/
def unblen (s : List Byte) (n : Nat) : Nat := uoffset s n

/-- The loop of `unslen`; every round passes at least one byte. -/
def unslenLoop : Nat → List Byte → Nat
  | 0, _ => 0
  | _ + 1, [] => 0
  | f + 1, b :: s => unslenLoop f ((b :: s).drop (uclen b)) + 1

/-- `unslen`. -/
def unslen (s : List Byte) : Nat := unslenLoop s.length s

/-- The byte `0x80 | (x & 0x3f)`. -/
def trail (x : Nat) : Byte := UInt8.ofNat (0x80 ||| (x &&& 0x3f))

/-- `uputc`. -/
def uputc (c : Nat) : List Byte :=
  if c < 0x80 then [UInt8.ofNat c]
  else if c ≤ 0x7ff then [UInt8.ofNat (0xc0 ||| (c >>> 6 &&& 0x1f)), trail c]
  else if c ≤ 0xffff then
    [UInt8.ofNat (0xe0 ||| (c >>> 12 &&& 0x0f)), trail (c >>> 6), trail c]
  else if c ≤ 0x1fffff then
    [UInt8.ofNat (0xf0 ||| (c >>> 18 &&& 0x07)), trail (c >>> 12), trail (c >>> 6), trail c]
  else if c ≤ 0x3ffffff then
    [UInt8.ofNat (0xf8 ||| (c >>> 24 &&& 0x03)), trail (c >>> 18), trail (c >>> 12),
      trail (c >>> 6), trail c]
  else if c ≤ 0x7fffffff then
    [UInt8.ofNat (0xfc ||| (c >>> 30 &&& 0x01)), trail (c >>> 24), trail (c >>> 18),
      trail (c >>> 12), trail (c >>> 6), trail c]
  else [UInt8.ofNat c]

/-! ## Whole characters -/

/-- The bytes of one character: as many as the first one announces, and no newline
after it. -/
def IsUChar : List Byte → Prop
  | [] => False
  | b :: t => uclen b = t.length + 1 ∧ newline ∉ t

instance : DecidablePred IsUChar
  | [] => inferInstanceAs (Decidable False)
  | b :: t => inferInstanceAs (Decidable (uclen b = t.length + 1 ∧ newline ∉ t))

/-- Whole characters. -/
def AllUChars (cs : List (List Byte)) : Prop := ∀ c ∈ cs, IsUChar c

theorem AllUChars.append {cs ds : List (List Byte)} (h : AllUChars cs) (h' : AllUChars ds) :
    AllUChars (cs ++ ds) := fun c hc => (List.mem_append.mp hc).elim (h c) (h' c)

theorem AllUChars.left {cs ds : List (List Byte)} (h : AllUChars (cs ++ ds)) : AllUChars cs :=
  fun c hc => h c (List.mem_append_left _ hc)

theorem AllUChars.right {cs ds : List (List Byte)} (h : AllUChars (cs ++ ds)) : AllUChars ds :=
  fun c hc => h c (List.mem_append_right _ hc)

theorem AllUChars.replicate {c : List Byte} (h : IsUChar c) (n : Nat) :
    AllUChars (List.replicate n c) := fun _ hd => List.eq_of_mem_replicate hd ▸ h

theorem AllUChars.take {cs : List (List Byte)} (h : AllUChars cs) (n : Nat) :
    AllUChars (cs.take n) := fun c hc => h c (List.mem_of_mem_take hc)

theorem AllUChars.drop {cs : List (List Byte)} (h : AllUChars cs) (n : Nat) :
    AllUChars (cs.drop n) := fun c hc => h c (List.mem_of_mem_drop hc)

theorem trail_ne_newline (x : Nat) : trail x ≠ newline := by
  have hall : ∀ y < 64, UInt8.ofNat (0x80 ||| y) ≠ newline := by decide
  exact hall _ (Nat.lt_of_le_of_lt Nat.and_le_right (by decide))

/-- The first byte `base | (x & mask)` announces `n` bytes. -/
theorem uclen_lead {base mask n : Nat} (x : Nat)
    (hall : ∀ y ≤ mask, uclen (UInt8.ofNat (base ||| y)) = n) :
    uclen (UInt8.ofNat (base ||| (x &&& mask))) = n := hall _ Nat.and_le_right

theorem isUChar_cons {b : Byte} {t : List Byte} (h : uclen b = t.length + 1)
    (ht : ∀ x ∈ t, ∃ y, x = trail y) : IsUChar (b :: t) := by
  refine ⟨h, fun hmem => ?_⟩
  obtain ⟨y, hy⟩ := ht _ hmem
  exact trail_ne_newline y hy.symm

/-- **`uputc`** stores the bytes of one character, unless the number is too large
for six of them. -/
theorem uputc_isUChar {c : Nat} (h : c ≤ 0x7fffffff) : IsUChar (uputc c) := by
  unfold uputc
  split
  · rename_i hc
    have hall : ∀ c < 0x80, uclen (UInt8.ofNat c) = 1 := by decide
    exact ⟨hall c hc, List.not_mem_nil⟩
  · split
    · exact isUChar_cons (uclen_lead (n := 2) _ (by decide)) (by simp)
    · split
      · exact isUChar_cons (uclen_lead (n := 3) _ (by decide)) (by simp)
      · split
        · exact isUChar_cons (uclen_lead (n := 4) _ (by decide)) (by simp)
        · split
          · exact isUChar_cons (uclen_lead (n := 5) _ (by decide)) (by simp)
          · exact isUChar_cons (uclen_lead (n := 6) _ (by decide)) (by simp)

/-- A character in front of some bytes is as long as it announces. -/
theorem IsUChar.uclen_eq {b : Byte} {t : List Byte} (h : IsUChar (b :: t)) :
    uclen b = (b :: t).length := h.1

theorem IsUChar.ne_nil {c : List Byte} (h : IsUChar c) : c ≠ [] := by
  rintro rfl
  exact h

theorem AllUChars.length_le {cs : List (List Byte)} (h : AllUChars cs) :
    cs.length ≤ cs.flatten.length := by
  induction cs with
  | nil => exact Nat.zero_le _
  | cons c cs ih =>
      have hc : 0 < c.length := List.length_pos_iff.mpr (h c List.mem_cons_self).ne_nil
      have hcs := ih fun d hd => h d (List.mem_cons_of_mem _ hd)
      rw [List.flatten_cons, List.length_append, List.length_cons]
      omega

theorem unslenLoop_flatten {cs : List (List Byte)} (h : AllUChars cs) {f : Nat}
    (hf : cs.length ≤ f) : unslenLoop f cs.flatten = cs.length := by
  induction cs generalizing f with
  | nil => cases f <;> rfl
  | cons c cs ih =>
      obtain ⟨f, rfl⟩ : ∃ k, f = k + 1 := ⟨f - 1, by simp at hf; omega⟩
      have hc := h c List.mem_cons_self
      cases c with
      | nil => exact absurd hc id
      | cons b t =>
          rw [List.flatten_cons, List.cons_append, unslenLoop, hc.uclen_eq, ← List.cons_append,
            List.drop_left, ih (fun d hd => h d (List.mem_cons_of_mem _ hd)) (by simpa using hf)]
          rfl

/-- **Counting** whole characters. -/
theorem unslen_flatten {cs : List (List Byte)} (h : AllUChars cs) :
    unslen cs.flatten = cs.length := unslenLoop_flatten h h.length_le

/-- **Cutting** whole characters. -/
theorem uoffset_flatten {cs : List (List Byte)} (h : AllUChars cs) (n : Nat) :
    uoffset cs.flatten n = (cs.take n).flatten.length := by
  induction n generalizing cs with
  | zero => simp [uoffset]
  | succ n ih =>
      cases cs with
      | nil => rfl
      | cons c cs =>
          have hc := h c List.mem_cons_self
          cases c with
          | nil => exact absurd hc id
          | cons b t =>
              rw [List.flatten_cons, List.cons_append, uoffset, hc.uclen_eq, ← List.cons_append,
                List.drop_left, ih fun d hd => h d (List.mem_cons_of_mem _ hd),
                List.take_succ_cons, List.flatten_cons, List.length_append]

theorem take_uoffset {cs : List (List Byte)} (h : AllUChars cs) (n : Nat) :
    cs.flatten.take (uoffset cs.flatten n) = (cs.take n).flatten := by
  rw [uoffset_flatten h]
  conv_lhs => rw [← List.take_append_drop n cs, List.flatten_append]
  simp

theorem drop_uoffset {cs : List (List Byte)} (h : AllUChars cs) (n : Nat) :
    cs.flatten.drop (uoffset cs.flatten n) = (cs.drop n).flatten := by
  rw [uoffset_flatten h]
  conv_lhs => rw [← List.take_append_drop n cs, List.flatten_append]
  simp

/-- The loop that cuts bytes into characters. -/
def ucharsLoop : Nat → List Byte → List (List Byte)
  | 0, _ => []
  | _ + 1, [] => []
  | f + 1, b :: s => (b :: s).take (uclen b) :: ucharsLoop f ((b :: s).drop (uclen b))

/-- The characters of some bytes, cut as the source counts them. -/
def uchars (s : List Byte) : List (List Byte) := ucharsLoop s.length s

theorem ucharsLoop_flatten {cs : List (List Byte)} (h : AllUChars cs) {f : Nat}
    (hf : cs.length ≤ f) : ucharsLoop f cs.flatten = cs := by
  induction cs generalizing f with
  | nil => cases f <;> rfl
  | cons c cs ih =>
      obtain ⟨f, rfl⟩ : ∃ k, f = k + 1 := ⟨f - 1, by simp at hf; omega⟩
      have hc := h c List.mem_cons_self
      cases c with
      | nil => exact absurd hc id
      | cons b t =>
          rw [List.flatten_cons, List.cons_append, ucharsLoop, hc.uclen_eq, ← List.cons_append,
            List.drop_left, List.take_left,
            ih (fun d hd => h d (List.mem_cons_of_mem _ hd)) (by simpa using hf)]

/-- **Reading** whole characters back. -/
theorem uchars_flatten {cs : List (List Byte)} (h : AllUChars cs) : uchars cs.flatten = cs :=
  ucharsLoop_flatten h h.length_le

/-- Bytes that are whole characters. -/
def Utf8 (s : List Byte) : Prop := ∃ cs, AllUChars cs ∧ s = cs.flatten

theorem Utf8.uchars {s : List Byte} (h : Utf8 s) :
    AllUChars (uchars s) ∧ (Emacs.uchars s).flatten = s := by
  obtain ⟨cs, hcs, rfl⟩ := h
  rw [uchars_flatten hcs]
  exact ⟨hcs, rfl⟩

end Emacs
