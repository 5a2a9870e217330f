import Mathlib
import Zzdwm.Lib.Utf8
import Zzdwm.Dwm.Config

/-!
# Cutting a title short (`util.c`)

`utf8trunc`, which the bar uses on the name of the selected client.  A buffer is
the list of its bytes, and a store outside the buffer has no result.

* `truncStores` — the stores of `utf8trunc`, in order;
* `Truncates` — what they are to do to the string in the buffer;
* `utf8trunc_truncates_iff` — when they do, for every string and limit.
-/

namespace Dwm

open Utf8

/-- The string in a buffer: what stands before the first `'\0'`. -/
def cstring (s : List UInt8) : List UInt8 := s.takeWhile (· ≠ 0)

/-- `strlen`. -/
def strlen (s : List UInt8) : Nat := (cstring s).length

/-- `s[i] = b`, `none` where `i` is outside the buffer. -/
def store (s : List UInt8) (i : Int) (b : UInt8) : Option (List UInt8) :=
  if 0 ≤ i ∧ i < s.length then some (s.set i.toNat b) else none

/-- The loop of `utf8trunc` that moves back over continuation bytes. -/
def scanBack (s : List UInt8) : Nat → Nat
  | 0 => 0
  | pos + 1 => if s.getD (pos + 1) 0 &&& 0xC0 = 0x80 then scanBack s pos else pos + 1

/-- `'.'`. -/
def dot : UInt8 := 0x2E

/-- The stores of `utf8trunc`, in order. -/
def truncStores (s : List UInt8) (bytes : Nat) : List (Int × UInt8) :=
  if bytes = 0 ∨ strlen s ≤ bytes then []
  else
    let pos := scanBack s bytes
    ((pos : Int), 0) :: [1, 2, 3].map fun (i : Nat) => ((pos : Int) - i, dot)

/-- `utf8trunc`. -/
def utf8trunc (s : List UInt8) (bytes : Nat) : Option (List UInt8) :=
  (truncStores s bytes).foldlM (fun s w => store s w.1 w.2) s

variable {s t : List UInt8} {bytes p k : Nat}

/-! ## The scan -/

/-- The last byte up to the limit that begins a character stands at `p`. -/
structure CutAt (s : List UInt8) (bytes p : Nat) : Prop where
  le : p ≤ bytes
  starts : continues (s.getD p 0) = false
  later : ∀ q, p < q → q ≤ bytes → continues (s.getD q 0) = true

theorem scanBack_spec (s : List UInt8) (bytes : Nat) :
    scanBack s bytes ≤ bytes ∧ (0 < scanBack s bytes → continues (s.getD (scanBack s bytes) 0) = false) ∧
      ∀ q, scanBack s bytes < q → q ≤ bytes → continues (s.getD q 0) = true := by
  induction bytes with
  | zero => exact ⟨Nat.le_refl 0, fun h => absurd h (Nat.lt_irrefl 0), fun q hlo hhi => by omega⟩
  | succ n ih =>
      rw [scanBack]
      split
      · rename_i hc
        refine ⟨Nat.le_succ_of_le ih.1, ih.2.1, fun q hlo hhi => ?_⟩
        rcases Nat.lt_or_eq_of_le hhi with hlt | rfl
        · exact ih.2.2 q hlo (Nat.le_of_lt_succ hlt)
        · exact decide_eq_true hc
      · rename_i hc
        exact ⟨Nat.le_refl _, fun _ => decide_eq_false hc, fun q hlo hhi => by omega⟩

/-- The scan stops where the text may be cut, unless it runs into the start of
the buffer. -/
theorem CutAt.scanBack_eq (h : CutAt s bytes p) (hp : 0 < p) : scanBack s bytes = p := by
  obtain ⟨hle, hstart, hlater⟩ := scanBack_spec s bytes
  rcases Nat.lt_trichotomy (scanBack s bytes) p with hlt | heq | hgt
  · have := hlater p hlt h.le
    rw [h.starts] at this
    cases this
  · exact heq
  · have := h.later _ hgt hle
    rw [hstart (Nat.lt_trans hp hgt)] at this
    cases this

theorem cutAt_scanBack (h : 0 < scanBack s bytes) : CutAt s bytes (scanBack s bytes) :=
  ⟨(scanBack_spec s bytes).1, (scanBack_spec s bytes).2.1 h, (scanBack_spec s bytes).2.2⟩

/-! ## The stores -/

/-- The string in a buffer is a first part of it. -/
theorem cstring_eq_take (s : List UInt8) : cstring s = s.take (strlen s) := by
  have hpart : cstring s <+: s := List.takeWhile_prefix _
  exact List.prefix_iff_eq_take.mp hpart

theorem zero_not_mem_cstring (s : List UInt8) : (0 : UInt8) ∉ cstring s := by
  intro h
  have := List.mem_takeWhile_imp h
  simp at this

theorem cstring_append (l r : List UInt8) (hl : (0 : UInt8) ∉ l) : cstring (l ++ 0 :: r) = l := by
  have hall : ∀ b ∈ l, (decide (b ≠ 0)) = true := by
    intro b hb
    exact decide_eq_true fun h0 => hl (h0 ▸ hb)
  rw [cstring, List.takeWhile_append_of_pos hall, List.takeWhile_cons_of_neg (by simp),
    List.append_nil]

theorem take_cstring (h : k ≤ strlen s) : (cstring s).take k = s.take k := by
  rw [cstring_eq_take, List.take_take, Nat.min_eq_left h]

/-- The text that is left: a first part and three dots. -/
def dotted (s : List UInt8) (p : Nat) : List UInt8 := s.take (p - 3) ++ [dot, dot, dot]

/-- The buffer after the four stores at and before `p`. -/
def cutBuffer (s : List UInt8) (p : Nat) : List UInt8 := dotted s p ++ 0 :: s.drop (p + 1)

theorem store_at (l r : List UInt8) (a b : UInt8) {i : Int} (hi : i = l.length) :
    store (l ++ a :: r) i b = some (l ++ b :: r) := by
  have hin : 0 ≤ i ∧ i < (l ++ a :: r).length := by
    simp only [List.length_append, List.length_cons]
    omega
  rw [store, if_pos hin, hi, Int.toNat_natCast, List.set_append_right _ _ (Nat.le_refl _), Nat.sub_self]
  rfl

/-- The four stores, where they fall into the buffer. -/
theorem stores_cut (h3 : 3 ≤ p) (hp : p < s.length) :
    (((p : Int), 0) :: [1, 2, 3].map fun (i : Nat) => ((p : Int) - i, dot)).foldlM
      (fun s w => store s w.1 w.2) s = some (cutBuffer s p) := by
  obtain ⟨k, rfl⟩ := Nat.exists_eq_add_of_le' h3
  obtain ⟨l, a, b, c, d, r, hl, rfl⟩ : ∃ l a b c d r, l.length = k ∧ s = l ++ a :: b :: c :: d :: r := by
    refine ⟨s.take k, s[k], s[k + 1], s[k + 2], s[k + 3], s.drop (k + 4), ?_, ?_⟩
    · rw [List.length_take]
      omega
    · rw [← List.drop_eq_getElem_cons, ← List.drop_eq_getElem_cons, ← List.drop_eq_getElem_cons,
        ← List.drop_eq_getElem_cons, List.take_append_drop]
  subst hl
  have hdots : [1, 2, 3].map (fun (i : Nat) => (((l.length + 3 : Nat) : Int) - i, dot)) =
      [((l.length : Int) + 2, dot), ((l.length : Int) + 1, dot), ((l.length : Int), dot)] := by
    simp only [List.map, List.cons.injEq, Prod.mk.injEq, and_true]
    omega
  have hnul := store_at (l ++ [a, b, c]) r d 0 (i := ((l.length + 3 : Nat) : Int)) (by simp)
  have hone := store_at (l ++ [a, b]) (0 :: r) c dot (i := (l.length : Int) + 2) (by simp)
  have htwo := store_at (l ++ [a]) (dot :: 0 :: r) b dot (i := (l.length : Int) + 1) (by simp)
  have hthree := store_at l (dot :: dot :: 0 :: r) a dot rfl
  simp only [List.append_assoc, List.cons_append, List.nil_append] at hnul hone htwo
  have hcut : cutBuffer (l ++ a :: b :: c :: d :: r) (l.length + 3) =
      l ++ dot :: dot :: dot :: 0 :: r := by
    have hdrop : (l ++ a :: b :: c :: d :: r).drop (l.length + 3 + 1) = r := by
      rw [Nat.add_assoc, List.drop_length_add_append]
      rfl
    rw [cutBuffer, dotted, hdrop, Nat.add_sub_cancel, List.take_left]
    simp
  rw [hdots, hcut, List.foldlM_cons, hnul]
  change (store _ _ _).bind _ = _
  rw [hone]
  change (store _ _ _).bind _ = _
  rw [htwo]
  change (store _ _ _).bind _ = _
  rw [hthree]
  rfl

/-! ## The cut -/

theorem strlen_lt (h : 0 ∈ s) : strlen s < s.length := by
  refine lt_of_le_of_ne (List.takeWhile_prefix _).length_le fun heq => ?_
  have hall : cstring s = s := by
    rw [cstring_eq_take, heq, List.take_length]
  exact zero_not_mem_cstring s (hall.symm ▸ h)

theorem cstring_cutBuffer (h3 : 3 ≤ p) (hp : p < strlen s) : cstring (cutBuffer s p) = dotted s p := by
  refine cstring_append _ _ fun hmem => ?_
  rcases List.mem_append.mp hmem with htake | hdots
  · rw [← take_cstring (Nat.le_of_lt (by omega))] at htake
    exact zero_not_mem_cstring s (List.mem_of_mem_take htake)
  · exact absurd hdots (by decide)

/-- The three dots leave whole characters if the byte that they begin at begins
a character. -/
theorem valid_dotted_iff (hv : Valid (cstring s)) (hp : p < strlen s) :
    Valid (dotted s p) ↔ continues (s.getD (p - 3) 0) = false := by
  have hk : p - 3 < (cstring s).length := by
    change p - 3 < strlen s
    omega
  have hdots : Valid [dot, dot, dot] := valid_chars ['.', '.', '.']
  have hbyte : (cstring s)[p - 3] = s.getD (p - 3) 0 := by
    have hlt : p - 3 < s.length :=
      Nat.lt_of_lt_of_le hk (List.takeWhile_prefix _).length_le
    rw [List.getD_eq_getElem?_getD, List.getElem?_eq_getElem hlt, Option.getD_some]
    exact (List.takeWhile_prefix _).getElem hk
  rw [dotted, valid_append_iff hdots, ← take_cstring (Nat.le_of_lt hk), valid_take_iff hv hk, hbyte]

/-- What `utf8trunc` is to do to the string in a buffer. -/
structure Truncates (bytes : Nat) (s : List UInt8) : Prop where
  inside : ∀ w ∈ truncStores s bytes, 0 ≤ w.1 ∧ w.1 ≤ strlen s
  short : strlen s ≤ bytes → utf8trunc s bytes = some s
  long : bytes < strlen s → ∃ t k, utf8trunc s bytes = some t ∧ strlen t ≤ bytes ∧
    cstring t = (cstring s).take k ++ [dot, dot, dot] ∧ (Valid (cstring s) → Valid (cstring t))

/-- The last byte up to the limit that begins a character has three bytes before
it, and in a valid string these three begin with a whole character. -/
def Cuttable (bytes : Nat) (s : List UInt8) : Prop :=
  ∃ p, 3 ≤ p ∧ CutAt s bytes p ∧ (Valid (cstring s) → continues (s.getD (p - 3) 0) = false)

/-- A string that is short enough. -/
theorem truncates_short (h : strlen s ≤ bytes) : Truncates bytes s := by
  have hnone : truncStores s bytes = [] := if_pos (Or.inr h)
  refine ⟨fun w hw => ?_, fun _ => ?_, fun hlt => absurd hlt (Nat.not_lt_of_le h)⟩
  · rw [hnone] at hw
    cases hw
  · rw [utf8trunc, hnone]
    rfl

theorem truncStores_long (hb : bytes ≠ 0) (h : bytes < strlen s) :
    truncStores s bytes = ((scanBack s bytes : Int), 0) ::
      [1, 2, 3].map fun (i : Nat) => ((scanBack s bytes : Int) - i, dot) :=
  if_neg fun hor => hor.elim hb (Nat.not_le_of_lt h)

/-- A string that is cut where it may be. -/
theorem truncates_of_cutAt (h : bytes < strlen s) (h3 : 3 ≤ p) (hcut : CutAt s bytes p)
    (hv : Valid (cstring s) → continues (s.getD (p - 3) 0) = false) : Truncates bytes s := by
  have hpos : scanBack s bytes = p := hcut.scanBack_eq (by omega)
  have hle := hcut.le
  have hp : p < strlen s := Nat.lt_of_le_of_lt hle h
  have hlong := truncStores_long (by omega : bytes ≠ 0) h
  rw [hpos] at hlong
  have hsize : strlen s ≤ s.length := (List.takeWhile_prefix _).length_le
  refine ⟨?_, fun hs => absurd h (Nat.not_lt_of_le hs), fun _ => ?_⟩
  · intro w hw
    rw [hlong] at hw
    simp only [List.map, List.mem_cons, List.not_mem_nil, or_false] at hw
    rcases hw with rfl | rfl | rfl | rfl <;> dsimp only <;> omega
  · refine ⟨cutBuffer s p, p - 3, ?_, ?_, ?_, ?_⟩
    · rw [utf8trunc, hlong]
      exact stores_cut h3 (Nat.lt_of_lt_of_le hp hsize)
    · rw [strlen, cstring_cutBuffer h3 hp, dotted, List.length_append, List.length_take]
      simp only [List.length_cons, List.length_nil]
      omega
    · rw [cstring_cutBuffer h3 hp, dotted, take_cstring (by omega)]
    · intro hvalid
      rw [cstring_cutBuffer h3 hp]
      exact (valid_dotted_iff hvalid hp).mpr (hv hvalid)

/-- What a proper cut of a long string says about it. -/
theorem Truncates.cuttable (h : Truncates bytes s) (hnul : 0 ∈ s) (hb : bytes ≠ 0)
    (hlt : bytes < strlen s) : Cuttable bytes s := by
  have hlong := truncStores_long hb hlt
  have hlast := h.inside ((scanBack s bytes : Int) - (3 : Nat), dot) (by
    rw [hlong]
    simp)
  have h3 : 3 ≤ scanBack s bytes := by
    have := hlast.1
    dsimp only at this
    omega
  have hcut : CutAt s bytes (scanBack s bytes) := cutAt_scanBack (by omega)
  have hp : scanBack s bytes < strlen s := Nat.lt_of_le_of_lt hcut.le hlt
  refine ⟨_, h3, hcut, fun hv => ?_⟩
  obtain ⟨t, k, ht, -, -, hvalid⟩ := h.long hlt
  rw [utf8trunc, hlong, stores_cut h3 (Nat.lt_trans hp (strlen_lt hnul))] at ht
  have htext := hvalid hv
  rw [← Option.some.inj ht, cstring_cutBuffer h3 hp] at htext
  exact (valid_dotted_iff hv hp).mp htext

/-- **When a title is cut properly.**  With a limit of at least three bytes,
`utf8trunc` does what it is to do exactly if the string is short enough or may be
cut. -/
theorem utf8trunc_truncates_iff (hnul : 0 ∈ s) (hb : 3 ≤ bytes) :
    Truncates bytes s ↔ strlen s ≤ bytes ∨ Cuttable bytes s := by
  constructor
  · intro h
    by_cases hlen : strlen s ≤ bytes
    · exact Or.inl hlen
    · exact Or.inr (h.cuttable hnul (by omega) (Nat.lt_of_not_le hlen))
  · intro hor
    by_cases hlen : strlen s ≤ bytes
    · exact truncates_short hlen
    · obtain ⟨p, h3, hcut, hv⟩ := hor.resolve_left hlen
      exact truncates_of_cutAt (Nat.lt_of_not_le hlen) h3 hcut hv

/-! ## The title in the bar -/

/-- The limit that `drawbar` passes, `MIN(maxtitle, sizeof(m->sel->name))`. -/
def titlelimit : Nat := min 75 256

/-- A name of 80 letters in its buffer of 256 bytes. -/
def letters : List UInt8 := List.replicate 80 0x61 ++ List.replicate 176 0

/-- A name of 79 letters, the second byte of an é standing at offset 72. -/
def accented : List UInt8 :=
  List.replicate 71 0x61 ++ [0xC3, 0xA9] ++ List.replicate 7 0x61 ++ List.replicate 176 0

theorem utf8trunc_truncates_letters : Truncates titlelimit letters := by
  refine (utf8trunc_truncates_iff (by decide) (by decide)).mpr (Or.inr ⟨75, by decide, ?_, ?_⟩)
  · exact ⟨by decide, by decide, fun q hlo hhi => absurd hhi (Nat.not_le_of_lt hlo)⟩
  · intro _
    decide

/-- The dots of the bar take the second byte of the é and leave the first. -/
theorem utf8trunc_splits_character : ¬ ∀ s bytes, 0 ∈ s → 3 ≤ bytes → bytes < s.length →
    Truncates bytes s := by
  intro h
  have hv : Valid (cstring accented) := by
    have hchars : cstring accented =
        (List.replicate 71 'a' ++ ['é'] ++ List.replicate 7 'a').flatMap String.utf8EncodeChar := by
      decide
    rw [hchars]
    exact valid_chars _
  have hlen : titlelimit < strlen accented := by decide
  obtain ⟨t, k, ht, -, -, hvalid⟩ :=
    (h accented titlelimit (by decide) (by decide) (by decide +kernel)).long hlen
  have hcut : utf8trunc accented titlelimit = some (cutBuffer accented 75) := by decide +kernel
  rw [hcut] at ht
  have htext := hvalid hv
  rw [← Option.some.inj ht, cstring_cutBuffer (by decide) (by decide),
    valid_dotted_iff hv (by decide)] at htext
  exact absurd htext (by decide)

end Dwm
