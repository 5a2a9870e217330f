import Zzdwm.Emacs.Utf8

/-!
# Lines of a hex dump (`hexl.c`)

A dump line shows up to sixteen bytes of a file: an offset, the bytes in hex,
and the printable characters.  The layout of the hex area has three parameters.

* `hexlmakeline`, `hexlparseline` — writing a line and reading it back;
* `hexldisp_hexldisp` — the slot of a byte is found by an involution;
* `hexlhexcol_lt` — no two slots share a column;
* `hexlparseline_hexlmakeline` — **a line that was written is read back**, in
  every layout and for every number of bytes.
-/

namespace Emacs

def HEXLBYTES : Nat := 16
def HEXLDEFGROUP : Nat := 8
def HEXLWIDTH : Nat := 76
def HEXLASCII : Nat := 60

/-- The group sizes that `hexlsetgroup` accepts. -/
def groupSizes : List Nat := [1, 2, 4, 8, 16]

/-- `b_hexlgroup`, `b_hexlendian` and `b_hexlpacked`.  Only the layout that a
dump opens in is not packed. -/
structure HexlLayout where
  group : Nat
  endian : Bool
  packed : Bool
  size : group ∈ groupSizes
  gnu : packed = false → group = HEXLDEFGROUP

/-- `hexldigit[v]`. -/
def hexldigit (v : Nat) : Byte := if v < 10 then UInt8.ofNat (48 + v) else UInt8.ofNat (87 + v)

/-- `hexlhexval`, `none` being -1. -/
def hexlhexval (c : Byte) : Option Nat :=
  if 48 ≤ c ∧ c ≤ 57 then some (c.toNat - 48)
  else if 97 ≤ c ∧ c ≤ 102 then some (c.toNat - 97 + 10)
  else if 65 ≤ c ∧ c ≤ 70 then some (c.toNat - 65 + 10)
  else none

/-- `hexlhexcol`. -/
def hexlhexcol (d group : Nat) (packed : Bool) : Nat :=
  if !packed then 10 + 3 * d + d / group
  else 10 + group / 2 + d / group * 3 * group + 2 * (d % group)

/-- `hexldisp`.  A group that the end of the file cuts short is reversed within
the bytes that it has. -/
def hexldisp (i n group : Nat) (endian : Bool) : Nat :=
  let base := i - i % group
  let size := if base + group > n then n - base else group
  if !endian || size < 2 then i else base + size - 1 - (i - base)

/-- The column of a slot. -/
def HexlLayout.col (l : HexlLayout) (d : Nat) : Nat := hexlhexcol d l.group l.packed

/-- The slot of a byte. -/
def HexlLayout.disp (l : HexlLayout) (n i : Nat) : Nat := hexldisp i n l.group l.endian

/-- A `char` array that a line is written to. -/
abbrev Cells := Nat → Byte

/-- The loop over the digits of the offset: `i + 1` digits are still to be
written. -/
def hexloffset : Nat → Nat → Cells → Cells
  | 0, _, buf => buf
  | i + 1, offset, buf =>
      hexloffset i (offset >>> 4) (Function.update buf i (hexldigit (offset &&& 0xf)))

/-- What the ASCII area shows for a byte. -/
def printable (b : Byte) : Byte := if 0x20 ≤ b ∧ b < 0x7f then b else 0x2e

/-- One round of the loop of `hexlmakeline` over the bytes. -/
def hexlput (l : HexlLayout) (bytes : List Byte) (buf : Cells) (i : Nat) : Cells :=
  let col := l.col (l.disp bytes.length i)
  let b := bytes.getD i 0
  let buf := Function.update buf col (hexldigit (b.toNat >>> 4))
  let buf := Function.update buf (col + 1) (hexldigit (b.toNat &&& 0xf))
  Function.update buf (HEXLASCII + i) (printable b)

/-- The array that `hexlmakeline` fills. -/
def hexlcells (offset : Nat) (bytes : List Byte) (l : HexlLayout) : Cells :=
  let buf : Cells := hexloffset 8 offset fun _ => 0x20
  (List.range bytes.length).foldl (hexlput l bytes) (Function.update buf 8 0x3a)

/-- `hexlmakeline`. -/
def hexlmakeline (offset : Nat) (bytes : List Byte) (l : HexlLayout) : List Byte :=
  (List.range HEXLWIDTH).map (hexlcells offset bytes l)

/-- The loop of `hexlparseline` that counts the bytes, slot `n` being next. -/
def hexlcount (text : Cells) (l : HexlLayout) : Nat → Nat → Option Nat
  | 0, n => some n
  | f + 1, n =>
      let col := l.col n
      if (hexlhexval (text col)).isSome && (hexlhexval (text (col + 1))).isSome then
        hexlcount text l f (n + 1)
      else if text col = 0x20 ∧ text (col + 1) = 0x20 then some n
      else none

/-- The byte that two digits stand for. -/
def hexlbyte (text : Cells) (col : Nat) : Byte :=
  UInt8.ofNat
    ((hexlhexval (text col)).getD 0 <<< 4 ||| (hexlhexval (text (col + 1))).getD 0)

/-- The loop of `hexlparseline` over the bytes. -/
def hexlbytes (text : Cells) (l : HexlLayout) (n : Nat) : List Byte :=
  let bytes : Cells := (List.range n).foldl
    (fun bytes d => Function.update bytes (l.disp n d) (hexlbyte text (l.col d))) fun _ => 0
  (List.range n).map bytes

/-- The offset that a line shows. -/
def hexlparseoffset (text : Cells) : Nat :=
  (List.range 8).foldl (fun offset d => offset * 16 + (hexlhexval (text d)).getD 0) 0

/-- `hexlparseline`: the bytes of the line, `none` being -1. -/
def hexlparseline (line : List Byte) (l : HexlLayout) : Option (List Byte) :=
  let text : Cells := fun i => line.getD i 0
  if line.length ≠ HEXLWIDTH then none
  else if text 8 ≠ 0x3a ∨ text 9 ≠ 0x20 then none
  else if (List.range 8).any fun d => (hexlhexval (text d)).isNone then none
  else
    match hexlcount text l HEXLBYTES 0 with
    | none => none
    | some n =>
        if (List.range HEXLBYTES).any fun d =>
            n ≤ d && (text (l.col d) ≠ 0x20 || text (l.col d + 1) ≠ 0x20) then none
        else
          let bytes := hexlbytes text l n
          let made := hexlmakeline (hexlparseoffset text) bytes l
          if made.take HEXLASCII ≠ line.take HEXLASCII then none else some bytes

variable {l : HexlLayout} {offset n d i : Nat} {bytes : List Byte}

/-! ## Digits -/

theorem hexlhexval_hexldigit : ∀ v < 16, hexlhexval (hexldigit v) = some v := by decide

theorem hexlhexval_blank : hexlhexval 0x20 = none := by decide

theorem high_nibble (b : Byte) : b.toNat >>> 4 < 16 := by
  have hb : b.toNat < 2 ^ 8 := b.toNat_lt
  rw [Nat.shiftRight_eq_div_pow]
  omega

theorem low_nibble (v : Nat) : v &&& 0xf < 16 := by
  have h : v &&& 0xf = v % 2 ^ 4 := Nat.and_two_pow_sub_one_eq_mod v 4
  omega

/-- A byte is put together from its digits. -/
theorem nibbles (b : Byte) : UInt8.ofNat (b.toNat >>> 4 <<< 4 ||| b.toNat &&& 0xf) = b := by
  have hlow : b.toNat &&& 0xf = b.toNat % 2 ^ 4 := Nat.and_two_pow_sub_one_eq_mod b.toNat 4
  have hor : b.toNat >>> 4 <<< 4 ||| b.toNat &&& 0xf = b.toNat := by
    rw [hlow, ← Nat.shiftLeft_add_eq_or_of_lt (by omega), Nat.shiftRight_eq_div_pow,
      Nat.shiftLeft_eq]
    omega
  rw [hor]
  exact UInt8.ofNat_toNat

/-! ## Columns -/

/-- Two slots next to each other leave room for two digits. -/
theorem HexlLayout.col_succ (l : HexlLayout) : ∀ d < 15, l.col d + 2 ≤ l.col (d + 1) := by
  obtain ⟨group, endian, packed, hsize, hgnu⟩ := l
  have hpacked : ∀ g ∈ groupSizes, ∀ d < 15, hexlhexcol d g true + 2 ≤ hexlhexcol (d + 1) g true :=
    by decide
  have hopen : ∀ d < 15, hexlhexcol d HEXLDEFGROUP false + 2 ≤
      hexlhexcol (d + 1) HEXLDEFGROUP false := by decide
  cases packed with
  | true => exact hpacked group hsize
  | false =>
      have hg : group = HEXLDEFGROUP := hgnu rfl
      subst hg
      exact hopen

/-- **No two slots share a column.** -/
theorem HexlLayout.col_lt (l : HexlLayout) {d e : Nat} (hde : d < e) (he : e < 16) :
    l.col d + 2 ≤ l.col e := by
  induction e with
  | zero => omega
  | succ e ih =>
      have hstep := l.col_succ e (by omega)
      rcases Nat.lt_succ_iff_lt_or_eq.mp hde with h | h
      · have hbefore := ih h (by omega)
        omega
      · subst h
        exact hstep

/-- The hex area lies between the offset and the ASCII area. -/
theorem HexlLayout.col_bounds (l : HexlLayout) (hd : d < 16) :
    10 ≤ l.col d ∧ l.col d + 1 < HEXLASCII := by
  obtain ⟨group, endian, packed, hsize, hgnu⟩ := l
  have hpacked : ∀ g ∈ groupSizes, ∀ d < 16,
      10 ≤ hexlhexcol d g true ∧ hexlhexcol d g true + 1 < HEXLASCII := by decide
  have hopen : ∀ d < 16, 10 ≤ hexlhexcol d HEXLDEFGROUP false ∧
      hexlhexcol d HEXLDEFGROUP false + 1 < HEXLASCII := by decide
  cases packed with
  | true => exact hpacked group hsize d hd
  | false =>
      have hg : group = HEXLDEFGROUP := hgnu rfl
      subst hg
      exact hopen d hd

/-! ## Slots -/

theorem hexldisp_big (i n group : Nat) : hexldisp i n group false = i := by
  simp [hexldisp]

/-- What `hexldisp` does to a byte of a group that has `size` bytes. -/
theorem hexldisp_little {q m size group : Nat} (hm : m < size) (hsize : size ≤ group)
    (hn : size = if group * q + group > n then n - group * q else group) :
    hexldisp (group * q + m) n group true = group * q + (size - 1 - m) := by
  have hmod : (group * q + m) % group = m := by
    rw [Nat.mul_add_mod, Nat.mod_eq_of_lt (by omega)]
  unfold hexldisp
  rw [hmod, Nat.add_sub_cancel]
  dsimp only
  rw [← hn]
  split
  · rename_i h
    have hsmall : size < 2 := by simpa using h
    omega
  · omega

/-- **The slot of a byte** is a slot that the line has, and the same mapping
leads back. -/
theorem hexldisp_hexldisp {group : Nat} {endian : Bool} (hg : 0 < group) (hi : i < n) :
    hexldisp i n group endian < n ∧
      hexldisp (hexldisp i n group endian) n group endian = i := by
  cases endian with
  | false =>
      rw [hexldisp_big, hexldisp_big]
      exact ⟨hi, rfl⟩
  | true =>
      have hmod := Nat.mod_lt i hg
      have hdiv := Nat.div_add_mod i group
      generalize i % group = m at hmod hdiv
      generalize i / group = q at hdiv
      subst hdiv
      obtain ⟨size, hsize⟩ : ∃ size, size = if group * q + group > n then n - group * q else group :=
        ⟨_, rfl⟩
      have hm : m < size ∧ size ≤ group ∧ group * q + size ≤ n := by
        split at hsize <;> omega
      rw [hexldisp_little hm.1 hm.2.1 hsize, hexldisp_little (by omega) hm.2.1 hsize]
      omega

theorem HexlLayout.group_pos (l : HexlLayout) : 0 < l.group := by
  have hall : ∀ g ∈ groupSizes, 0 < g := by decide
  exact hall _ l.size

theorem HexlLayout.disp_lt (l : HexlLayout) (hi : i < n) : l.disp n i < n :=
  (hexldisp_hexldisp l.group_pos hi).1

theorem HexlLayout.disp_disp (l : HexlLayout) (hi : i < n) : l.disp n (l.disp n i) = i :=
  (hexldisp_hexldisp l.group_pos hi).2

/-! ## The line that is made -/

theorem hexloffset_spec (i offset : Nat) (buf : Cells) :
    (∀ j < i, hexloffset i offset buf j = hexldigit (offset / 16 ^ (i - 1 - j) % 16)) ∧
      ∀ j, i ≤ j → hexloffset i offset buf j = buf j := by
  induction i generalizing offset buf with
  | zero => exact ⟨fun j hj => by omega, fun j _ => rfl⟩
  | succ i ih =>
      have hlow : offset &&& 0xf = offset % 16 := Nat.and_two_pow_sub_one_eq_mod offset 4
      have hshift : offset >>> 4 = offset / 16 := Nat.shiftRight_eq_div_pow offset 4
      obtain ⟨hdigits, hrest⟩ := ih (offset >>> 4) (Function.update buf i (hexldigit (offset &&& 0xf)))
      rw [hexloffset]
      refine ⟨fun j hj => ?_, fun j hj => ?_⟩
      · rcases Nat.lt_succ_iff_lt_or_eq.mp hj with h | h
        · rw [hdigits j h, hshift, Nat.div_div_eq_div_mul, ← Nat.pow_succ']
          have hexp : (i - 1 - j).succ = i + 1 - 1 - j := by omega
          rw [hexp]
        · subst h
          rw [hrest j (Nat.le_refl j), Function.update_self, hlow]
          simp
      · rw [hrest j (by omega), Function.update_of_ne (by omega)]

/-- The loop of `hexlmakeline` over the first `k` bytes. -/
theorem foldl_hexlput (l : HexlLayout) (bytes : List Byte) (buf : Cells) {k : Nat}
    (hk : k ≤ bytes.length) (hn : bytes.length ≤ 16) :
    (∀ i < k, (List.range k).foldl (hexlput l bytes) buf (l.col (l.disp bytes.length i)) =
        hexldigit ((bytes.getD i 0).toNat >>> 4) ∧
      (List.range k).foldl (hexlput l bytes) buf (l.col (l.disp bytes.length i) + 1) =
        hexldigit ((bytes.getD i 0).toNat &&& 0xf)) ∧
    ∀ c, c < HEXLASCII → (∀ i < k, c ≠ l.col (l.disp bytes.length i) ∧
      c ≠ l.col (l.disp bytes.length i) + 1) →
      (List.range k).foldl (hexlput l bytes) buf c = buf c := by
  induction k with
  | zero => exact ⟨fun i hi => by omega, fun c _ _ => rfl⟩
  | succ k ih =>
      obtain ⟨hput, hrest⟩ := ih (by omega)
      rw [List.range_succ, List.foldl_append, List.foldl_cons, List.foldl_nil]
      generalize (List.range k).foldl (hexlput l bytes) buf = buf' at hput hrest
      have hkslot : l.disp bytes.length k < 16 := by
        have := l.disp_lt (i := k) (n := bytes.length) (by omega)
        omega
      obtain ⟨hlow, hhigh⟩ := l.col_bounds hkslot
      refine ⟨fun i hi => ?_, fun c hc hne => ?_⟩
      · have hslot : l.disp bytes.length i < 16 := by
          have := l.disp_lt (i := i) (n := bytes.length) (by omega)
          omega
        obtain ⟨hlow', hhigh'⟩ := l.col_bounds hslot
        rcases Nat.lt_succ_iff_lt_or_eq.mp hi with h | h
        · -- the slots of two bytes are different
          have hne : l.disp bytes.length i ≠ l.disp bytes.length k := by
            intro heq
            have hik := l.disp_disp (i := i) (n := bytes.length) (by omega)
            rw [heq, l.disp_disp (by omega)] at hik
            omega
          have hcols : l.col (l.disp bytes.length i) + 2 ≤ l.col (l.disp bytes.length k) ∨
              l.col (l.disp bytes.length k) + 2 ≤ l.col (l.disp bytes.length i) := by
            rcases Nat.lt_or_gt_of_ne hne with h | h
            · exact Or.inl (l.col_lt h hkslot)
            · exact Or.inr (l.col_lt h hslot)
          obtain ⟨h₁, h₂⟩ := hput i h
          unfold hexlput
          rw [Function.update_of_ne (by omega), Function.update_of_ne (by omega),
            Function.update_of_ne (by omega), Function.update_of_ne (by omega),
            Function.update_of_ne (by omega), Function.update_of_ne (by omega)]
          exact ⟨h₁, h₂⟩
        · subst h
          unfold hexlput
          rw [Function.update_of_ne (by omega), Function.update_of_ne (by omega),
            Function.update_self, Function.update_of_ne (by omega), Function.update_self]
          exact ⟨rfl, rfl⟩
      · obtain ⟨h₁, h₂⟩ := hne k (by omega)
        unfold hexlput
        rw [Function.update_of_ne (by omega), Function.update_of_ne h₂,
          Function.update_of_ne h₁]
        exact hrest c hc fun i hi => hne i (by omega)

/-- Slot `d` of a line of `n` bytes. -/
theorem hexlcells_slot (l : HexlLayout) (offset : Nat) (hn : bytes.length ≤ 16)
    (hd : d < bytes.length) :
    hexlcells offset bytes l (l.col d) =
        hexldigit ((bytes.getD (l.disp bytes.length d) 0).toNat >>> 4) ∧
      hexlcells offset bytes l (l.col d + 1) =
        hexldigit ((bytes.getD (l.disp bytes.length d) 0).toNat &&& 0xf) := by
  have hslot := (foldl_hexlput l bytes (Function.update (hexloffset 8 offset fun _ => 0x20) 8 0x3a)
    (Nat.le_refl _) hn).1 (l.disp bytes.length d) (l.disp_lt hd)
  rw [l.disp_disp hd] at hslot
  exact hslot

/-- What no byte is written to. -/
theorem hexlcells_rest (l : HexlLayout) (offset : Nat) (hn : bytes.length ≤ 16) {c : Nat}
    (hc : c < HEXLASCII) (hne : ∀ d < bytes.length, c ≠ l.col d ∧ c ≠ l.col d + 1) :
    hexlcells offset bytes l c =
      Function.update (hexloffset 8 offset fun _ => 0x20) 8 0x3a c :=
  (foldl_hexlput l bytes _ (Nat.le_refl _) hn).2 c hc fun _ hi => hne _ (l.disp_lt hi)

/-- A slot past the bytes is blank. -/
theorem hexlcells_blank (l : HexlLayout) (offset : Nat) (hn : bytes.length ≤ 16)
    (hd : bytes.length ≤ d) (hd' : d < 16) :
    hexlcells offset bytes l (l.col d) = 0x20 ∧
      hexlcells offset bytes l (l.col d + 1) = 0x20 := by
  obtain ⟨hlow, hhigh⟩ := l.col_bounds hd'
  have hne : ∀ e < bytes.length, l.col e + 2 ≤ l.col d := fun e he =>
    l.col_lt (by omega) hd'
  have hblank : ∀ c, 10 ≤ c →
      Function.update (hexloffset 8 offset fun _ => 0x20) 8 0x3a c = (0x20 : Byte) := by
    intro c hc
    rw [Function.update_of_ne (by omega), (hexloffset_spec 8 offset _).2 c (by omega)]
  refine ⟨?_, ?_⟩
  · rw [hexlcells_rest l offset hn (by omega) fun e he => by have := hne e he; omega]
    exact hblank _ hlow
  · rw [hexlcells_rest l offset hn (by omega) fun e he => by have := hne e he; omega]
    exact hblank _ (by omega)

/-- The columns before the hex area. -/
theorem hexlcells_head (l : HexlLayout) (offset : Nat) (hn : bytes.length ≤ 16) {c : Nat}
    (hc : c < 10) : hexlcells offset bytes l c =
      Function.update (hexloffset 8 offset fun _ => 0x20) 8 0x3a c := by
  refine hexlcells_rest l offset hn ?_ fun d hd => ?_
  · exact Nat.lt_trans hc (by decide)
  · have := l.col_bounds (d := d) (by omega)
    omega

/-! ## The line that is read -/

theorem getD_hexlmakeline (offset : Nat) (bytes : List Byte) (l : HexlLayout) {c : Nat}
    (hc : c < HEXLWIDTH) : (hexlmakeline offset bytes l).getD c 0 = hexlcells offset bytes l c := by
  rw [hexlmakeline, List.getD_eq_getElem?_getD, List.getElem?_map, List.getElem?_range hc]
  rfl

/-- The count stops at the first blank slot. -/
theorem hexlcount_eq {text : Cells} {f k : Nat}
    (hdigits : ∀ d < n, (hexlhexval (text (l.col d))).isSome ∧
      (hexlhexval (text (l.col d + 1))).isSome)
    (hblank : ∀ d, n ≤ d → d < 16 → text (l.col d) = 0x20 ∧ text (l.col d + 1) = 0x20)
    (hk : k ≤ n) (hn : n ≤ 16) (hf : f + k = 16) : hexlcount text l f k = some n := by
  induction f generalizing k with
  | zero =>
      have hkn : k = n := by omega
      rw [hexlcount, hkn]
  | succ f ih =>
      rw [hexlcount]
      rcases Nat.lt_or_eq_of_le hk with h | h
      · obtain ⟨h₁, h₂⟩ := hdigits k h
        simp only [h₁, h₂, Bool.and_self, if_true]
        exact ih (by omega) (by omega)
      · subst h
        obtain ⟨h₁, h₂⟩ := hblank k (Nat.le_refl k) (by omega)
        simp only [h₁, h₂, hexlhexval_blank, Option.isSome_none, Bool.and_self]
        simp

/-- The loop over the bytes finds each of them. -/
theorem hexlbytes_eq {text : Cells}
    (htext : ∀ d < bytes.length, hexlbyte text (l.col d) =
      bytes.getD (l.disp bytes.length d) 0) : hexlbytes text l bytes.length = bytes := by
  have hloop : ∀ k ≤ bytes.length, ∀ d < k, (List.range k).foldl
      (fun (b : Cells) d => Function.update b (l.disp bytes.length d) (hexlbyte text (l.col d)))
      (fun _ => 0) (l.disp bytes.length d) = hexlbyte text (l.col d) := by
    intro k
    induction k with
    | zero => exact fun _ d hd => by omega
    | succ k ih =>
        intro hk d hd
        rw [List.range_succ, List.foldl_append, List.foldl_cons, List.foldl_nil]
        rcases Nat.lt_succ_iff_lt_or_eq.mp hd with h | h
        · have hne : l.disp bytes.length d ≠ l.disp bytes.length k := by
            intro heq
            have hdk := l.disp_disp (i := d) (n := bytes.length) (by omega)
            rw [heq, l.disp_disp (by omega)] at hdk
            omega
          rw [Function.update_of_ne hne]
          exact ih (by omega) d h
        · subst h
          exact Function.update_self ..
  unfold hexlbytes
  dsimp only
  apply List.ext_getElem
  · rw [List.length_map, List.length_range]
  · intro i _ hi
    have hat := hloop bytes.length (Nat.le_refl _) (l.disp bytes.length i) (l.disp_lt hi)
    rw [htext _ (l.disp_lt hi), l.disp_disp hi] at hat
    rw [List.getElem_map, List.getElem_range, hat]
    exact (List.getElem_eq_getD 0).symm

theorem hexlparseoffset_eq {text : Cells} {offset : Nat}
    (htext : ∀ d < 8, text d = hexldigit (offset / 16 ^ (8 - 1 - d) % 16)) :
    hexlparseoffset text = offset % 16 ^ 8 := by
  have hloop : ∀ k ≤ 8, (List.range k).foldl
      (fun v d => v * 16 + (hexlhexval (text d)).getD 0) 0 = offset / 16 ^ (8 - k) % 16 ^ k := by
    intro k
    induction k with
    | zero => exact fun _ => (Nat.mod_one _).symm
    | succ k ih =>
        intro hk
        have hdigit : (hexlhexval (text k)).getD 0 = offset / 16 ^ (8 - (k + 1)) % 16 := by
          have hexp : 8 - 1 - k = 8 - (k + 1) := by omega
          rw [htext k (by omega), hexlhexval_hexldigit _ (Nat.mod_lt _ (by decide)), hexp]
          rfl
        have hsplit : offset / 16 ^ (8 - k) = offset / 16 ^ (8 - (k + 1)) / 16 := by
          have hexp : 8 - k = 8 - (k + 1) + 1 := by omega
          rw [Nat.div_div_eq_div_mul, ← Nat.pow_succ, Nat.succ_eq_add_one, ← hexp]
        rw [List.range_succ, List.foldl_append, List.foldl_cons, List.foldl_nil, ih (by omega),
          hdigit, hsplit, Nat.pow_succ', Nat.mod_mul]
        omega
  exact (hloop 8 (Nat.le_refl 8)).trans (by simp)

/-- Only the last eight digits of an offset are shown. -/
theorem hexlmakeline_mod (offset : Nat) (bytes : List Byte) (l : HexlLayout) :
    hexlmakeline (offset % 16 ^ 8) bytes l = hexlmakeline offset bytes l := by
  have hoffset : hexloffset 8 (offset % 16 ^ 8) (fun _ => 0x20) =
      hexloffset 8 offset fun _ => 0x20 := by
    funext j
    rcases Nat.lt_or_ge j 8 with hj | hj
    · have hexp : 16 ^ 8 = 16 ^ (8 - 1 - j) * 16 ^ (j + 1) := by
        rw [← Nat.pow_add]
        congr 1
        omega
      rw [(hexloffset_spec 8 _ _).1 j hj, (hexloffset_spec 8 _ _).1 j hj, hexp,
        Nat.mod_mul_right_div_self, Nat.mod_mod_of_dvd _ ⟨16 ^ j, Nat.pow_succ'⟩]
    · rw [(hexloffset_spec 8 _ _).2 j hj, (hexloffset_spec 8 _ _).2 j hj]
  unfold hexlmakeline hexlcells
  rw [hoffset]

/-- **A line that was written is read back**, in every layout. -/
theorem hexlparseline_hexlmakeline (offset : Nat) (l : HexlLayout) (hn : bytes.length ≤ 16) :
    hexlparseline (hexlmakeline offset bytes l) l = some bytes := by
  obtain ⟨text, htext⟩ : ∃ text : Cells,
      text = fun i => (hexlmakeline offset bytes l).getD i 0 := ⟨_, rfl⟩
  have hcell : ∀ c < HEXLWIDTH, text c = hexlcells offset bytes l c := fun c hc => by
    rw [htext]
    exact getD_hexlmakeline offset bytes l hc
  have hwidth : ∀ d < 16, l.col d < HEXLWIDTH ∧ l.col d + 1 < HEXLWIDTH := fun d hd => by
    have hbounds := l.col_bounds hd
    have hascii : HEXLASCII < HEXLWIDTH := by decide
    omega
  have hslot : ∀ d < bytes.length,
      hexlhexval (text (l.col d)) = some ((bytes.getD (l.disp bytes.length d) 0).toNat >>> 4) ∧
      hexlhexval (text (l.col d + 1)) =
        some ((bytes.getD (l.disp bytes.length d) 0).toNat &&& 0xf) := by
    intro d hd
    obtain ⟨h₁, h₂⟩ := hexlcells_slot l offset hn hd
    obtain ⟨hw, hw'⟩ := hwidth d (by omega)
    rw [hcell _ hw, hcell _ hw', h₁, h₂, hexlhexval_hexldigit _ (high_nibble _),
      hexlhexval_hexldigit _ (low_nibble _)]
    exact ⟨rfl, rfl⟩
  have hblank : ∀ d, bytes.length ≤ d → d < 16 →
      text (l.col d) = 0x20 ∧ text (l.col d + 1) = 0x20 := by
    intro d hd hd'
    obtain ⟨hw, hw'⟩ := hwidth d hd'
    rw [hcell _ hw, hcell _ hw']
    exact hexlcells_blank l offset hn hd hd'
  have hhead : ∀ c < 10, text c =
      Function.update (hexloffset 8 offset fun _ => 0x20) 8 0x3a c := fun c hc => by
    rw [hcell c (Nat.lt_trans hc (by decide)), hexlcells_head l offset hn hc]
  have hdigit : ∀ d < 8, text d = hexldigit (offset / 16 ^ (8 - 1 - d) % 16) := fun d hd => by
    rw [hhead d (by omega), Function.update_of_ne (by omega), (hexloffset_spec 8 _ _).1 d hd]
  have hcolon : text 8 = 0x3a := by
    rw [hhead 8 (by omega), Function.update_self]
  have hspace : text 9 = 0x20 := by
    rw [hhead 9 (by omega), Function.update_of_ne (by omega),
      (hexloffset_spec 8 _ _).2 9 (by omega)]
  have hdigits : ((List.range 8).any fun d => (hexlhexval (text d)).isNone) = false := by
    rw [List.any_eq_false]
    intro d hd
    rw [hdigit d (List.mem_range.mp hd), hexlhexval_hexldigit _ (Nat.mod_lt _ (by decide))]
    simp
  have hcount : hexlcount text l HEXLBYTES 0 = some bytes.length :=
    hexlcount_eq (fun d hd => by simp [hslot d hd]) hblank (Nat.zero_le _) hn rfl
  have hrest : ((List.range HEXLBYTES).any fun d => bytes.length ≤ d &&
      (text (l.col d) ≠ 0x20 || text (l.col d + 1) ≠ 0x20)) = false := by
    rw [List.any_eq_false]
    intro d hd hbad
    rw [Bool.and_eq_true, decide_eq_true_eq] at hbad
    obtain ⟨h₁, h₂⟩ := hblank d hbad.1 (List.mem_range.mp hd)
    simp [h₁, h₂] at hbad
  have hbytes : hexlbytes text l bytes.length = bytes := hexlbytes_eq fun d hd => by
    obtain ⟨h₁, h₂⟩ := hslot d hd
    rw [hexlbyte, h₁, h₂]
    exact nibbles _
  have hmade : hexlmakeline (hexlparseoffset text) bytes l = hexlmakeline offset bytes l := by
    rw [hexlparseoffset_eq hdigit, hexlmakeline_mod]
  have hlength : (hexlmakeline offset bytes l).length = HEXLWIDTH := by
    rw [hexlmakeline, List.length_map, List.length_range]
  unfold hexlparseline
  rw [← htext]
  dsimp only
  rw [if_neg (not_not_intro hlength), if_neg (by simp [hcolon, hspace]), hdigits, hcount]
  dsimp only
  rw [hrest, hbytes, hmade]
  simp

/-! ## The lines that are accepted -/

section Accepts

variable {line line' : List Byte} {text text' : Cells}

/-- The columns in front of the ASCII area. -/
theorem HexlLayout.col_lt_ascii (l : HexlLayout) (hd : d < 16) :
    l.col d < HEXLASCII ∧ l.col d + 1 < HEXLASCII := by
  have hbounds := l.col_bounds hd
  omega

theorem hexlcount_congr (htext : ∀ c < HEXLASCII, text c = text' c) {f k : Nat} (hf : f + k = 16) :
    hexlcount text l f k = hexlcount text' l f k := by
  induction f generalizing k with
  | zero => rfl
  | succ f ih =>
      obtain ⟨h₁, h₂⟩ := l.col_lt_ascii (d := k) (by omega)
      rw [hexlcount, hexlcount, htext _ h₁, htext _ h₂, ih (by omega)]

theorem hexlcount_le {f k : Nat} (h : hexlcount text l f k = some n) : n ≤ f + k := by
  induction f generalizing k with
  | zero =>
      cases h
      exact Nat.le_add_left _ _
  | succ f ih =>
      rw [hexlcount] at h
      split_ifs at h
      · have hle := ih h
        omega
      · cases h
        omega

theorem hexlbytes_congr (htext : ∀ c < HEXLASCII, text c = text' c) (hn : n ≤ 16) :
    hexlbytes text l n = hexlbytes text' l n := by
  unfold hexlbytes
  dsimp only
  congr 1
  refine List.foldl_ext _ _ _ fun bytes d hd => ?_
  obtain ⟨h₁, h₂⟩ := l.col_lt_ascii (d := d) (by
    have := List.mem_range.mp hd
    omega)
  rw [hexlbyte, hexlbyte, htext _ h₁, htext _ h₂]

theorem hexlparseoffset_congr (htext : ∀ c < HEXLASCII, text c = text' c) :
    hexlparseoffset text = hexlparseoffset text' := by
  refine List.foldl_ext _ _ _ fun offset d hd => ?_
  rw [htext d (Nat.lt_trans (List.mem_range.mp hd) (by decide))]

/-- The offset of a line has eight digits. -/
theorem hexlparseoffset_lt (text : Cells) : hexlparseoffset text < 16 ^ 8 := by
  have hdigit : ∀ c, (hexlhexval c).getD 0 < 16 := by
    have hall : ∀ n < 256, (hexlhexval (UInt8.ofNat n)).getD 0 < 16 := by decide +kernel
    intro c
    have hc := hall c.toNat c.toNat_lt
    rwa [UInt8.ofNat_toNat] at hc
  have hloop : ∀ k, (List.range k).foldl
      (fun offset d => offset * 16 + (hexlhexval (text d)).getD 0) 0 < 16 ^ k := by
    intro k
    induction k with
    | zero => exact Nat.one_pos
    | succ k ih =>
        have hk := hdigit (text k)
        rw [List.range_succ, List.foldl_append, List.foldl_cons, List.foldl_nil, Nat.pow_succ]
        omega
  exact hloop 8

/-- The ASCII area is not looked at. -/
theorem hexlparseline_congr (hlen : line.length = line'.length)
    (htake : line.take HEXLASCII = line'.take HEXLASCII) :
    hexlparseline line l = hexlparseline line' l := by
  have htext : ∀ c < HEXLASCII, line.getD c 0 = line'.getD c 0 := by
    intro c hc
    have hget := congrArg (fun s : List Byte => s.getD c 0) htake
    simpa [List.getD_eq_getElem?_getD, List.getElem?_take, hc] using hget
  have hhead : ((List.range 8).any fun d => (hexlhexval (line.getD d 0)).isNone) =
      (List.range 8).any fun d => (hexlhexval (line'.getD d 0)).isNone := by
    rw [Bool.eq_iff_iff, List.any_eq_true, List.any_eq_true]
    refine exists_congr fun d => and_congr_right fun hd => ?_
    rw [htext d (Nat.lt_trans (List.mem_range.mp hd) (by decide))]
  have hcounts : hexlcount (fun i => line.getD i 0) l HEXLBYTES 0 =
      hexlcount (fun i => line'.getD i 0) l HEXLBYTES 0 := hexlcount_congr htext rfl
  have hoffsets : hexlparseoffset (fun i => line.getD i 0) =
      hexlparseoffset fun i => line'.getD i 0 := hexlparseoffset_congr htext
  have hstart : line.getD 8 0 = line'.getD 8 0 ∧ line.getD 9 0 = line'.getD 9 0 :=
    ⟨htext 8 (by decide), htext 9 (by decide)⟩
  unfold hexlparseline
  simp only [hlen, htake, hstart, hhead, hcounts, hoffsets]
  split_ifs
  · rfl
  · rfl
  · rfl
  · cases hcount : hexlcount (fun i => line'.getD i 0) l HEXLBYTES 0 with
    | none => rfl
    | some n =>
        have hn := hexlcount_le hcount
        have hrest : ((List.range HEXLBYTES).any fun d =>
            n ≤ d && (line.getD (l.col d) 0 ≠ 0x20 || line.getD (l.col d + 1) 0 ≠ 0x20)) =
            (List.range HEXLBYTES).any fun d =>
              n ≤ d && (line'.getD (l.col d) 0 ≠ 0x20 || line'.getD (l.col d + 1) 0 ≠ 0x20) := by
          rw [Bool.eq_iff_iff, List.any_eq_true, List.any_eq_true]
          refine exists_congr fun d => and_congr_right fun hd => ?_
          obtain ⟨h₁, h₂⟩ := l.col_lt_ascii (List.mem_range.mp hd)
          rw [htext _ h₁, htext _ h₂]
        have hbytes : hexlbytes (fun i => line.getD i 0) l n =
            hexlbytes (fun i => line'.getD i 0) l n := hexlbytes_congr htext hn
        simp only [hrest, hbytes]

/-- **The accepted lines** are those that `hexlmakeline` writes, up to the ASCII area. -/
theorem hexlparseline_iff (line : List Byte) (l : HexlLayout) (bytes : List Byte) :
    hexlparseline line l = some bytes ↔
      line.length = HEXLWIDTH ∧ bytes.length ≤ HEXLBYTES ∧ ∃ offset < 2 ^ 32,
        line.take HEXLASCII = (hexlmakeline offset bytes l).take HEXLASCII := by
  constructor
  · intro h
    have hoffset := hexlparseoffset_lt fun i => line.getD i 0
    unfold hexlparseline at h
    dsimp only at h
    split_ifs at h with hlen
    · cases hcount : hexlcount (fun i => line.getD i 0) l HEXLBYTES 0 with
      | none =>
          rw [hcount] at h
          cases h
      | some n =>
          rw [hcount] at h
          dsimp only at h
          split_ifs at h with hrest hmade
          cases h
          refine ⟨not_not.mp hlen, ?_, _, hoffset, (not_not.mp hmade).symm⟩
          have hn := hexlcount_le hcount
          rw [hexlbytes, List.length_map, List.length_range]
          exact hn
  · rintro ⟨hlen, hbytes, offset, -, htake⟩
    have hmade : (hexlmakeline offset bytes l).length = HEXLWIDTH := by
      rw [hexlmakeline, List.length_map, List.length_range]
    rw [hexlparseline_congr (hlen.trans hmade.symm) htake]
    exact hexlparseline_hexlmakeline offset l hbytes

/-- **What is accepted**: the lines that `hexlmakeline` writes, up to the ASCII area, with
the bytes that they were written for; and what it writes is read back. -/
theorem hexlparseline_accepts (line : List Byte) (l : HexlLayout) (bytes : List Byte) :
    (hexlparseline line l = some bytes ↔
      line.length = HEXLWIDTH ∧ bytes.length ≤ HEXLBYTES ∧ ∃ offset < 2 ^ 32,
        line.take HEXLASCII = (hexlmakeline offset bytes l).take HEXLASCII) ∧
      ∀ offset, bytes.length ≤ HEXLBYTES →
        hexlparseline (hexlmakeline offset bytes l) l = some bytes :=
  ⟨hexlparseline_iff line l bytes, fun offset hn => hexlparseline_hexlmakeline offset l hn⟩

end Accepts

end Emacs
