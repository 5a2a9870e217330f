import Zzdwm.Emacs.Hexl
import Zzdwm.Emacs.HexlTyping
import Zzdwm.Lib.Machine

/-!
# Typing into a dump, character after character

Each keystroke leaves the lines of a dump as dump lines, provided that the digit it
writes is one that `hexlmakeline` could have written there.

* `ShowsBytes` — a line that `hexlparseline` reads some bytes from;
* `Harmless` — a character that spoils no line;
* `Held.keystroke` — what one keystroke preserves;
* `typing_keeps` — **no line is spoiled** by a run of harmless characters.
-/

namespace Emacs

open Journal (Zipper row col)

variable {l : HexlLayout} {c : Nat} {e e' : Ed} {pend : Pending} {line line' : List Byte}
  {bytes : List Byte} {A B : List UChar} {n d i o o' offset : Nat} {x : Nat × List Byte}

/-! ## One byte of a line -/

/-- On the slots of a line the two versions of `hexldisp` agree. -/
theorem hexldispInt_eq : ∀ g ∈ groupSizes, ∀ n : Nat, n < 17 → ∀ d : Nat, d < n → ∀ b : Bool,
    hexldispInt d n g b = (hexldisp d n g b : Int) := by
  decide

theorem HexlLayout.dispInt (l : HexlLayout) (hn : n ≤ 16) (hd : d < n) :
    hexldispInt d n l.group l.endian = (l.disp n d : Int) :=
  hexldispInt_eq l.group l.size n (by omega) d hd l.endian

theorem getD_overwrite (hx : x.1 + x.2.length ≤ line.length) (i : Nat) :
    (overwrite line x).getD i 0 =
      if x.1 ≤ i ∧ i < x.1 + x.2.length then x.2.getD (i - x.1) 0 else line.getD i 0 := by
  have hfront : (line.take x.1).length = x.1 := by
    rw [List.length_take]
    omega
  have htwo : (line.take x.1 ++ x.2).length = x.1 + x.2.length := by
    rw [List.length_append, hfront]
  rw [overwrite, List.getD_eq_getElem?_getD, List.getD_eq_getElem?_getD,
    List.getD_eq_getElem?_getD]
  rcases Nat.lt_or_ge i x.1 with hi | hi
  · rw [if_neg (by omega), List.append_assoc, List.getElem?_append_left (by omega),
      List.getElem?_take_of_lt hi]
  rcases Nat.lt_or_ge i (x.1 + x.2.length) with hi' | hi'
  · rw [if_pos ⟨hi, hi'⟩, List.getElem?_append_left (by omega),
      List.getElem?_append_right (by omega), hfront]
  · rw [if_neg (by omega), List.getElem?_append_right (by omega), htwo, List.getElem?_drop]
    congr 2
    omega

/-- Another byte changes the two digits of its slot. -/
theorem hexlcells_set (l : HexlLayout) (offset : Nat) (hn : bytes.length ≤ 16)
    (hd : d < bytes.length) (b : Byte) (hi : i < HEXLASCII) :
    hexlcells offset (bytes.set (l.disp bytes.length d) b) l i =
      if i = l.col d then hexldigit (b.toNat >>> 4)
      else if i = l.col d + 1 then hexldigit (b.toNat &&& 0xf)
      else hexlcells offset bytes l i := by
  have hlen : (bytes.set (l.disp bytes.length d) b).length = bytes.length := List.length_set
  have hget : ∀ k < bytes.length, (bytes.set (l.disp bytes.length d) b).getD (l.disp bytes.length k) 0 =
      if k = d then b else bytes.getD (l.disp bytes.length k) 0 := by
    intro k hk
    have hlt := l.disp_lt hk
    by_cases hkd : k = d
    · rw [if_pos hkd, hkd, List.getD_eq_getElem?_getD, List.getElem?_set_self (l.disp_lt hd)]
      rfl
    · have hne : l.disp bytes.length d ≠ l.disp bytes.length k := by
        intro heq
        have hback := congrArg (l.disp bytes.length) heq
        rw [l.disp_disp hd, l.disp_disp hk] at hback
        exact hkd hback.symm
      rw [if_neg hkd, List.getD_eq_getElem?_getD, List.getD_eq_getElem?_getD,
        List.getElem?_set_ne hne]
  by_cases hslot : ∃ k < bytes.length, i = l.col k ∨ i = l.col k + 1
  · obtain ⟨k, hk, hik⟩ := hslot
    have hnew := @hexlcells_slot k (bytes.set (l.disp bytes.length d) b) l offset (by omega) (by omega)
    have hold := hexlcells_slot l offset hn hk
    rw [hlen, hget k hk] at hnew
    by_cases hkd : k = d
    · subst hkd
      rw [if_pos rfl] at hnew
      rcases hik with rfl | rfl
      · rw [if_pos rfl, hnew.1]
      · rw [if_neg (by omega), if_pos rfl, hnew.2]
    · rw [if_neg hkd] at hnew
      have hapart : l.col k + 2 ≤ l.col d ∨ l.col d + 2 ≤ l.col k := by
        rcases Nat.lt_or_gt_of_ne hkd with hlt | hlt
        · exact .inl (l.col_lt hlt (by omega))
        · exact .inr (l.col_lt hlt (by omega))
      rw [if_neg (by omega), if_neg (by omega)]
      rcases hik with rfl | rfl
      · rw [hnew.1, hold.1]
      · rw [hnew.2, hold.2]
  · have hnone : ∀ k < bytes.length, i ≠ l.col k ∧ i ≠ l.col k + 1 := fun k hk =>
      ⟨fun heq => hslot ⟨k, hk, .inl heq⟩, fun heq => hslot ⟨k, hk, .inr heq⟩⟩
    obtain ⟨h₁, h₂⟩ := hnone d hd
    rw [if_neg h₁, if_neg h₂, hexlcells_rest l offset hn hi hnone,
      hexlcells_rest l offset (by omega) hi (by rwa [hlen])]

/-! ## A line that shows some bytes -/

/-- Up to its ASCII area the line is as `hexlmakeline` writes it for these bytes. -/
structure ShowsBytes (l : HexlLayout) (bytes line : List Byte) : Prop where
  plain : Plain line
  width : line.length = HEXLWIDTH
  few : bytes.length ≤ HEXLBYTES
  cells : ∃ offset < 2 ^ 32, ∀ i < HEXLASCII, line.getD i 0 = hexlcells offset bytes l i

theorem showsBytes_iff (hplain : Plain line) :
    ShowsBytes l bytes line ↔ hexlparseline line l = some bytes := by
  have htake : ∀ {offset : Nat}, line.length = HEXLWIDTH →
      (line.take HEXLASCII = (hexlmakeline offset bytes l).take HEXLASCII ↔
        ∀ i < HEXLASCII, line.getD i 0 = hexlcells offset bytes l i) := by
    intro offset hwidth
    have hlen : (hexlmakeline offset bytes l).length = HEXLWIDTH := by
      rw [hexlmakeline, List.length_map, List.length_range]
    have hlt : HEXLASCII < HEXLWIDTH := by decide
    constructor
    · intro heq i hi
      have hget := congrArg (fun s : List Byte => s.getD i 0) heq
      simp only [List.getD_eq_getElem?_getD, List.getElem?_take_of_lt hi] at hget
      rw [← getD_hexlmakeline offset bytes l (by omega), List.getD_eq_getElem?_getD, hget,
        List.getD_eq_getElem?_getD]
    · intro hall
      refine List.ext_getElem (by rw [List.length_take, List.length_take, hwidth, hlen]) ?_
      intro i h₁ h₂
      rw [List.length_take] at h₁ h₂
      have hget := hall i (by omega)
      rw [← getD_hexlmakeline offset bytes l (by omega), List.getD_eq_getElem?_getD,
        List.getD_eq_getElem?_getD, List.getElem?_eq_getElem (by omega),
        List.getElem?_eq_getElem (by omega)] at hget
      rw [List.getElem_take, List.getElem_take]
      exact hget
  rw [hexlparseline_iff]
  constructor
  · rintro ⟨-, hwidth, hfew, offset, hoffset, hcells⟩
    exact ⟨hwidth, hfew, offset, hoffset, (htake hwidth).mpr hcells⟩
  · rintro ⟨hwidth, hfew, offset, hoffset, heq⟩
    exact ⟨hplain, hwidth, hfew, offset, hoffset, (htake hwidth).mp heq⟩

/-- `hexllinebytes` counts the bytes. -/
theorem ShowsBytes.linebytes (h : ShowsBytes l bytes line) : hexllinebytes line l = bytes.length := by
  obtain ⟨offset, -, hcells⟩ := h.cells
  have hfew : bytes.length ≤ 16 := h.few
  have hdigit : ∀ d < bytes.length, (hexlhexval (lgetc line (l.col d))).isSome = true := by
    intro d hd
    rw [lgetc, hcells _ (l.col_lt_ascii (by omega)).1, (hexlcells_slot l offset hfew hd).1,
      hexlhexval_hexldigit _ (high_nibble _)]
    rfl
  refine takeWhile_range_length hfew hdigit fun hlt => ?_
  rw [lgetc, hcells _ (l.col_lt_ascii hlt).1,
    (hexlcells_blank l offset hfew (Nat.le_refl _) hlt).1, hexlhexval_blank]
  rfl

/-- A digit of another byte is written. -/
theorem ShowsBytes.overwrite_cells (h : ShowsBytes l bytes line) (hd : d < bytes.length) (b : Byte)
    (hplain : Plain x.2) (hx : x.1 + x.2.length ≤ HEXLASCII)
    (hget : ∀ i < HEXLASCII, (if x.1 ≤ i ∧ i < x.1 + x.2.length then x.2.getD (i - x.1) 0
        else line.getD i 0) =
      if i = l.col d then hexldigit (b.toNat >>> 4)
      else if i = l.col d + 1 then hexldigit (b.toNat &&& 0xf)
      else line.getD i 0) :
    ShowsBytes l (bytes.set (l.disp bytes.length d) b) (overwrite line x) := by
  obtain ⟨hline, hwidth, hfew, offset, hoffset, hcells⟩ := h
  have hascii : HEXLASCII ≤ HEXLWIDTH := by decide
  have hfits : x.1 + x.2.length ≤ line.length := by omega
  refine ⟨hline.overwritten hplain, (length_overwrite hfits).trans hwidth, ?_, offset, hoffset, ?_⟩
  · rwa [List.length_set]
  · intro i hi
    rw [getD_overwrite hfits, hget i hi, hexlcells_set l offset hfew hd b hi, hcells i hi]

/-- Both digits of a byte. -/
theorem ShowsBytes.digits (h : ShowsBytes l bytes line) (hd : d < bytes.length) (b : Byte) :
    ShowsBytes l (bytes.set (l.disp bytes.length d) b)
      (overwrite line (l.col d, [hexldigit (b.toNat >>> 4), hexldigit (b.toNat &&& 0xf)])) := by
  have hfew : bytes.length ≤ 16 := h.few
  have hbounds := (l.col_bounds (d := d) (by omega)).2
  refine h.overwrite_cells hd b ?_ (Nat.succ_le_of_lt hbounds) fun i _ => ?_
  · intro y hy
    rcases List.mem_cons.mp hy with rfl | hy
    · exact hexldigit_plain _ (high_nibble b)
    · rw [List.mem_singleton.mp hy]
      exact hexldigit_plain _ (low_nibble _)
  · dsimp only [List.length_cons, List.length_nil]
    by_cases h₁ : i = l.col d
    · rw [if_pos (by omega), if_pos h₁, h₁, Nat.sub_self]
      rfl
    · by_cases h₂ : i = l.col d + 1
      · rw [if_pos (by omega), if_neg h₁, if_pos h₂, h₂, Nat.add_sub_cancel_left]
        rfl
      · rw [if_neg (by omega), if_neg h₁, if_neg h₂]

/-- The first digit of a byte, in lower case. -/
theorem ShowsBytes.digit (h : ShowsBytes l bytes line) (hd : d < bytes.length) {v : Nat}
    (hv : v < 16) :
    ∃ b, ShowsBytes l (bytes.set (l.disp bytes.length d) b)
      (overwrite line (l.col d, [hexldigit v])) := by
  obtain ⟨offset, hoffset, hcells⟩ := h.cells
  have hfew : bytes.length ≤ 16 := h.few
  have hbounds := l.col_lt_ascii (d := d) (by omega)
  obtain ⟨old, hold⟩ : ∃ old : Byte, old = bytes.getD (l.disp bytes.length d) 0 := ⟨_, rfl⟩
  have hnibbles : ∀ v < 16, ∀ w < 16, (UInt8.ofNat (v <<< 4 ||| w)).toNat >>> 4 = v ∧
      (UInt8.ofNat (v <<< 4 ||| w)).toNat &&& 0xf = w := by
    decide
  obtain ⟨hhigh, hlow⟩ := hnibbles v hv (old.toNat &&& 0xf) (low_nibble _)
  have hnext : line.getD (l.col d + 1) 0 = hexldigit (old.toNat &&& 0xf) := by
    rw [hcells _ hbounds.2, (hexlcells_slot l offset hfew hd).2, hold]
  refine ⟨UInt8.ofNat (v <<< 4 ||| old.toNat &&& 0xf), h.overwrite_cells hd _ ?_ ?_ fun i _ => ?_⟩
  · intro y hy
    rw [List.mem_singleton.mp hy]
    exact hexldigit_plain v hv
  · exact Nat.succ_le_of_lt hbounds.1
  · rw [hhigh, hlow]
    dsimp only [List.length_cons, List.length_nil]
    by_cases h₁ : i = l.col d
    · rw [if_pos (by omega), if_pos h₁, h₁, Nat.sub_self]
      rfl
    · rw [if_neg (by omega), if_neg h₁]
      by_cases h₂ : i = l.col d + 1
      · rw [if_pos h₂, h₂, hnext]
      · rw [if_neg h₂]

/-- What is written into the ASCII area does not matter. -/
theorem ShowsBytes.ascii (h : ShowsBytes l bytes line) (hplain : Plain x.2)
    (hx : HEXLASCII ≤ x.1 ∧ x.1 + x.2.length ≤ HEXLWIDTH) :
    ShowsBytes l bytes (overwrite line x) := by
  obtain ⟨hline, hwidth, hfew, offset, hoffset, hcells⟩ := h
  have hfits : x.1 + x.2.length ≤ line.length := by omega
  refine ⟨hline.overwritten hplain, (length_overwrite hfits).trans hwidth, hfew, offset, hoffset, ?_⟩
  intro i hi
  rw [getD_overwrite hfits, if_neg (by omega), hcells i hi]

/-- **A byte is set**: the line shows the bytes with another one among them. -/
theorem ShowsBytes.byteplan (h : ShowsBytes l bytes line) {k : Int} (hk : 0 ≤ k)
    (hkn : k < bytes.length) {byte : Nat} (hbyte : byte < 256) :
    ∃ bytes', bytes'.length = bytes.length ∧
      ShowsBytes l bytes' ((byteplan k byte bytes.length l line).foldl overwrite line) := by
  have hfew : bytes.length ≤ 16 := h.few
  obtain ⟨k, rfl⟩ := Int.eq_ofNat_of_zero_le hk
  have hk : k < bytes.length := by omega
  have hcol : hexldigits k bytes.length l = l.col (l.disp bytes.length k) := by
    rw [hexldigits, l.dispInt hfew hk, Int.toNat_natCast]
    rfl
  have hval : (UInt8.ofNat byte).toNat = byte := by
    rw [UInt8.toNat_ofNat']
    exact Nat.mod_eq_of_lt hbyte
  have hdigits := h.digits (l.disp_lt hk) (UInt8.ofNat byte)
  rw [hval] at hdigits
  have hlen : (bytes.set (l.disp bytes.length (l.disp bytes.length k)) (UInt8.ofNat byte)).length =
    bytes.length := List.length_set
  refine ⟨_, hlen, ?_⟩
  unfold Emacs.byteplan
  dsimp only
  rw [hcol]
  split
  · refine hdigits.ascii (fun y hy => ?_) ⟨?_, ?_⟩
    · rw [List.mem_singleton.mp hy]
      exact printable_plain _
    · show HEXLASCII ≤ ((HEXLASCII : Int) + k).toNat
      omega
    · show ((HEXLASCII : Int) + k).toNat + 1 ≤ HEXLWIDTH
      have hascii : (HEXLASCII : Int) = 60 := rfl
      have hwidth : HEXLWIDTH = 76 := rfl
      omega
  · exact hdigits

/-! ## One keystroke -/

/-- **The character spoils no line.**  Typed on a slot of the hex area, a hex digit does not
spoil the line if the slot is refused, if the digit completes the byte whose first digit is
pending, or if it is the first digit of a byte of the line, spelled as in a dump. -/
def Harmless (l : HexlLayout) (c : Nat) (line : List Byte) (pos : POS) (pend : Pending) : Prop :=
  ∀ d v, hexlslot pos.o l = some (d, false) → hexlcharval c = some v →
    let n := hexllinebytes line l
    let k := hexldispInt d n l.group l.endian
    n ≤ k ∨ 0 ≤ k ∧
      (pend.hexlpend.isSome ∧ pend.hexlpend_lp = pos.p ∧ pend.hexlpend_k = k ∨
        d < n ∧ UInt8.ofNat c = hexldigit v)

instance (l : HexlLayout) (c : Nat) (line : List Byte) (pos : POS) (pend : Pending) :
    Decidable (Harmless l c line pos pend) :=
  decidable_of_iff
    (∀ s ∈ hexlslot pos.o l, ∀ v ∈ hexlcharval c, s.2 = false →
      let n := hexllinebytes line l
      let k := hexldispInt s.1 n l.group l.endian
      n ≤ k ∨ 0 ≤ k ∧
        (pend.hexlpend.isSome ∧ pend.hexlpend_lp = pos.p ∧ pend.hexlpend_k = k ∨
          s.1 < n ∧ UInt8.ofNat c = hexldigit v))
    ⟨fun h d v hslot hv => h (d, false) hslot v hv rfl, fun h s hs v hv hfalse => by
      obtain ⟨d, ascii⟩ := s
      obtain rfl : ascii = false := hfalse
      exact h d v hs hv⟩

/-- The byte that the cursor is on is one of the line. -/
def OnByte (l : HexlLayout) (line : List Byte) (o : Nat) : Prop :=
  ∀ d ascii, hexlslot o l = some (d, ascii) →
    let n := hexllinebytes line l
    (if ascii then (d : Int) else hexldispInt d n l.group l.endian) < n

/-- What `hexlself` does: it moves the cursor at most, or it overtypes what is planned. -/
theorem hexlself_cases (l : HexlLayout) (c : Nat) (e : Ed) (pend : Pending) :
    (∃ pos, (hexlself l c e pend).1 = e.setDot pos) ∨
      (e.line e.dot.p).l_text.length = HEXLWIDTH ∧ OnByte l (e.line e.dot.p).l_text e.dot.o ∧
      ((∃ k byte n pos, typeplan l c (e.line e.dot.p).l_text e.dot pend =
          byteplan k byte n l (e.line e.dot.p).l_text ∧
          (hexlself l c e pend).1 = (hexlsetbyte k byte n l e).1.setDot pos) ∨
        ∃ col b, typeplan l c (e.line e.dot.p).l_text e.dot pend = [(col, [b])] ∧
          (hexlself l c e pend).1 = (overtype col [b] e).1) := by
  unfold hexlself typeplan OnByte
  dsimp only
  by_cases hbad : e.dot.p = e.b_linep ∨ (e.line e.dot.p).l_text.length ≠ HEXLWIDTH ∨
      lgetc (e.line e.dot.p).l_text 8 ≠ 0x3a
  · rw [if_pos hbad]
    exact .inl ⟨e.dot, rfl⟩
  rw [if_neg hbad]
  have hwidth : (e.line e.dot.p).l_text.length = HEXLWIDTH := by
    by_contra hne
    exact hbad (.inr (.inl hne))
  generalize hexllinebytes (e.line e.dot.p).l_text l = n
  cases hslot : hexlslot e.dot.o l with
  | none => exact .inl ⟨e.dot, rfl⟩
  | some s =>
    obtain ⟨d, ascii⟩ := s
    dsimp only
    generalize hk : (if ascii = true then (d : Int) else hexldispInt d n l.group l.endian) = k
    by_cases hc : c = 9
    · rw [if_pos hc]
      exact .inl (hexlforward_eq d k ascii l e)
    rw [if_neg hc]
    by_cases hkn : k ≥ n
    · rw [if_pos hkn]
      exact .inl ⟨e.dot, rfl⟩
    rw [if_neg hkn]
    -- a byte is set, and the cursor steps forward
    have hset : ∀ byte, ∃ pos,
        (if (hexlsetbyte k byte n l e).2 = true then
          hexlforward d k ascii l (hexlsetbyte k byte n l e).1 else (hexlsetbyte k byte n l e).1) =
          (hexlsetbyte k byte n l e).1.setDot pos := by
      intro byte
      split
      · exact hexlforward_eq d k ascii l _
      · exact ⟨(hexlsetbyte k byte n l e).1.dot, rfl⟩
    have hon : ∀ d' ascii', some (d, ascii) = some (d', ascii') →
        (if ascii' = true then (d' : Int) else hexldispInt d' n l.group l.endian) < n := by
      intro d' ascii' heq
      obtain ⟨rfl, rfl⟩ := Prod.mk.inj (Option.some.inj heq)
      rw [hk]
      exact Int.not_le.mp hkn
    by_cases hascii : ascii = true
    · rw [if_pos hascii, if_pos hascii]
      obtain ⟨pos, hpos⟩ := hset (c % 256)
      exact .inr ⟨hwidth, hon, .inl ⟨k, c % 256, n, pos, rfl, hpos⟩⟩
    · rw [if_neg hascii, if_neg hascii]
      cases hv : hexlcharval c with
      | none => exact .inl ⟨e.dot, rfl⟩
      | some v =>
        cases hhigh : pend.hexlpend with
        | none => exact .inr ⟨hwidth, hon, .inr ⟨_, _, rfl, rfl⟩⟩
        | some high =>
          dsimp only
          by_cases hsame : pend.hexlpend_lp = e.dot.p ∧ pend.hexlpend_k = k
          · rw [if_pos hsame, if_pos hsame]
            obtain ⟨pos, hpos⟩ := hset (high.val <<< 4 ||| v.val)
            exact .inr ⟨hwidth, hon, .inl ⟨k, _, n, pos, rfl, hpos⟩⟩
          · rw [if_neg hsame, if_neg hsame]
            exact .inr ⟨hwidth, hon, .inr ⟨_, _, rfl, rfl⟩⟩

/-- A slot is one of sixteen. -/
theorem hexlslot_lt {ascii : Bool} (h : hexlslot o l = some (d, ascii)) : d < 16 := by
  unfold hexlslot at h
  split at h
  · rename_i hcol
    obtain ⟨rfl, -⟩ := Prod.mk.inj (Option.some.inj h)
    have h₁ : HEXLASCII = 60 := rfl
    have h₂ : HEXLBYTES = 16 := rfl
    omega
  · obtain ⟨d', hd', heq⟩ := Option.map_eq_some_iff.mp h
    obtain ⟨rfl, -⟩ := Prod.mk.inj heq
    exact List.mem_range.mp (List.mem_of_find?_eq_some hd')

/-- **A harmless character leaves a dump line**, with as many bytes. -/
theorem ShowsBytes.typed (h : ShowsBytes l bytes line) {pos : POS}
    (hok : Harmless l c line pos pend) (hon : OnByte l line pos.o) :
    ∃ bytes', bytes'.length = bytes.length ∧
      ShowsBytes l bytes' ((typeplan l c line pos pend).foldl overwrite line) := by
  have hfew : bytes.length ≤ 16 := h.few
  have hn := h.linebytes
  unfold Harmless at hok
  unfold OnByte at hon
  unfold typeplan
  rw [hn] at hok hon ⊢
  dsimp only at hok hon ⊢
  cases hslot : hexlslot pos.o l with
  | none => exact ⟨bytes, rfl, h⟩
  | some s =>
    obtain ⟨d, ascii⟩ := s
    have hd := hexlslot_lt hslot
    have hk := hon d ascii hslot
    dsimp only
    cases ascii with
    | true =>
      rw [if_pos rfl] at hk
      rw [if_pos rfl, if_pos rfl]
      exact h.byteplan (Int.natCast_nonneg d) hk (Nat.mod_lt _ (by decide))
    | false =>
      rw [if_neg Bool.false_ne_true] at hk
      rw [if_neg Bool.false_ne_true, if_neg Bool.false_ne_true]
      cases hv : hexlcharval c with
      | none => exact ⟨bytes, rfl, h⟩
      | some v =>
        obtain hrefused | ⟨hpos, hkind⟩ := hok d v hslot hv
        · exact absurd hrefused (Int.not_le.mpr hk)
        have hboth : ∀ a b : Fin 16, a.val <<< 4 ||| b.val < 256 := by decide
        -- the only digit that is not completed by a second one
        have hfirst : d < bytes.length ∧ UInt8.ofNat c = hexldigit v →
            ∃ bytes', bytes'.length = bytes.length ∧
              ShowsBytes l bytes' ([(l.col d, [UInt8.ofNat c])].foldl overwrite line) := by
          rintro ⟨hlt, hspelled⟩
          obtain ⟨b, hb⟩ := h.digit hlt v.isLt
          rw [hspelled]
          exact ⟨_, List.length_set, hb⟩
        dsimp only
        cases hhigh : pend.hexlpend with
        | none =>
          rw [hhigh] at hkind
          exact hfirst (hkind.resolve_left fun hc => Bool.false_ne_true hc.1)
        | some high =>
          dsimp only
          split
          · exact h.byteplan hpos hk (hboth high v)
          · rename_i hother
            exact hfirst (hkind.resolve_left fun hc => hother hc.2)

/-- An edit of the line of the cursor changes that line of the text. -/
theorem OnLine.text_set (h : OnLine A B line o e) (h' : OnLine A B line' o' e') :
    e.text[row isBreak A]? = some line ∧ e'.text = e.text.set (row isBreak A) line' := by
  have hsym : ∀ {line : List Byte} {o : Nat} {e : Ed}, OnLine A B line o e →
      e.symbols = A ++ (cells line ++ nl :: B) := by
    intro line o e h
    have htext := h.writable.shows_.text.symm
    rw [Zipper.text, List.append_assoc, ← List.append_assoc ((cells line).take o),
      List.take_append_drop] at htext
    exact htext
  have hset := h.writable.shows_.sound.text_set h'.writable.shows_.sound (hsym h) (hsym h') h.above
    h.plain.inline.noBreak h'.plain.inline.noBreak
  rwa [cells_flatten, cells_flatten] at hset

/-! ## The whole dump -/

/-- How many bytes are read from a line, `none` if it is not accepted. -/
def hexlcounts (l : HexlLayout) (lines : List (List Byte)) : List (Option Nat) :=
  lines.map fun line => (hexlparseline line l).map List.length

/-- Lines that are accepted, with so many bytes each, and an empty line after them. -/
structure Held (l : HexlLayout) (counts : List Nat) (e : Ed) : Prop where
  sound : Sound e
  plain : ∀ t ∈ e.text, Plain t
  counts : ∃ lines, e.text = lines ++ [[]] ∧ hexlcounts l lines = counts.map some

variable {counts : List Nat}

theorem Held.congr (h : Held l counts e) (hsound : Sound e') (htext : e'.text = e.text) :
    Held l counts e' :=
  ⟨hsound, by rw [htext]; exact h.plain, by rw [htext]; exact h.counts⟩

theorem Held.setDot (h : Held l counts e) (pos : POS) : Held l counts (e.setDot pos) :=
  h.congr ⟨h.sound.nodup, h.sound.header, h.sound.fresh, h.sound.inline, h.sound.empty⟩ rfl

/-- One line is replaced by a line with as many bytes. -/
theorem Held.set (h : Held l counts e) (hsound : Sound e') {m : Nat} (hget : e.text[m]? = some line)
    (hne : line ≠ []) (hplain : Plain line') (htext : e'.text = e.text.set m line')
    (hsame : ∀ bytes, hexlparseline line l = some bytes →
      (hexlparseline line' l).map List.length = some bytes.length) : Held l counts e' := by
  obtain ⟨lines, hlines, hcounts⟩ := h.counts
  have hm : m < lines.length := by
    by_contra hge
    rw [hlines, List.getElem?_append_right (by omega)] at hget
    cases hj : m - lines.length with
    | zero =>
      rw [hj] at hget
      exact hne (Option.some.inj hget).symm
    | succ j =>
      rw [hj] at hget
      cases hget
  rw [hlines, List.getElem?_append_left hm] at hget
  have hat : (hexlcounts l lines)[m]? = some ((hexlparseline line' l).map List.length) := by
    obtain ⟨k, hk⟩ : ∃ k, (counts.map some)[m]? = some (some k) := by
      have hlen := congrArg List.length hcounts
      rw [hexlcounts, List.length_map, List.length_map] at hlen
      exact ⟨counts[m], by rw [List.getElem?_map, List.getElem?_eq_getElem (by omega)]; rfl⟩
    rw [← hcounts, hexlcounts, List.getElem?_map, hget, Option.map_some] at hk
    obtain ⟨bytes, hbytes, -⟩ := Option.map_eq_some_iff.mp (Option.some.inj hk)
    rw [hexlcounts, List.getElem?_map, hget, Option.map_some, hsame bytes hbytes, hbytes]
    rfl
  refine ⟨hsound, fun t ht => ?_, lines.set m line', ?_, ?_⟩
  · rw [htext] at ht
    rcases List.mem_or_eq_of_mem_set ht with ht | rfl
    · exact h.plain t ht
    · exact hplain
  · rw [htext, hlines, List.set_append_left _ _ hm]
  · rw [← hcounts, hexlcounts, List.map_set]
    refine List.ext_getElem? fun j => ?_
    by_cases hj : m = j
    · rw [← hj, List.getElem?_set_self (by rwa [List.length_map]), hat]
    · rw [List.getElem?_set_ne hj]
      rfl

/-- Nothing is overtyped in a buffer that is read-only. -/
theorem overtype_readonly (hro : e.bfro = true) (buf : List Byte) :
    overtype o buf e = (e.setDot { e.dot with o := o }, false) := by
  have hwrite : (!(e.setDot { e.dot with o := o }).checkreadonly) = true := by
    show (!!e.bfro) = true
    rw [hro]
    rfl
  unfold overtype ldelete
  rw [if_neg (by omega), if_pos hwrite]
  rfl

/-- **A harmless keystroke** leaves the lines of the dump as they have to be. -/
theorem Held.keystroke (h : Held l counts e) (hdot : Within e e.dot)
    (hok : Harmless l c (e.line e.dot.p).l_text e.dot pend) {st : UNDOSTACK} {place : Nat × Nat}
    (hlog : Logged st place [] e) : Held l counts (hexlself l c e pend).1 := by
  obtain ⟨pos, hpos⟩ | ⟨hwidth, hon, hcases⟩ := hexlself_cases l c e pend
  · rw [hpos]
    exact h.setDot pos
  have hmem : e.dot.p ∈ e.lines := by
    refine hdot.1.resolve_right fun heq => ?_
    rw [heq, h.sound.empty] at hwidth
    cases hwidth
  by_cases hro : e.bfro = true
  · -- nothing is written
    rcases hcases with ⟨k, byte, n, pos, -, hself⟩ | ⟨col, b, -, hself⟩
    · rw [hself, hexlsetbyte, overtype_readonly hro]
      exact (h.setDot _).setDot pos
    · rw [hself, overtype_readonly hro]
      exact h.setDot _
  have hplain : Plain (e.line e.dot.p).l_text := h.plain _ (List.mem_map_of_mem hmem)
  have hline := h.sound.onLine hmem hdot.2 hplain ((Bool.not_eq_true _).mp hro)
  have hfits : Fits HEXLWIDTH (typeplan l c (e.line e.dot.p).l_text e.dot pend) := by
    refine typeplan_fits fun d ascii hslot hascii => ?_
    have hlt := hon d ascii hslot
    dsimp only at hlt
    rw [if_pos hascii] at hlt
    exact Int.ofNat_lt.mp hlt
  rw [← hwidth] at hfits
  -- the keystroke overtypes what is planned
  have hself : ∃ pos, (hexlself l c e pend).1 =
      (overtypes (typeplan l c (e.line e.dot.p).l_text e.dot pend) e).1.setDot pos := by
    rcases hcases with ⟨k, byte, n, pos, hplan, hself⟩ | ⟨col, b, hplan, hself⟩
    · rw [hplan] at hfits ⊢
      exact ⟨pos, by rw [hself, hline.setbyte hfits hlog]⟩
    · refine ⟨(overtype col [b] e).1.dot, ?_⟩
      have hone : (overtypes [(col, [b])] e).1 = (overtype col [b] e).1 := by
        rw [overtypes]
        dsimp only
        split <;> rfl
      rw [hplan, hself, hone]
      rfl
  obtain ⟨pos, hself⟩ := hself
  obtain ⟨-, o', acts, hnew, -⟩ := hline.overtypings hfits hlog fun a ha => absurd ha List.not_mem_nil
  obtain ⟨hget, hset⟩ := hline.text_set hnew
  rw [hself]
  refine Held.setDot (h.set hnew.writable.shows_.sound hget ?_ hnew.plain hset ?_) pos
  · intro hnil
    rw [hnil] at hwidth
    cases hwidth
  · intro bytes hbytes
    obtain ⟨bytes', hlen, hshows⟩ := ((showsBytes_iff hplain).mpr hbytes).typed hok hon
    rw [(showsBytes_iff hnew.plain).mp hshows, Option.map_some, hlen]

/-! ## Runs -/

/-- A character is typed with the cursor at a place. -/
def typeAt (l : HexlLayout) (x : POS × Nat) (s : Ed × Pending) : Except Unit (Ed × Pending) :=
  let r := hexlself l x.2 (s.1.setDot x.1).startsaveundo s.2
  .ok (r.1.endsaveundo, r.2.1)

/-- The place is in the buffer. -/
def InBuffer (x : POS × Nat) (s : Ed × Pending) : Prop := Within s.1 x.1

/-- The place is in the buffer, and the character is harmless there. -/
def Spares (l : HexlLayout) (x : POS × Nat) (s : Ed × Pending) : Prop :=
  InBuffer x s ∧ Harmless l x.2 (s.1.line x.1.p).l_text x.1 s.2

instance (x : POS × Nat) (s : Ed × Pending) : Decidable (InBuffer x s) :=
  inferInstanceAs (Decidable (_ ∧ _))

instance (l : HexlLayout) (x : POS × Nat) (s : Ed × Pending) : Decidable (Spares l x s) :=
  inferInstanceAs (Decidable (_ ∧ _))

/-- Every line is accepted, with as many bytes as in the dump, and so the dump can be
saved. -/
def Accepted (bp : Dump) (e : Ed) : Prop :=
  hexlcounts bp.b_hexl (dumpLines e.text) = hexlcounts bp.b_hexl (dumpLines bp.lines) ∧
    none ∉ hexlcounts bp.b_hexl (dumpLines e.text) ∧
    ({ bp with lines := e.text } : Dump).parse ≠ none

theorem plain_hexlmakelines (l : HexlLayout) (chunks : List (List Byte)) (offset : Nat) :
    ∀ t ∈ hexlmakelines l offset chunks, Plain t := by
  induction chunks generalizing offset with
  | nil => exact fun t ht => absurd ht List.not_mem_nil
  | cons bytes chunks ih =>
    intro t ht
    rcases List.mem_cons.mp ht with rfl | ht
    · exact plain_hexlmakeline offset bytes l
    · exact ih _ t ht

theorem hexlcounts_makelines (l : HexlLayout) (chunks : List (List Byte)) (offset : Nat)
    (hlen : ∀ bytes ∈ chunks, bytes.length ≤ HEXLBYTES) :
    hexlcounts l (hexlmakelines l offset chunks) = (chunks.map List.length).map some := by
  induction chunks generalizing offset with
  | nil => rfl
  | cons bytes chunks ih =>
    have hrest := ih (offset + bytes.length) fun b hb => hlen b (List.mem_cons_of_mem _ hb)
    rw [hexlcounts] at hrest
    rw [hexlmakelines, hexlcounts, List.map_cons, hrest,
      hexlparseline_hexlmakeline offset l (hlen bytes List.mem_cons_self)]
    rfl

/-- A buffer with the lines of a dump. -/
theorem Dumps.held {file : List Byte} {bp : Dump} (h : Dumps file bp) (he : Sound e)
    (htext : e.text = bp.lines) :
    ∃ counts, Held bp.b_hexl counts e ∧ hexlcounts bp.b_hexl (dumpLines bp.lines) =
      counts.map some := by
  obtain ⟨chunks, -, hlen, hlines⟩ := h.lines
  have hcounts := hexlcounts_makelines bp.b_hexl chunks 0 hlen
  refine ⟨chunks.map List.length, ⟨he, fun t ht => ?_, _, htext.trans hlines, hcounts⟩, ?_⟩
  · rw [htext, hlines] at ht
    rcases List.mem_append.mp ht with ht | ht
    · exact plain_hexlmakelines _ _ _ t ht
    · rw [List.mem_singleton.mp ht]
      exact fun b hb => absurd hb List.not_mem_nil
  · rw [hlines, dumpLines_append, hcounts]

/-- All lines parse together if each of them does. -/
theorem mapM_ne_none {lines : List (List Byte)} (h : none ∉ hexlcounts l lines) :
    lines.mapM (fun line => hexlparseline line l) ≠ none := by
  induction lines with
  | nil => exact fun hn => by cases hn
  | cons line lines ih =>
    rw [hexlcounts, List.map_cons, List.mem_cons, not_or] at h
    cases hline : hexlparseline line l with
    | none =>
      rw [hline] at h
      exact absurd rfl h.1
    | some bytes =>
      cases hrest : lines.mapM fun line => hexlparseline line l with
      | none => exact absurd hrest (ih h.2)
      | some rest =>
        rw [List.mapM_cons, hline, hrest]
        exact fun hn => by cases hn

theorem Held.accepted {bp : Dump} (h : Held bp.b_hexl counts e)
    (hcounts : hexlcounts bp.b_hexl (dumpLines bp.lines) = counts.map some) : Accepted bp e := by
  obtain ⟨lines, htext, hlines⟩ := h.counts
  have hdump : dumpLines e.text = lines := by rw [htext, dumpLines_append]
  have hnone : none ∉ hexlcounts bp.b_hexl (dumpLines e.text) := by
    rw [hdump, hlines]
    simp
  refine ⟨by rw [hdump, hlines, hcounts], hnone, ?_⟩
  exact mapM_ne_none hnone

/-- **Typing keeps every line**: after a run of characters that are harmless where they are
typed, every line is accepted, with as many bytes as before. -/
theorem typing_keeps (file : List Byte) (bp : Dump) (e : Ed) (pend : Pending) (xs : List (POS × Nat))
    (s : Ed × Pending) (hdump : Dumps file bp) (he : Sound e) (htext : e.text = bp.lines)
    (hrun : Machine.Run (typeAt bp.b_hexl) (Spares bp.b_hexl) (e, pend) xs s) :
    Accepted bp s.1 := by
  obtain ⟨counts, hheld, hcounts⟩ := hdump.held he htext
  have hstep : ∀ x (s t : Ed × Pending), Held bp.b_hexl counts s.1 → Spares bp.b_hexl x s →
      typeAt bp.b_hexl x s = .ok t → Held bp.b_hexl counts t.1 := by
    intro x s t hs hok hstep
    obtain rfl := Except.ok.inj hstep
    have hstart : Held bp.b_hexl counts (s.1.setDot x.1).startsaveundo :=
      (hs.setDot x.1).congr
        ⟨hs.sound.nodup, hs.sound.header, hs.sound.fresh, hs.sound.inline, hs.sound.empty⟩ rfl
    exact hstart.keystroke hok.1 hok.2 (startsaveundo_logged _)
  exact (hrun.preserves (fun s => Held bp.b_hexl counts s.1) hstep hheld).accepted hcounts

/-- A dump of two bytes. -/
def twoBytes : Dump where
  lines := [hexlmakeline 0 [0x41, 0x42] gnuLayout, []]
  bfhexl := true
  bfchg := false
  bfbak := true
  b_fname := "ab"
  b_hexl := gnuLayout

/-- The buffer with its lines. -/
def twoBytesEd : Ed := Ed.holding twoBytes.lines ⟨2, 10⟩ ⟨2, 0⟩

theorem dumps_twoBytes : Dumps [0x41, 0x42] twoBytes :=
  ⟨rfl, [[0x41, 0x42]], rfl, by decide, rfl⟩

theorem sound_twoBytesEd : Sound twoBytesEd := by
  refine Ed.sound_holding fun t ht => ?_
  rcases List.mem_cons.mp ht with rfl | ht
  · exact ⟨_, (plain_hexlmakeline 0 [0x41, 0x42] gnuLayout).inline, (cells_flatten _).symm⟩
  · rw [List.mem_singleton.mp ht]
    exact ⟨[], .nil, rfl⟩

/-- `6` and `F`, typed over the first byte. -/
theorem typing_keeps_twoBytes : ∃ s, Machine.Run (typeAt gnuLayout) (Spares gnuLayout)
    (twoBytesEd, ⟨none, null, 0⟩) [(⟨2, 10⟩, 0x36), (⟨2, 11⟩, 0x46)] s ∧ Accepted twoBytes s.1 := by
  have hchecks : Machine.checks (typeAt gnuLayout) (fun x s => decide (Spares gnuLayout x s))
      (fun _ => true) [(⟨2, 10⟩, 0x36), (⟨2, 11⟩, 0x46)] (twoBytesEd, ⟨none, null, 0⟩) = true := by
    decide
  obtain ⟨s, hrun, -⟩ := Machine.exists_of_checks (fun _ _ h => of_decide_eq_true h) hchecks
  exact ⟨s, hrun, typing_keeps [0x41, 0x42] twoBytes twoBytesEd ⟨none, null, 0⟩ _ s dumps_twoBytes
    sound_twoBytesEd rfl hrun⟩

/-- **An upper-case digit**, typed as the first one of a byte, spoils the line. -/
theorem typing_spoils : ¬ ∀ (file : List Byte) (bp : Dump) (e : Ed) (pend : Pending)
    (xs : List (POS × Nat)) (s : Ed × Pending), Dumps file bp → Sound e → e.text = bp.lines →
    Machine.Run (typeAt bp.b_hexl) InBuffer (e, pend) xs s → Accepted bp s.1 := by
  intro hall
  have hchecks : Machine.checks (typeAt gnuLayout) (fun x s => decide (InBuffer x s))
      (fun s => decide (none ∈ hexlcounts gnuLayout (dumpLines s.1.text))) [(⟨2, 10⟩, 0x46)]
      (twoBytesEd, ⟨none, null, 0⟩) = true := by
    decide
  obtain ⟨s, hrun, hrefused⟩ :=
    Machine.exists_of_checks (fun _ _ h => of_decide_eq_true h) hchecks
  have haccepted := hall [0x41, 0x42] twoBytes twoBytesEd ⟨none, null, 0⟩ _ s dumps_twoBytes
    sound_twoBytesEd rfl hrun
  exact haccepted.2.1 (of_decide_eq_true hrefused)

end Emacs
