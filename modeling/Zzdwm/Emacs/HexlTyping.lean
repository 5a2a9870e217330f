import Zzdwm.Emacs.HexlLine
import Zzdwm.Emacs.TextUndo

/-!
# Typing over a hex dump (`hexl.c`)

A character typed into a dump overwrites one hex digit, or the two digits and the
character of a byte.  The cursor is moved to each of these places, and no record
says so: the whole keystroke is one stretch, at the position where it started.

* `hexlself`, `hexlsetbyte` — the code, with the pending digit;
* `typeplan`, `OnLine.keystroke` — **what a keystroke overwrites**;
* `Retraced` — the places that it overwrites are the ones that `undo` rewrites;
* `hexlself_undo_iff` — when one `undo` restores the dump line.
-/

namespace Emacs

open Journal (Zipper Act row col)

/-! ## The code -/

/-- `hexldisp` on `int`s.  The slots past the end of the file have bytes of their own,
which may be negative. -/
def hexldispInt (i n group : Int) (endian : Bool) : Int :=
  let base := i - i.tmod group
  let size := if base + group > n then n - base else group
  if !endian || size < 2 then i else base + size - 1 - (i - base)

/-- `lgetc` over a line. -/
def lgetc (line : List Byte) (i : Nat) : Byte := line.getD i 0

/-- `hexllinebytes`. -/
def hexllinebytes (line : List Byte) (l : HexlLayout) : Nat :=
  ((List.range HEXLBYTES).takeWhile fun d => (hexlhexval (lgetc line (l.col d))).isSome).length

/-- `hexlpend`, `hexlpend_lp` and `hexlpend_k`; the digit is `none` for -1. -/
structure Pending where
  hexlpend : Option (Fin 16)
  hexlpend_lp : LineId
  hexlpend_k : Int

/-- Move the cursor within its line, delete as many characters as `buf` has, and insert
`buf`.  What `linsert` returns is not looked at. -/
def overtype (o : Nat) (buf : List Byte) (e : Ed) : Ed × Bool :=
  let (e, status) := ldelete buf.length (e.setDot { e.dot with o := o })
  if !status then (e, false) else ((linsert (.str buf) e).1, true)

/-- The column that `hexlsetbyte` writes the digits of a byte to. -/
def hexldigits (k : Int) (n : Nat) (l : HexlLayout) : Nat :=
  hexlhexcol (hexldispInt k n l.group l.endian).toNat l.group l.packed

/-- `hexlsetbyte`. -/
def hexlsetbyte (k : Int) (byte n : Nat) (l : HexlLayout) (e : Ed) : Ed × Bool :=
  let (e, status) := overtype (hexldigits k n l) [hexldigit (byte >>> 4), hexldigit (byte &&& 0xf)] e
  if !status then (e, false)
  else
    let c := printable (UInt8.ofNat byte)
    let o := (HEXLASCII + k).toNat
    if lgetc (e.line e.dot.p).l_text o ≠ c then overtype o [c] e else (e, true)

/-- `hexlforward`. -/
def hexlforward (d : Nat) (k : Int) (ascii : Bool) (l : HexlLayout) (e : Ed) : Ed :=
  if ascii then
    if k + 1 < HEXLBYTES then e.setDot { e.dot with o := (HEXLASCII + k + 1).toNat }
    else e.setDot ⟨e.lforw e.dot.p, HEXLASCII⟩
  else
    if d + 1 < HEXLBYTES then e.setDot { e.dot with o := l.col (d + 1) }
    else e.setDot ⟨e.lforw e.dot.p, l.col 0⟩

/-- The slot that the cursor is on, and whether that is in the ASCII area. -/
def hexlslot (col : Nat) (l : HexlLayout) : Option (Nat × Bool) :=
  if HEXLASCII ≤ col ∧ col < HEXLASCII + HEXLBYTES then some (col - HEXLASCII, true)
  else
    ((List.range HEXLBYTES).find? fun d => col = l.col d || col = l.col d + 1).map fun d => (d, false)

/-- The value of a character that is a hex digit. -/
def hexlcharval (c : Nat) : Option (Fin 16) :=
  if c < 256 then (hexlhexval (UInt8.ofNat c)).map (Fin.ofNat 16) else none

/-- `hexlself`. -/
def hexlself (l : HexlLayout) (c : Nat) (e : Ed) (pend : Pending) : Ed × Pending × Bool :=
  let line := (e.line e.dot.p).l_text
  if e.dot.p = e.b_linep ∨ line.length ≠ HEXLWIDTH ∨ lgetc line 8 ≠ 0x3a then (e, pend, false)
  else
    let n := hexllinebytes line l
    match hexlslot e.dot.o l with
    | none => (e, pend, false)
    | some (d, ascii) =>
      let k : Int := if ascii then d else hexldispInt d n l.group l.endian
      if c = 9 then (hexlforward d k ascii l e, { pend with hexlpend := none }, true)
      else if k ≥ n then (e, pend, false)
      else if ascii then
        let (e, status) := hexlsetbyte k (c % 256) n l e
        (if status then hexlforward d k ascii l e else e, { pend with hexlpend := none }, status)
      else
        match hexlcharval c with
        | none => (e, pend, false)
        | some v =>
          match pend.hexlpend with
          | some high =>
            if pend.hexlpend_lp = e.dot.p ∧ pend.hexlpend_k = k then
              let (e, status) := hexlsetbyte k (high.val <<< 4 ||| v.val) n l e
              (if status then hexlforward d k ascii l e else e, { pend with hexlpend := none }, status)
            else
              let (e, status) := overtype (l.col d) [UInt8.ofNat c] e
              (e, ⟨some v, if status then e.dot.p else pend.hexlpend_lp, k⟩, status)
          | none =>
            let (e, status) := overtype (l.col d) [UInt8.ofNat c] e
            (e, ⟨some v, if status then e.dot.p else pend.hexlpend_lp, k⟩, status)

/-- The command that types a character. -/
def typed (l : HexlLayout) (c : Nat) (e : Ed) (pend : Pending) : Ed :=
  (hexlself l c e.startsaveundo pend).1.endsaveundo

/-! ## What a keystroke overwrites -/

/-- Write some bytes over a line, at a column. -/
def overwrite (line : List Byte) (x : Nat × List Byte) : List Byte :=
  line.take x.1 ++ x.2 ++ line.drop (x.1 + x.2.length)

/-- The bytes that are written over, in the order in which they are. -/
def overwritten : List (Nat × List Byte) → List Byte → List Byte
  | [], _ => []
  | x :: xs, line => (line.drop x.1).take x.2.length ++ overwritten xs (overwrite line x)

/-- What `hexlsetbyte` overwrites. -/
def byteplan (k : Int) (byte n : Nat) (l : HexlLayout) (line : List Byte) : List (Nat × List Byte) :=
  let digits := (hexldigits k n l, [hexldigit (byte >>> 4), hexldigit (byte &&& 0xf)])
  let c := printable (UInt8.ofNat byte)
  let o := (HEXLASCII + k).toNat
  if lgetc (overwrite line digits) o ≠ c then [digits, (o, [c])] else [digits]

/-- What a character overwrites that is typed with the cursor at `pos`. -/
def typeplan (l : HexlLayout) (c : Nat) (line : List Byte) (pos : POS) (pend : Pending) :
    List (Nat × List Byte) :=
  let n := hexllinebytes line l
  match hexlslot pos.o l with
  | none => []
  | some (d, ascii) =>
    let k : Int := if ascii then d else hexldispInt d n l.group l.endian
    if ascii then byteplan k (c % 256) n l line
    else
      match hexlcharval c with
      | none => []
      | some v =>
        match pend.hexlpend with
        | some high =>
          if pend.hexlpend_lp = pos.p ∧ pend.hexlpend_k = k then
            byteplan k (high.val <<< 4 ||| v.val) n l line
          else [(l.col d, [UInt8.ofNat c])]
        | none => [(l.col d, [UInt8.ofNat c])]

/-- The keystroke overwrites nothing but the columns from the cursor on, as many as it
overwrites in all, and in the order in which they are in the line. -/
def Retraced (xs : List (Nat × List Byte)) (line : List Byte) (o : Nat) : Prop :=
  let new := xs.foldl overwrite line
  let old := overwritten xs line
  new.take o = line.take o ∧ (line.drop o).take old.length = old ∧
    new.drop (o + old.length) = line.drop (o + old.length)

instance (xs : List (Nat × List Byte)) (line : List Byte) (o : Nat) : Decidable (Retraced xs line o) := by
  unfold Retraced
  infer_instance

/-- A line of characters of one byte. -/
def Plain (line : List Byte) : Prop := ∀ b ∈ line, b < 0x80 ∧ b ≠ newline

/-- The characters of a line that is plain. -/
def cells (line : List Byte) : List UChar := line.map fun b => [b]

variable {l : HexlLayout} {c : Nat} {e e' : Ed} {pend : Pending} {line : List Byte}
  {A B : List UChar} {o : Nat} {x : Nat × List Byte} {xs : List (Nat × List Byte)}

theorem uclen_plain {b : Byte} (h : b < 0x80) : uclen b = 1 := if_pos h

theorem Plain.inline (h : Plain line) : Inline (cells line) := by
  refine ⟨fun c hc => ?_, fun hmem => ?_⟩
  · obtain ⟨b, hb, rfl⟩ := List.mem_map.mp hc
    exact ⟨uclen_plain (h b hb).1, List.not_mem_nil⟩
  · obtain ⟨b, hb, heq⟩ := List.mem_map.mp hmem
    exact (h b hb).2 (List.cons.inj heq).1

@[simp] theorem cells_flatten (line : List Byte) : (cells line).flatten = line := by
  induction line with
  | nil => rfl
  | cons b line ih =>
    rw [cells, List.map_cons, List.flatten_cons]
    exact congrArg (b :: ·) ih

@[simp] theorem length_cells (line : List Byte) : (cells line).length = line.length := List.length_map ..

theorem cells_append (s t : List Byte) : cells (s ++ t) = cells s ++ cells t := List.map_append

theorem cells_take (s : List Byte) (n : Nat) : cells (s.take n) = (cells s).take n := List.map_take

theorem cells_drop (s : List Byte) (n : Nat) : cells (s.drop n) = (cells s).drop n := List.map_drop

theorem Plain.append {s t : List Byte} (hs : Plain s) (ht : Plain t) : Plain (s ++ t) :=
  fun b hb => (List.mem_append.mp hb).elim (hs b) (ht b)

theorem Plain.take (h : Plain line) (n : Nat) : Plain (line.take n) :=
  fun b hb => h b (List.mem_of_mem_take hb)

theorem Plain.drop (h : Plain line) (n : Nat) : Plain (line.drop n) :=
  fun b hb => h b (List.mem_of_mem_drop hb)

theorem length_overwrite (hx : x.1 + x.2.length ≤ line.length) :
    (overwrite line x).length = line.length := by
  rw [overwrite, List.length_append, List.length_append, List.length_take, List.length_drop]
  omega

theorem Plain.overwritten (h : Plain line) (hx : Plain x.2) : Plain (overwrite line x) :=
  ((h.take _).append hx).append (h.drop _)

theorem hexldigit_plain : ∀ v < 16, hexldigit v < 0x80 ∧ hexldigit v ≠ newline := by decide

theorem printable_plain (b : Byte) : printable b < 0x80 ∧ printable b ≠ newline := by
  have hall : ∀ v < 256, printable (UInt8.ofNat v) < 0x80 ∧ printable (UInt8.ofNat v) ≠ newline := by
    decide +kernel
  have h := hall b.toNat b.toNat_lt
  rwa [UInt8.ofNat_toNat] at h

/-- A digit, a blank or what stands for a byte. -/
theorem hexlcells_plain (offset : Nat) (bytes : List Byte) (l : HexlLayout) (i : Nat) :
    hexlcells offset bytes l i < 0x80 ∧ hexlcells offset bytes l i ≠ newline := by
  have hupdate : ∀ {buf : Cells} {b : Byte} {j : Nat}, (∀ i, buf i < 0x80 ∧ buf i ≠ newline) →
      b < 0x80 ∧ b ≠ newline →
      ∀ i, Function.update buf j b i < 0x80 ∧ Function.update buf j b i ≠ newline := by
    intro buf b j hbuf hb i
    by_cases hij : i = j
    · rw [hij, Function.update_self]
      exact hb
    · rw [Function.update_of_ne hij]
      exact hbuf i
  have hoffset : ∀ (m offset : Nat) (buf : Cells), (∀ i, buf i < 0x80 ∧ buf i ≠ newline) →
      ∀ i, hexloffset m offset buf i < 0x80 ∧ hexloffset m offset buf i ≠ newline := by
    intro m
    induction m with
    | zero => exact fun _ _ hbuf => hbuf
    | succ m ih => exact fun offset _ hbuf => ih _ _ (hupdate hbuf (hexldigit_plain _ (low_nibble offset)))
  have hfold : ∀ (is : List Nat) (buf : Cells), (∀ i, buf i < 0x80 ∧ buf i ≠ newline) →
      ∀ i, is.foldl (hexlput l bytes) buf i < 0x80 ∧ is.foldl (hexlput l bytes) buf i ≠ newline := by
    intro is
    induction is with
    | nil => exact fun _ hbuf => hbuf
    | cons j is ih =>
      intro buf hbuf
      exact ih _ (hupdate (hupdate (hupdate hbuf (hexldigit_plain _ (high_nibble _)))
        (hexldigit_plain _ (low_nibble _))) (printable_plain _))
  exact hfold _ _ (hupdate (hoffset _ _ _ fun _ => by decide) (by decide)) i

/-- **A dump line is plain.** -/
theorem plain_hexlmakeline (offset : Nat) (bytes : List Byte) (l : HexlLayout) :
    Plain (hexlmakeline offset bytes l) := by
  intro b hb
  obtain ⟨i, -, rfl⟩ := List.mem_map.mp hb
  exact hexlcells_plain offset bytes l i

/-- How far the columns pass a test. -/
theorem takeWhile_range_length {p : Nat → Bool} {m n : Nat} (hle : n ≤ m)
    (hin : ∀ i < n, p i = true) (hstop : n < m → p n = false) :
    ((List.range m).takeWhile p).length = n := by
  have hsplit : List.range m = List.range n ++ (List.range (m - n)).map (n + ·) := by
    rw [← List.range_add, Nat.add_sub_cancel' hle]
  rw [hsplit, List.takeWhile_append_of_pos fun i hi => hin i (List.mem_range.mp hi)]
  cases hm : m - n with
  | zero => rw [List.range_zero, List.map_nil, List.takeWhile_nil, List.append_nil, List.length_range]
  | succ k =>
    have hfalse : p (n + 0) = false := hstop (by omega)
    rw [List.range_succ_eq_map, List.map_cons, List.takeWhile_cons_of_neg, List.append_nil,
      List.length_range]
    rw [hfalse]
    exact Bool.false_ne_true

/-! ## The line of the cursor -/

/-- The cursor is at the offset `o` of the line `line`, the text `A` being above and `B`
below. -/
structure OnLine (A B : List UChar) (line : List Byte) (o : Nat) (e : Ed) : Prop where
  writable : Writable e ⟨A ++ (cells line).take o, (cells line).drop o ++ nl :: B⟩
  above : col isBreak A = 0
  plain : Plain line
  offset : o ≤ line.length

/-- The line and the offset are those of the cursor. -/
theorem OnLine.here (h : OnLine A B line o e) :
    e.chars e.dot.p = cells line ∧ (e.line e.dot.p).l_text = line ∧
      ∃ as bs, e.lines = as ++ e.dot.p :: bs ∧ A = as.flatMap e.row ∧ B = bs.flatMap e.row := by
  have hs := h.writable.shows_
  have hin := h.plain.inline
  obtain ⟨hin', htext⟩ := hs.sound.chars hs.mem
  obtain ⟨as, bs, hl, hz⟩ := hs.split
  obtain ⟨hleft, hright⟩ := Zipper.mk.inj hz
  have hcol : e.dot.o = o := by
    have hpos := hs.position.2
    dsimp only at hpos
    rw [Journal.col_append_of_row (hin.take o).row, h.above, Nat.zero_add, List.length_take,
      length_cells, Nat.min_eq_left h.offset] at hpos
    exact hpos
  have hlen : ((cells line).take o).length = ((e.chars e.dot.p).take e.dot.o).length := by
    rw [List.length_take, List.length_take, length_cells, Nat.min_eq_left h.offset,
      Nat.min_eq_left hs.offset, hcol]
  obtain ⟨hA, htake⟩ := List.append_inj' hleft hlen
  have htakes : ∀ {cs : List UChar} {v : List UChar}, Inline cs →
      (cs ++ nl :: v).takeWhile (fun c => !isBreak c) = cs := fun {cs v} hcs => by
    have hall : ∀ c ∈ cs, (!isBreak c) = true := by
      intro c hc
      have hne : c ≠ nl := fun heq => hcs.noBreak (heq ▸ hc)
      simpa [isBreak] using hne
    rw [List.takeWhile_append_of_pos hall, List.takeWhile_cons_of_neg (by simp [isBreak]),
      List.append_nil]
  have hdrop : (cells line).drop o = (e.chars e.dot.p).drop e.dot.o := by
    have heq := congrArg (List.takeWhile fun c => !isBreak c) hright
    rwa [htakes (hin.drop o), htakes (hin'.drop _)] at heq
  have hchars : e.chars e.dot.p = cells line := by
    rw [← List.take_append_drop e.dot.o (e.chars e.dot.p), ← htake, ← hdrop, List.take_append_drop]
  rw [hdrop] at hright
  refine ⟨hchars, ?_, as, bs, hl, hA, (List.cons.inj (List.append_cancel_left hright)).2⟩
  rw [htext, hchars, cells_flatten]

/-- The line of the cursor, between the text above and the text below. -/
theorem Sound.onLine (h : Sound e) (hmem : e.dot.p ∈ e.lines)
    (hoff : e.dot.o ≤ (e.line e.dot.p).wllength) (hplain : Plain (e.line e.dot.p).l_text)
    (hro : e.bfro = false) :
    OnLine (e.above.flatMap e.row) (e.below.flatMap e.row) (e.line e.dot.p).l_text e.dot.o e := by
  have hs := h.shows_here hmem hoff
  have hchars : e.chars e.dot.p = cells (e.line e.dot.p).l_text :=
    Ed.chars_eq (cells_flatten _).symm hplain.inline
  have hheader : e.dot.p ≠ e.b_linep := fun heq => h.header (heq ▸ hmem)
  have hafter : e.after = (e.chars e.dot.p).drop e.dot.o ++ nl :: e.below.flatMap e.row := if_neg hheader
  have habove : row isBreak (e.above.flatMap e.row) = e.above.length ∧
      col isBreak (e.above.flatMap e.row) = 0 :=
    h.lines_position fun q hq => (List.takeWhile_prefix _).subset hq
  refine ⟨⟨?_, hro⟩, habove.2, hplain, ?_⟩
  · rw [← hchars, ← hafter]
    exact hs
  · have hle := hs.offset
    rwa [hchars, length_cells] at hle

/-- A command begins. -/
theorem OnLine.startsaveundo (h : OnLine A B line o e) : OnLine A B line o e.startsaveundo :=
  ⟨⟨h.writable.shows_.congr rfl rfl rfl rfl rfl, h.writable.bfro⟩, h.above, h.plain, h.offset⟩

/-- The cursor is moved within the line. -/
theorem OnLine.move (h : OnLine A B line o e) (o' : Nat) (ho : o' ≤ line.length) :
    OnLine A B line o' (e.setDot { e.dot with o := o' }) := by
  obtain ⟨hchars, -, as, bs, hl, hA, hB⟩ := h.here
  have hat := h.writable.shows_.sound.shows_at hl (o := o') (by rwa [hchars, length_cells])
  rw [hchars, ← hA, ← hB] at hat
  exact ⟨⟨hat, h.writable.bfro⟩, h.above, h.plain, ho⟩

section Typing

variable {st : UNDOSTACK} {pos : Nat × Nat} {acts : List (Act UChar)}

/-- **Overtyping** overwrites, and saves a deletion and an insertion. -/
theorem OnLine.overtyped (h : OnLine A B line o e) (hx : x.1 + x.2.length ≤ line.length)
    (hne : x.2 ≠ []) (hplain : Plain x.2) (hlog : Logged st pos acts e) :
    ∃ vss : List (List UChar), vss.flatten = cells ((line.drop x.1).take x.2.length) ∧
      (overtype x.1 x.2 e).2 = true ∧
      OnLine A B (overwrite line x) (x.1 + x.2.length) (overtype x.1 x.2 e).1 ∧
      Logged st pos (acts ++ vss.map deletion ++ [.ins x.2.length (cells x.2)])
        (overtype x.1 x.2 e).1 := by
  have hm := h.move x.1 (by omega)
  have hlog' : Logged st pos acts (e.setDot { e.dot with o := x.1 }) := hlog.congr rfl rfl rfl
  have hrest : x.2.length ≤ ((cells line).drop x.1).length := by
    rw [List.length_drop, length_cells]
    omega
  have hlen : x.2.length ≤ ((cells line).drop x.1 ++ nl :: B).length := by
    rw [List.length_append]
    omega
  obtain ⟨hdel, htrue⟩ := ldelete_shows hm.writable.shows_ hm.writable.bfro x.2.length
  have hloop : ldelete x.2.length (e.setDot { e.dot with o := x.1 }) =
      ldeleteLoop x.2.length x.2.length (e.setDot { e.dot with o := x.1 }) := by
    have hwrite : (!(e.setDot { e.dot with o := x.1 }).checkreadonly) = false := by
      simp [Ed.checkreadonly, hm.writable.bfro]
    unfold ldelete
    rw [if_neg (by omega), hwrite, if_neg Bool.false_ne_true, Int.toNat_natCast]
  obtain ⟨vss, hflat, hnil, hlast⟩ := ldeleteLoop_logged _ _ hm.writable.shows_
    (Nat.le_refl x.2.length) hlen hlog'
  have hdel' : Zipper.delete x.2.length
      (⟨A ++ (cells line).take x.1, (cells line).drop x.1 ++ nl :: B⟩ : Zipper UChar) =
      ⟨A ++ (cells line).take x.1, (cells line).drop (x.1 + x.2.length) ++ nl :: B⟩ := by
    rw [Zipper.delete_of_lt (by rw [List.length_append, List.length_cons]; omega),
      List.drop_append_of_le_length hrest, List.drop_drop]
  have hbfro := (ldelete_bfro x.2.length (e.setDot { e.dot with o := x.1 })).trans hm.writable.bfro
  rw [hdel'] at hdel
  rw [← hloop] at hlast
  have hvss : vss ≠ [] := by
    rintro rfl
    have hzero := congrArg List.length hflat
    rw [List.length_take, Nat.min_eq_left hlen] at hzero
    exact hne (List.eq_nil_of_length_eq_zero hzero.symm)
  obtain ⟨wss, w, rfl⟩ := (List.eq_nil_or_concat vss).resolve_left hvss
  have hins := linsert_shows hdel hbfro (spells_str hplain.inline)
  rw [cells_flatten] at hins
  have hlog'' : Logged st pos ((acts ++ wss.map deletion) ++ [deletion w])
      (ldelete x.2.length (e.setDot { e.dot with o := x.1 })).1 := by
    rw [List.concat_eq_append, List.map_append, ← List.append_assoc] at hlast
    exact hlast
  have hsaved := linsert_logged hdel hbfro hplain.inline hlog''
  rw [cells_flatten, length_cells] at hsaved
  have hover : overtype x.1 x.2 e =
      ((linsert (.str x.2) (ldelete x.2.length (e.setDot { e.dot with o := x.1 })).1).1, true) := by
    unfold overtype
    generalize ldelete x.2.length (e.setDot { e.dot with o := x.1 }) = r at htrue ⊢
    obtain ⟨e', status⟩ := r
    dsimp only at htrue ⊢
    rw [htrue, Bool.not_true, if_neg Bool.false_ne_true]
  rw [hover]
  refine ⟨wss.concat w, ?_, rfl, ⟨⟨?_, (linsert_bfro ..).trans hbfro⟩, h.above,
    h.plain.overwritten hplain, ?_⟩, ?_⟩
  · rw [hflat, List.take_append_of_le_length hrest, cells_take, cells_drop]
  · have hleft : ((cells line).take x.1 ++ cells x.2).length = x.1 + x.2.length := by
      rw [List.length_append, List.length_take, length_cells, length_cells]
      omega
    have hsplit : cells (overwrite line x) =
        ((cells line).take x.1 ++ cells x.2) ++ (cells line).drop (x.1 + x.2.length) := by
      rw [overwrite, cells_append, cells_append, cells_take, cells_drop]
    rw [hsplit, List.take_left' hleft, List.drop_left' hleft, ← List.append_assoc]
    exact hins.1
  · rw [length_overwrite hx]
    exact hx
  · rw [List.concat_eq_append, List.map_append, ← List.append_assoc]
    exact hsaved

/-- Overtyping several times. -/
def overtypes : List (Nat × List Byte) → Ed → Ed × Bool
  | [], e => (e, true)
  | x :: xs, e =>
      let (e, status) := overtype x.1 x.2 e
      if !status then (e, false) else overtypes xs e

/-- The bytes are within a line of `n` columns, and plain. -/
def Fits (n : Nat) (xs : List (Nat × List Byte)) : Prop :=
  ∀ x ∈ xs, x.1 + x.2.length ≤ n ∧ x.2 ≠ [] ∧ Plain x.2

/-- **A run of overtyping.** -/
theorem OnLine.overtypings (h : OnLine A B line o e) (hfits : Fits line.length xs)
    (hlog : Logged st pos acts e) (hwhole : ∀ a ∈ acts, WholeAct a) :
    (overtypes xs e).2 = true ∧ ∃ o' acts',
      OnLine A B (xs.foldl overwrite line) o' (overtypes xs e).1 ∧
      Logged st pos acts' (overtypes xs e).1 ∧ (∀ a ∈ acts', WholeAct a) ∧
      Journal.dels acts' = Journal.dels acts ++ cells (overwritten xs line) ∧
      Journal.taken acts' = Journal.taken acts + (overwritten xs line).length := by
  induction xs generalizing line o e acts with
  | nil =>
    refine ⟨rfl, o, acts, h, hlog, hwhole, ?_, rfl⟩
    rw [overwritten, cells, List.map_nil, List.append_nil]
  | cons x xs ih =>
    obtain ⟨hx, hne, hplain⟩ := hfits x List.mem_cons_self
    obtain ⟨vss, hflat, htrue, hon, hlog'⟩ := h.overtyped hx hne hplain hlog
    obtain ⟨hdels, htaken⟩ := deletions_acts vss
    have hlen := length_overwrite hx
    have hwords : ∀ a ∈ acts ++ vss.map deletion ++ [Act.ins x.2.length (cells x.2)], WholeAct a := by
      intro a ha
      rcases List.mem_append.mp ha with ha | ha
      · rcases List.mem_append.mp ha with ha | ha
        · exact hwhole a ha
        · obtain ⟨v, hv, rfl⟩ := List.mem_map.mp ha
          intro c hc
          have hmem : c ∈ vss.flatten := List.mem_flatten.mpr ⟨v, hv, hc⟩
          rw [hflat] at hmem
          exact ((h.plain.drop _).take _).inline.whole c hmem
      · rw [List.mem_singleton.mp ha]
        exact hplain.inline.whole
    obtain ⟨hall, o', acts', hon', hlast, hwhole', hd, ht⟩ :=
      ih hon (fun y hy => by rw [hlen]; exact hfits y (List.mem_cons_of_mem _ hy)) hlog' hwords
    have hrun : overtypes (x :: xs) e = overtypes xs (overtype x.1 x.2 e).1 := by
      rw [overtypes]
      generalize overtype x.1 x.2 e = r at htrue ⊢
      obtain ⟨e', status⟩ := r
      dsimp only at htrue ⊢
      rw [htrue, Bool.not_true, if_neg Bool.false_ne_true]
    rw [hrun]
    refine ⟨hall, o', acts', hon', hlast, hwhole', ?_, ?_⟩
    · rw [hd, overwritten, cells_append, Journal.dels_append, Journal.dels_append, hdels, hflat]
      simp [Act.dels]
    · rw [ht, overwritten, Journal.taken_append, Journal.taken_append, htaken, List.length_append,
        List.length_take, List.length_drop, Nat.min_eq_left (by omega)]
      simp [Act.taken]
      omega

/-- **`hexlsetbyte`** overtypes what is planned. -/
theorem OnLine.setbyte {k : Int} {byte n : Nat} (h : OnLine A B line o e)
    (hfits : Fits line.length (byteplan k byte n l line)) (hlog : Logged st pos acts e) :
    hexlsetbyte k byte n l e = overtypes (byteplan k byte n l line) e := by
  have hdigits : (hexldigits k n l, [hexldigit (byte >>> 4), hexldigit (byte &&& 0xf)]) ∈
      byteplan k byte n l line := by
    unfold byteplan
    dsimp only
    split <;> exact List.mem_cons_self
  obtain ⟨hx, hne, hplain⟩ := hfits _ hdigits
  obtain ⟨-, -, htrue, hon, -⟩ := h.overtyped hx hne hplain hlog
  obtain ⟨-, htext, -⟩ := hon.here
  unfold hexlsetbyte byteplan
  dsimp only at htrue htext ⊢
  generalize hover : overtype (hexldigits k n l) [hexldigit (byte >>> 4), hexldigit (byte &&& 0xf)] e = r
    at htrue htext ⊢
  obtain ⟨e', status⟩ := r
  dsimp only at htrue htext ⊢
  rw [htrue, Bool.not_true, if_neg Bool.false_ne_true, htext]
  have hrun : ∀ ys, overtypes ((hexldigits k n l,
      [hexldigit (byte >>> 4), hexldigit (byte &&& 0xf)]) :: ys) e = overtypes ys e' := by
    intro ys
    rw [overtypes, hover, htrue]
    rfl
  split
  · rw [hrun, overtypes]
    generalize overtype _ _ e' = r
    obtain ⟨e'', status''⟩ := r
    cases status'' <;> rfl
  · rw [hrun]
    rfl

/-! ## The columns -/

/-- The slots, whatever the line has of them. -/
theorem slot_bounds : ∀ g ∈ groupSizes, ∀ n : Nat, n < 17 → ∀ d : Nat, d < 16 → ∀ b : Bool,
    0 ≤ HEXLASCII + hexldispInt d n g b ∧ hexldispInt d n g b < 16 ∧
      0 ≤ hexldispInt (hexldispInt d n g b) n g b ∧
      hexldispInt (hexldispInt d n g b) n g b < 16 ∧ (d < n → 0 ≤ hexldispInt d n g b) := by
  decide +kernel

theorem hexllinebytes_lt (line : List Byte) (l : HexlLayout) : hexllinebytes line l < 17 := by
  have hle := (List.takeWhile_prefix (l := List.range HEXLBYTES)
    fun d => (hexlhexval (lgetc line (l.col d))).isSome).length_le
  rw [List.length_range] at hle
  exact Nat.lt_succ_of_le hle

/-- What is planned for a byte fits into a dump line. -/
theorem byteplan_fits {k : Int} {byte n : Nat} (hbyte : byte < 256) (hk : 0 ≤ HEXLASCII + k ∧ k < 16)
    (hslot : 0 ≤ hexldispInt k n l.group l.endian ∧ hexldispInt k n l.group l.endian < 16) :
    Fits HEXLWIDTH (byteplan k byte n l line) := by
  have hdigits : hexldigits k n l + 2 ≤ HEXLWIDTH := by
    have hlt : (hexldispInt k n l.group l.endian).toNat < 16 := by omega
    have hb := (l.col_bounds hlt).2
    have hwidth : HEXLASCII ≤ HEXLWIDTH := by decide
    exact Nat.le_trans hb hwidth
  have hnibbles : Plain [hexldigit (byte >>> 4), hexldigit (byte &&& 0xf)] := by
    have hhigh : byte >>> 4 < 16 := by
      rw [Nat.shiftRight_eq_div_pow]
      omega
    have hlow := low_nibble byte
    intro b hb
    rcases List.mem_cons.mp hb with rfl | hb
    · exact hexldigit_plain _ hhigh
    · rw [List.mem_singleton.mp hb]
      exact hexldigit_plain _ hlow
  intro x hx
  unfold byteplan at hx
  dsimp only at hx
  have hcases : x = (hexldigits k n l, [hexldigit (byte >>> 4), hexldigit (byte &&& 0xf)]) ∨
      x = ((HEXLASCII + k).toNat, [printable (UInt8.ofNat byte)]) := by
    split at hx
    · simpa using hx
    · exact .inl (by simpa using hx)
  rcases hcases with rfl | rfl
  · exact ⟨hdigits, List.cons_ne_nil _ _, hnibbles⟩
  · refine ⟨?_, List.cons_ne_nil _ _, fun b hb => ?_⟩
    · show (HEXLASCII + k).toNat + 1 ≤ 76
      have hascii : (HEXLASCII : Int) = 60 := rfl
      omega
    · rw [List.mem_singleton.mp hb]
      exact printable_plain _

/-- What is planned fits, where a character overwrites something. -/
theorem typeplan_fits {pos : POS}
    (hbyte : ∀ d ascii, hexlslot pos.o l = some (d, ascii) → ascii = true → d < hexllinebytes line l) :
    Fits HEXLWIDTH (typeplan l c line pos pend) := by
  have hn := hexllinebytes_lt line l
  unfold typeplan
  dsimp only
  cases hslot : hexlslot pos.o l with
  | none => exact fun x hx => absurd hx List.not_mem_nil
  | some s =>
    obtain ⟨d, ascii⟩ := s
    have hd : d < 16 := by
      unfold hexlslot at hslot
      split at hslot
      · rename_i hcol
        obtain ⟨rfl, -⟩ := Prod.mk.inj (Option.some.inj hslot)
        have h1 : HEXLASCII = 60 := rfl
        have h2 : HEXLBYTES = 16 := rfl
        omega
      · obtain ⟨d', hd', heq⟩ := Option.map_eq_some_iff.mp hslot
        obtain ⟨rfl, -⟩ := Prod.mk.inj heq
        exact List.mem_range.mp (List.mem_of_find?_eq_some hd')
    obtain ⟨h1, h2, h3, h4, h5⟩ := slot_bounds l.group l.size _ hn d hd l.endian
    dsimp only
    cases ascii with
    | true =>
      have hlt := hbyte d true hslot rfl
      have hascii : (HEXLASCII : Int) = 60 := rfl
      rw [if_pos rfl, if_pos rfl]
      exact byteplan_fits (Nat.mod_lt _ (by decide)) ⟨by omega, by omega⟩ ⟨h5 hlt, h2⟩
    | false =>
      rw [if_neg Bool.false_ne_true, if_neg Bool.false_ne_true]
      have hsingle : ∀ v, hexlcharval c = some v → Fits HEXLWIDTH [(l.col d, [UInt8.ofNat c])] := by
        intro v hv x hx
        obtain rfl := List.mem_singleton.mp hx
        have hcol := (l.col_bounds hd).2
        have hwidth : HEXLASCII + 1 ≤ HEXLWIDTH := by decide
        have hplain : ∀ m < 256, hexlhexval (UInt8.ofNat m) ≠ none →
            UInt8.ofNat m < 0x80 ∧ UInt8.ofNat m ≠ newline := by
          decide +kernel
        refine ⟨?_, List.cons_ne_nil _ _, fun b hb => ?_⟩
        · show l.col d + 1 ≤ HEXLWIDTH
          omega
        · rw [List.mem_singleton.mp hb]
          unfold hexlcharval at hv
          split at hv
          · rename_i hlt
            refine hplain c hlt fun hnone => ?_
            rw [hnone] at hv
            cases hv
          · cases hv
      cases hv : hexlcharval c with
      | none => exact fun x hx => absurd hx List.not_mem_nil
      | some v =>
        dsimp only
        cases pend.hexlpend with
        | none => exact hsingle v hv
        | some high =>
          dsimp only
          split
          · have hall : ∀ a b : Fin 16, a.val <<< 4 ||| b.val < 256 := by decide +kernel
            exact byteplan_fits (hall high v) ⟨h1, h2⟩ ⟨h3, h4⟩
          · exact hsingle v hv

/-! ## A keystroke -/

theorem hexlforward_eq (d : Nat) (k : Int) (ascii : Bool) (l : HexlLayout) (e : Ed) :
    ∃ pos, hexlforward d k ascii l e = e.setDot pos := by
  unfold hexlforward
  split
  · split <;> exact ⟨_, rfl⟩
  · split <;> exact ⟨_, rfl⟩

/-- What a character does that is typed and accepted: `hexlsetbyte`, or one digit. -/
theorem hexlself_accepts (hwrote : (hexlself l c e pend).2.2 = true) (hc : c ≠ 9) :
    e.dot.p ≠ e.b_linep ∧ (e.line e.dot.p).l_text.length = HEXLWIDTH ∧
    (∀ d ascii, hexlslot e.dot.o l = some (d, ascii) → ascii = true →
      d < hexllinebytes (e.line e.dot.p).l_text l) ∧
    ((∃ k byte n pos, typeplan l c (e.line e.dot.p).l_text e.dot pend =
        byteplan k byte n l (e.line e.dot.p).l_text ∧ (hexlsetbyte k byte n l e).2 = true ∧
        (hexlself l c e pend).1 = (hexlsetbyte k byte n l e).1.setDot pos) ∨
      ∃ col b, typeplan l c (e.line e.dot.p).l_text e.dot pend = [(col, [b])] ∧
        (overtype col [b] e).2 = true ∧ (hexlself l c e pend).1 = (overtype col [b] e).1) := by
  unfold hexlself at hwrote ⊢
  unfold typeplan
  dsimp only at hwrote ⊢
  by_cases hbad : e.dot.p = e.b_linep ∨ (e.line e.dot.p).l_text.length ≠ HEXLWIDTH ∨
      lgetc (e.line e.dot.p).l_text 8 ≠ 0x3a
  · rw [if_pos hbad] at hwrote
    cases hwrote
  rw [if_neg hbad] at hwrote ⊢
  obtain ⟨hp, hwidth, -⟩ : e.dot.p ≠ e.b_linep ∧ (e.line e.dot.p).l_text.length = HEXLWIDTH ∧ True := by
    refine ⟨fun heq => hbad (.inl heq), ?_, trivial⟩
    by_contra hne
    exact hbad (.inr (.inl hne))
  refine ⟨hp, hwidth, ?_⟩
  generalize hn : hexllinebytes (e.line e.dot.p).l_text l = n at hwrote ⊢
  cases hslot : hexlslot e.dot.o l with
  | none =>
    rw [hslot] at hwrote
    cases hwrote
  | some s =>
    obtain ⟨d, ascii⟩ := s
    rw [hslot] at hwrote
    dsimp only at hwrote ⊢
    generalize hk : (if ascii = true then (d : Int) else hexldispInt d n l.group l.endian) = k
      at hwrote ⊢
    rw [if_neg hc] at hwrote ⊢
    by_cases hkn : k ≥ n
    · rw [if_pos hkn] at hwrote
      cases hwrote
    rw [if_neg hkn] at hwrote ⊢
    -- a byte is set, and the cursor steps forward
    have hset : ∀ (pend' : Pending) {byte : Nat}, ((if (hexlsetbyte k byte n l e).2 = true then
          hexlforward d k ascii l (hexlsetbyte k byte n l e).1 else (hexlsetbyte k byte n l e).1, pend',
        (hexlsetbyte k byte n l e).2) : Ed × Pending × Bool).2.2 = true →
        (hexlsetbyte k byte n l e).2 = true ∧ ∃ pos,
          (if (hexlsetbyte k byte n l e).2 = true then
            hexlforward d k ascii l (hexlsetbyte k byte n l e).1 else (hexlsetbyte k byte n l e).1) =
            (hexlsetbyte k byte n l e).1.setDot pos := by
      intro pend' byte hstatus
      have htrue : (hexlsetbyte k byte n l e).2 = true := hstatus
      obtain ⟨pos, hpos⟩ := hexlforward_eq d k ascii l (hexlsetbyte k byte n l e).1
      exact ⟨htrue, pos, by rw [if_pos htrue, hpos]⟩
    refine ⟨?_, ?_⟩
    · intro d' ascii' hsome hascii
      obtain ⟨rfl, rfl⟩ := Prod.mk.inj (Option.some.inj hsome)
      rw [if_pos hascii] at hk
      omega
    · by_cases hascii : ascii = true
      · rw [if_pos hascii] at hwrote ⊢
        obtain ⟨htrue, pos, hpos⟩ := hset { pend with hexlpend := none } hwrote
        rw [if_pos hascii]
        exact .inl ⟨k, c % 256, n, pos, rfl, htrue, hpos⟩
      · rw [if_neg hascii] at hwrote ⊢
        rw [if_neg hascii]
        cases hv : hexlcharval c with
        | none =>
          rw [hv] at hwrote
          cases hwrote
        | some v =>
          rw [hv] at hwrote
          dsimp only at hwrote ⊢
          cases hhigh : pend.hexlpend with
          | none =>
            rw [hhigh] at hwrote
            exact .inr ⟨_, _, rfl, hwrote, rfl⟩
          | some high =>
            rw [hhigh] at hwrote
            dsimp only at hwrote ⊢
            split at hwrote
            · rename_i hsame
              rw [if_pos hsame, if_pos hsame]
              obtain ⟨htrue, pos, hpos⟩ := hset { pend with hexlpend := none } hwrote
              exact .inl ⟨k, _, n, pos, rfl, htrue, hpos⟩
            · rename_i hother
              rw [if_neg hother, if_neg hother]
              exact .inr ⟨_, _, rfl, hwrote, rfl⟩

/-- Nothing is overtyped in a buffer that is read-only. -/
theorem overtype_writes {buf : List Byte} (h : (overtype o buf e).2 = true) : e.bfro = false := by
  by_contra hro
  have hwrite : (!(e.setDot { e.dot with o := o }).checkreadonly) = true := by
    simp [Ed.checkreadonly, Ed.setDot] at hro ⊢
    exact hro
  have hfail : ldelete buf.length (e.setDot { e.dot with o := o }) =
      (e.setDot { e.dot with o := o }, false) := by
    unfold ldelete
    rw [if_neg (by omega), if_pos hwrite]
  unfold overtype at h
  rw [hfail] at h
  cases h

theorem hexlsetbyte_writes {k : Int} {byte n : Nat} (h : (hexlsetbyte k byte n l e).2 = true) :
    e.bfro = false := by
  have hdigits : (overtype (hexldigits k n l) [hexldigit (byte >>> 4), hexldigit (byte &&& 0xf)] e).2 =
      true := by
    by_contra hfail
    unfold hexlsetbyte at h
    generalize overtype (hexldigits k n l) [hexldigit (byte >>> 4), hexldigit (byte &&& 0xf)] e = r
      at h hfail
    obtain ⟨e', status⟩ := r
    dsimp only at h hfail
    rw [Bool.not_eq_true] at hfail
    rw [hfail, Bool.not_false, if_pos rfl] at h
    cases h
  exact overtype_writes hdigits

/-- **A keystroke** overtypes what is planned, and moves the cursor. -/
theorem OnLine.keystroke (h : OnLine A B line o e)
    (hwrote : (hexlself l c e pend).2.2 = true) (hc : c ≠ 9) (hlog : Logged st pos acts e) :
    typeplan l c line e.dot pend ≠ [] ∧ Fits line.length (typeplan l c line e.dot pend) ∧
      ∃ pos', (hexlself l c e pend).1 =
        (overtypes (typeplan l c line e.dot pend) e).1.setDot pos' := by
  obtain ⟨-, hwidth, hbyte, hcases⟩ := hexlself_accepts hwrote hc
  obtain ⟨-, htext, -⟩ := h.here
  rw [htext] at hwidth hbyte hcases
  have hfits : Fits line.length (typeplan l c line e.dot pend) := by
    rw [hwidth]
    exact typeplan_fits hbyte
  rcases hcases with ⟨k, byte, n, pos', hplan, -, hself⟩ | ⟨col, b, hplan, -, hself⟩
  · rw [hplan] at hfits ⊢
    rw [h.setbyte hfits hlog] at hself
    refine ⟨?_, hfits, pos', hself⟩
    unfold byteplan
    dsimp only
    split <;> exact List.cons_ne_nil _ _
  · rw [hplan] at hfits ⊢
    refine ⟨List.cons_ne_nil _ _, hfits, (overtype col [b] e).1.dot, ?_⟩
    rw [hself, overtypes]
    generalize overtype col [b] e = r
    obtain ⟨e', status⟩ := r
    cases status <;> rfl

end Typing

/-! ## The result -/

/-- The line at which a part of the text starts. -/
theorem line_at {X : List UChar} (h : Sound e) (hsym : e.symbols = A ++ X) (hA : col isBreak A = 0)
    (hX : X ≠ []) :
    e.text[row isBreak A]? = some (X.takeWhile fun c => !isBreak c).flatten := by
  obtain ⟨as, p, bs, hl, hrow, -, -, hright⟩ := find_pos h.noBreak hsym hX
  rw [hA, List.drop_zero] at hright
  obtain ⟨hin, htext⟩ := h.chars (p := p) (by rw [hl]; simp)
  have hall : ∀ c ∈ e.chars p, (!isBreak c) = true := by
    intro c hc
    have hne : c ≠ nl := fun heq => hin.noBreak (heq ▸ hc)
    simpa [isBreak] using hne
  rw [hright, List.takeWhile_append_of_pos hall, List.takeWhile_cons_of_neg (by simp [isBreak]),
    List.append_nil, ← htext, hrow, Ed.text, hl, List.map_append, List.map_cons,
    List.getElem?_append_right (by rw [List.length_map]), List.length_map, Nat.sub_self]
  rfl

theorem length_overwrites (h : Fits line.length xs) :
    (xs.foldl overwrite line).length = line.length := by
  induction xs generalizing line with
  | nil => rfl
  | cons x xs ih =>
    have hlen := length_overwrite (h x List.mem_cons_self).1
    rw [List.foldl_cons, ih fun y hy => by rw [hlen]; exact h y (List.mem_cons_of_mem _ hy), hlen]

theorem overwritten_plain (hline : Plain line) (h : Fits line.length xs) :
    Plain (overwritten xs line) := by
  induction xs generalizing line with
  | nil => exact fun b hb => absurd hb List.not_mem_nil
  | cons x xs ih =>
    obtain ⟨hx, -, hplain⟩ := h x List.mem_cons_self
    have hlen := length_overwrite hx
    exact ((hline.drop _).take _).append (ih (hline.overwritten hplain)
      fun y hy => by rw [hlen]; exact h y (List.mem_cons_of_mem _ hy))

theorem overwritten_pos (hne : xs ≠ []) (h : Fits line.length xs) :
    0 < (overwritten xs line).length := by
  obtain ⟨x, xs, rfl⟩ := List.exists_cons_of_ne_nil hne
  obtain ⟨hx, hxne, -⟩ := h x List.mem_cons_self
  have hpos := List.length_pos_iff.mpr hxne
  rw [overwritten, List.length_append, List.length_take, List.length_drop]
  omega

/-- A line in three parts. -/
theorem three_parts {u v w : List Byte} (hu : u.length = o) (hv : o + v.length ≤ line.length) :
    u ++ v ++ w = line ↔
      u = line.take o ∧ (line.drop o).take v.length = v ∧ w = line.drop (o + v.length) := by
  constructor
  · rintro rfl
    subst hu
    refine ⟨?_, ?_, ?_⟩
    · rw [List.append_assoc, List.take_left]
    · rw [List.append_assoc, List.drop_left, List.take_left]
    · rw [← List.length_append, List.drop_left]
  · rintro ⟨rfl, hmid, rfl⟩
    conv_lhs => rw [← hmid]
    rw [List.append_assoc, List.length_take, List.length_drop, Nat.min_eq_left (by omega),
      ← List.drop_drop, List.take_append_drop, List.take_append_drop]

/-- **What `undo` makes of the line** after a run of overtyping. -/
theorem undone_line (h : Sound e') {new old : List Byte} (hA : col isBreak A = 0)
    (hnew : Plain new) (hold : Plain old) (hlen : new.length = line.length) (ho : o ≤ line.length)
    (hsym : e'.symbols = (((Zipper.mk (A ++ (cells new).take o)
      ((cells new).drop o ++ nl :: B)).delete old.length).insert (cells old)).text) :
    e'.text[row isBreak A]? = some line ↔
      new.take o = line.take o ∧ (line.drop o).take old.length = old ∧
        new.drop (o + old.length) = line.drop (o + old.length) := by
  have hall : ∀ {s : List Byte}, Plain s → ∀ c ∈ cells s, (!isBreak c) = true := by
    intro s hs c hc
    have hne : c ≠ nl := fun heq => hs.inline.noBreak (heq ▸ hc)
    simpa [isBreak] using hne
  obtain ⟨R, hR⟩ : ∃ R, ((Zipper.mk (A ++ (cells new).take o)
      ((cells new).drop o ++ nl :: B)).delete old.length).right = R := ⟨_, rfl⟩
  have hsym' : e'.symbols = A ++ (cells (new.take o ++ old) ++ R) := by
    rw [hsym, ← hR, Zipper.text, Zipper.insert, Zipper.delete, cells_append, cells_take]
    simp only [List.append_assoc]
  have hRne : R ≠ [] := by
    rw [← hR, Zipper.delete]
    intro hnil
    have hzero := congrArg List.length hnil
    rw [List.length_drop, List.length_append, List.length_cons, List.length_nil] at hzero
    omega
  have hline := line_at h hsym' hA (by simp [hRne])
  rw [List.takeWhile_append_of_pos (hall ((hnew.take o).append hold)), List.flatten_append,
    cells_flatten] at hline
  rw [hline, Option.some_inj]
  have htake : (new.take o).length = o := by
    rw [List.length_take, hlen, Nat.min_eq_left ho]
  by_cases hfit : o + old.length ≤ line.length
  · have hcells : old.length ≤ ((cells new).drop o).length := by
      rw [List.length_drop, length_cells, hlen]
      omega
    have hdrop : R = cells (new.drop (o + old.length)) ++ nl :: B := by
      rw [← hR, Zipper.delete_of_lt (by rw [List.length_append, List.length_cons]; omega)]
      dsimp only
      rw [List.drop_append_of_le_length hcells, List.drop_drop, cells_drop]
    rw [hdrop, List.takeWhile_append_of_pos (hall (hnew.drop _)),
      List.takeWhile_cons_of_neg (by simp [isBreak]), List.append_nil, cells_flatten]
    exact three_parts htake hfit
  · refine iff_of_false (fun heq => hfit ?_) fun hparts => hfit ?_
    · have hle := congrArg List.length heq
      rw [List.length_append, List.length_append, htake] at hle
      omega
    · have hle := congrArg List.length hparts.2.1
      rw [List.length_take, List.length_drop] at hle
      omega

/-- **A keystroke that is undone.** -/
theorem OnLine.undone (h : OnLine A B line o e) {st : UNDOSTACK}
    (hlog : Logged st (row isBreak A, o) [] e) (hwrote : (hexlself l c e pend).2.2 = true)
    (hc : c ≠ 9) :
    (undo (hexlself l c e pend).1).1.text[row isBreak A]? = some line ↔
      Retraced (typeplan l c line e.dot pend) line o := by
  obtain ⟨hne, hfits, pos', hself⟩ := h.keystroke hwrote hc hlog
  generalize typeplan l c line e.dot pend = xs at hne hfits hself ⊢
  obtain ⟨-, o', acts, hon, hlog', hwhole, hdels, htaken⟩ :=
    h.overtypings hfits hlog fun a ha => absurd ha List.not_mem_nil
  rw [Journal.dels_nil, List.nil_append] at hdels
  rw [Journal.taken_nil, Nat.zero_add] at htaken
  have hpos := overwritten_pos hne hfits
  have hlen := length_overwrites hfits
  have hacts : acts ≠ [] := by
    rintro rfl
    rw [Journal.taken_nil] at htaken
    omega
  obtain ⟨a, acts, rfl⟩ := List.exists_cons_of_ne_nil hacts
  obtain ⟨-, flag, gs, hgroup⟩ := hlog'.some hacts
  have hs := hon.writable.shows_.sound
  have hsym : (overtypes xs e).1.symbols = (A ++ (cells (xs.foldl overwrite line)).take o) ++
      ((cells (xs.foldl overwrite line)).drop o ++ nl :: B) := by
    rw [← hon.writable.shows_.text, Zipper.text]
    simp only [List.append_assoc]
    rw [← List.append_assoc ((cells _).take o'), List.take_append_drop,
      ← List.append_assoc ((cells _).take o), List.take_append_drop]
  have hrow := (hon.plain.inline.take o).row
  have hplace : row isBreak (A ++ (cells (xs.foldl overwrite line)).take o) = row isBreak A ∧
      col isBreak (A ++ (cells (xs.foldl overwrite line)).take o) = o := by
    rw [Journal.row_append, hrow, Journal.col_append_of_row hrow, h.above, List.length_take,
      length_cells, hlen, Nat.min_eq_left h.offset]
    exact ⟨rfl, Nat.zero_add _⟩
  have hs' : Sound ((overtypes xs e).1.setDot pos') :=
    ⟨hs.nodup, hs.header, hs.fresh, hs.inline, hs.empty⟩
  rw [← hplace.2] at hgroup
  conv at hgroup in row isBreak A => rw [← hplace.1]
  have hundo := undo_records_at hwhole hs' hon.writable.bfro hsym (by simp) hgroup
  rw [Journal.foldl_undo, hdels, htaken] at hundo
  rw [hself]
  exact undone_line hundo.sound h.above hon.plain (overwritten_plain h.plain hfits) hlen h.offset
    hundo.text.symm

/-- **Typing over a dump.**  After a keystroke that has overwritten something, `undo`
restores the line in exactly the cases of `Retraced`. -/
theorem hexlself_undo_iff (l : HexlLayout) (c : Nat) (e : Ed) (pend : Pending) (h : Sound e)
    (hdot : e.dot.p ∈ e.lines ∧ e.dot.o ≤ (e.line e.dot.p).wllength)
    (hplain : Plain (e.line e.dot.p).l_text)
    (hwrote : (hexlself l c e.startsaveundo pend).2.2 = true) (hc : c ≠ 9) :
    (undo (typed l c e pend)).1.text[e.lineno e.dot.p]? = some (e.line e.dot.p).l_text ↔
      Retraced (typeplan l c (e.line e.dot.p).l_text e.dot pend) (e.line e.dot.p).l_text e.dot.o := by
  have hs := h.shows_here hdot.1 hdot.2
  have hro : e.bfro = false := by
    obtain ⟨-, -, -, hcases⟩ := hexlself_accepts hwrote hc
    rcases hcases with ⟨_, _, _, _, -, htrue, -⟩ | ⟨_, _, -, htrue, -⟩
    · exact hexlsetbyte_writes (e := e.startsaveundo) htrue
    · exact overtype_writes (e := e.startsaveundo) htrue
  have hline := (h.onLine hdot.1 hdot.2 hplain hro).startsaveundo
  have hrow : row isBreak (e.above.flatMap e.row) = e.lineno e.dot.p := by
    have hnone := ((h.chars hdot.1).1.take e.dot.o).row
    rw [hs.position.1, Journal.row_append, hnone, Nat.add_zero]
  have hlog := startsaveundo_logged e
  rw [← hrow] at hlog ⊢
  exact hline.undone hlog hwrote hc

theorem gnuGroup : HEXLDEFGROUP ∈ groupSizes := by decide

/-- The layout that a dump opens in. -/
def gnuLayout : HexlLayout := ⟨HEXLDEFGROUP, false, false, gnuGroup, fun _ => rfl⟩

/-- A dump of the bytes `AB`, with the cursor at an offset of its only line. -/
def dumpAB (o : Nat) : Ed := Ed.holding [hexlmakeline 0 [0x41, 0x42] gnuLayout] ⟨2, o⟩ ⟨2, 0⟩

theorem sound_dumpAB (o : Nat) : Sound (dumpAB o) := by
  refine Ed.sound_holding fun t ht => ?_
  rw [List.mem_singleton.mp ht]
  exact ⟨_, (plain_hexlmakeline 0 [0x41, 0x42] gnuLayout).inline, (cells_flatten _).symm⟩

/-- The first digit of a byte, typed with the cursor on it, is taken back. -/
theorem hexlself_undo_iff_dumpAB :
    (undo (typed gnuLayout 0x37 (dumpAB 10) ⟨none, null, 0⟩)).1.text[0]? =
      some (hexlmakeline 0 [0x41, 0x42] gnuLayout) := by
  have hplain : Plain ((dumpAB 10).line (dumpAB 10).dot.p).l_text :=
    plain_hexlmakeline 0 [0x41, 0x42] gnuLayout
  exact (hexlself_undo_iff gnuLayout 0x37 (dumpAB 10) ⟨none, null, 0⟩ (sound_dumpAB 10)
    ⟨by decide, by decide +kernel⟩ hplain (by decide +kernel) (by decide)).mpr (by decide +kernel)

/-- **The second digit of a byte is not taken back**: `41` becomes `47`, and then `441` in
front of the next byte. -/
theorem hexlself_undo_misplaced :
    ¬ ∀ (l : HexlLayout) (c : Nat) (e : Ed) (pend : Pending), Sound e →
      e.dot.p ∈ e.lines ∧ e.dot.o ≤ (e.line e.dot.p).wllength →
      (∃ offset bytes, bytes.length ≤ HEXLBYTES ∧
        (e.line e.dot.p).l_text = hexlmakeline offset bytes l) →
      (hexlself l c e.startsaveundo pend).2.2 = true → c ≠ 9 →
      (undo (typed l c e pend)).1.text[e.lineno e.dot.p]? = some (e.line e.dot.p).l_text := by
  intro hall
  have hline : ((dumpAB 11).line (dumpAB 11).dot.p).l_text = hexlmakeline 0 [0x41, 0x42] gnuLayout := rfl
  have hundo := hall gnuLayout 0x37 (dumpAB 11) ⟨some 4, 2, 0⟩ (sound_dumpAB 11)
    ⟨by decide, by decide +kernel⟩ ⟨0, [0x41, 0x42], by decide, hline⟩ (by decide +kernel) (by decide)
  exact absurd hundo (by decide +kernel)

end Emacs
