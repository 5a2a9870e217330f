import Zzdwm.Emacs.HexlTyping
import Zzdwm.Emacs.Records
import Zzdwm.Emacs.ReplaceRegion

/-!
# Exchanging characters and closing up white space (`random.c`)

`twiddle` and `delwhite` read single bytes of the line, at columns that count
characters.  Where the line begins with characters of one byte, the two are the same.

* `twiddle`, `delwhite` — the code;
* `lputc_recorded` — a character of one byte is overwritten, and that is saved;
* `twiddle_delwhite` — **what the two commands do** to the line, and that one `undo`
  takes it back.
-/

namespace Emacs

open Journal (Zipper Act Rec row col)

/-! ## The code -/

/-- `twiddle`.  The first of the two tests of `doto` fails for an empty line, and so does
the second one there. -/
def twiddle (e : Ed) : Ed × Bool :=
  if !e.checkreadonly then (e, false)
  else
    let dotp := e.dot.p
    let doto := if e.dot.o = (e.line dotp).wllength then e.dot.o - 1 else e.dot.o
    let cr := lgetc (e.line dotp).l_text doto
    if doto = 0 then (e, false)
    else
      let cl := lgetc (e.line dotp).l_text (doto - 1)
      let e := lputc ⟨dotp, doto - 1⟩ cr.toNat e
      let e := lputc ⟨dotp, doto⟩ cl.toNat e
      (e.lchange, true)

/-- Is the byte a space or a tab? -/
def white (b : Byte) : Bool := b = 0x20 || b = 0x09

/-- The scan forward, from a column on. -/
def whiteEnd (line : List Byte) (len o : Nat) : Nat :=
  o + ((List.range (len - o)).takeWhile fun i => white (lgetc line (o + i))).length

/-- The scan back, by `backchar` within the line. -/
def whiteStart (line : List Byte) : Nat → Nat
  | 0 => 0
  | o + 1 => if white (lgetc line o) then whiteStart line o else o + 1

/-- `delwhite`. -/
def delwhite (e : Ed) : Ed × Bool :=
  let line := (e.line e.dot.p).l_text
  let col := whiteEnd line (e.line e.dot.p).wllength e.dot.o
  if col = e.dot.o then linsert (.copies 1 0x20) e
  else
    let e := e.setDot { e.dot with o := whiteStart line e.dot.o }
    let e := e.saveundo .UMOVE (some e.dot)
    let e := (ldelete (col - e.dot.o : Nat) e).1
    linsert (.copies 1 0x20) e

variable {e e' : Ed} {z : Zipper UChar} {us : List (Rec UChar)} {b : List UChar}
  {l x u v w cs : List UChar} {c d : UChar} {o i : Nat}

/-! ## Characters of one byte -/

/-- A character that is one byte. -/
def Single (c : UChar) : Prop := ∃ b : Byte, b < 0x80 ∧ c = [b]

/-- A space or a tab. -/
def isWhite (c : UChar) : Bool := c = [0x20] || c = [0x09]

theorem isWhite_iff : isWhite c = true ↔ c = [0x20] ∨ c = [0x09] := by
  rw [isWhite, Bool.or_eq_true, decide_eq_true_iff, decide_eq_true_iff]

theorem single_of_white (h : isWhite c = true) : Single c := by
  rcases isWhite_iff.mp h with rfl | rfl
  · exact ⟨0x20, by decide, rfl⟩
  · exact ⟨0x09, by decide, rfl⟩

theorem white_ne_nl (h : isWhite c = true) : c ≠ nl := by
  rcases isWhite_iff.mp h with rfl | rfl <;> decide

theorem Single.uputc (h : Single c) : uputc (c.headD 0).toNat = c := by
  obtain ⟨b, hb, rfl⟩ := h
  have hlt : b.toNat < 0x80 := hb
  show Emacs.uputc b.toNat = [b]
  unfold Emacs.uputc
  rw [if_pos hlt, UInt8.ofNat_toNat]

theorem Single.code_lt (h : Single c) : (c.headD 0).toNat < 0x80 := by
  obtain ⟨b, hb, rfl⟩ := h
  exact hb

/-- The byte at a column, behind characters of one byte. -/
theorem lgetc_at (hu : ∀ c ∈ u, Single c) (hc : c ≠ []) :
    lgetc (u ++ c :: v).flatten u.length = c.headD 0 := by
  induction u with
  | nil =>
    obtain ⟨b, t, rfl⟩ := List.exists_cons_of_ne_nil hc
    rfl
  | cons d u ih =>
    obtain ⟨b, -, rfl⟩ := hu d List.mem_cons_self
    exact ih fun c hmem => hu c (List.mem_cons_of_mem _ hmem)

/-- The first byte tells a space and a tab from any other character. -/
theorem white_head (h : IsUChar c) : white (c.headD 0) = isWhite c := by
  obtain ⟨b, t, rfl⟩ := List.exists_cons_of_ne_nil h.ne_nil
  have hone : b = 0x20 ∨ b = 0x09 → t = [] := by
    intro hb
    have hlen := h.uclen_eq
    have hsingle : uclen b = 1 := by rcases hb with rfl | rfl <;> decide
    rw [hsingle, List.length_cons] at hlen
    exact List.eq_nil_of_length_eq_zero (by omega)
  show white b = isWhite (b :: t)
  rw [Bool.eq_iff_iff, isWhite_iff, white, Bool.or_eq_true, decide_eq_true_iff, decide_eq_true_iff]
  constructor
  · intro hb
    rw [hone hb]
    rcases hb with rfl | rfl
    · exact .inl rfl
    · exact .inr rfl
  · rintro (heq | heq)
    · exact .inl (List.cons.inj heq).1
    · exact .inr (List.cons.inj heq).1

/-- The byte at a column tells whether a space or a tab is there. -/
theorem white_at (hall : AllUChars cs) (hi : i < cs.length) (hs : ∀ c ∈ cs.take i, Single c) :
    white (lgetc cs.flatten i) = isWhite cs[i] := by
  have hchar := hall _ (List.getElem_mem hi)
  have hsplit : cs.take i ++ cs[i] :: cs.drop (i + 1) = cs := by
    rw [← List.drop_eq_getElem_cons hi, List.take_append_drop]
  have hlen : (cs.take i).length = i := by
    rw [List.length_take, Nat.min_eq_left (Nat.le_of_lt hi)]
  have hget := @lgetc_at (cs.take i) (cs.drop (i + 1)) cs[i] hs hchar.ne_nil
  rw [hsplit, hlen] at hget
  rw [hget, white_head hchar]

/-- The scan forward stops behind the white space. -/
theorem whiteEnd_eq (hall : AllUChars (u ++ w ++ v)) (hu : ∀ c ∈ u, Single c)
    (hw : ∀ c ∈ w, isWhite c = true) (hv : ∀ c ∈ v.head?, isWhite c = false) (ho : u.length ≤ o)
    (ho' : o ≤ (u ++ w).length) :
    whiteEnd (u ++ w ++ v).flatten (u ++ w ++ v).length o = (u ++ w).length := by
  have hsingle : ∀ {i}, i ≤ (u ++ w).length → ∀ c ∈ (u ++ w ++ v).take i, Single c := by
    intro i hi c hc
    rw [List.take_append_of_le_length hi] at hc
    exact (List.mem_append.mp (List.mem_of_mem_take hc)).elim (hu c) fun hc => single_of_white (hw c hc)
  have hlen : (u ++ w).length ≤ (u ++ w ++ v).length := (List.prefix_append _ _).length_le
  have hin : ∀ i < (u ++ w).length - o, white (lgetc (u ++ w ++ v).flatten (o + i)) = true := by
    intro i hi
    rw [white_at hall (by omega) (hsingle (by omega)), List.getElem_append_left (by omega),
      List.getElem_append_right (by omega)]
    exact hw _ (List.getElem_mem _)
  have hstop : (u ++ w).length - o < (u ++ w ++ v).length - o →
      white (lgetc (u ++ w ++ v).flatten (o + ((u ++ w).length - o))) = false := by
    intro hlt
    rw [Nat.add_sub_cancel' ho', white_at hall (by omega) (hsingle (Nat.le_refl _)),
      List.getElem_append_right (Nat.le_refl _)]
    refine hv _ ?_
    simp only [Nat.sub_self, List.head?_eq_getElem?]
    exact List.getElem?_eq_getElem _
  have hcount := takeWhile_range_length (m := (u ++ w ++ v).length - o) (by omega) hin hstop
  rw [whiteEnd, hcount]
  omega

/-- The scan back stops in front of it. -/
theorem whiteStart_eq (hall : AllUChars (u ++ w ++ v)) (hu : ∀ c ∈ u, Single c)
    (hlast : ∀ c ∈ u.getLast?, isWhite c = false) (hw : ∀ c ∈ w, isWhite c = true) {k : Nat}
    (hk : k ≤ w.length) : whiteStart (u ++ w ++ v).flatten (u.length + k) = u.length := by
  have hsingle : ∀ {i}, i ≤ (u ++ w).length → ∀ c ∈ (u ++ w ++ v).take i, Single c := by
    intro i hi c hc
    rw [List.take_append_of_le_length hi] at hc
    exact (List.mem_append.mp (List.mem_of_mem_take hc)).elim (hu c) fun hc => single_of_white (hw c hc)
  have hlen : (u ++ w).length = u.length + w.length := List.length_append
  have hlen' : (u ++ w).length ≤ (u ++ w ++ v).length := (List.prefix_append _ _).length_le
  induction k with
  | zero =>
    cases hn : u.length with
    | zero => rfl
    | succ n =>
      have hwhite := white_at hall (i := n) (by omega) (hsingle (by omega))
      have hget : isWhite (u ++ w ++ v)[n] = false := by
        rw [List.getElem_append_left (by omega), List.getElem_append_left (by omega)]
        refine hlast _ ?_
        rw [List.getLast?_eq_getElem?, show u.length - 1 = n by omega]
        exact List.getElem?_eq_getElem _
      rw [Nat.add_zero, whiteStart, hwhite, hget, if_neg Bool.false_ne_true]
  | succ k ih =>
    have hwhite := white_at hall (i := u.length + k) (by omega) (hsingle (by omega))
    have hget : isWhite (u ++ w ++ v)[u.length + k] = true := by
      rw [List.getElem_append_left (by omega), List.getElem_append_right (by omega)]
      exact hw _ (List.getElem_mem _)
    rw [← Nat.add_assoc, whiteStart, hwhite, hget, if_pos rfl]
    exact ih (by omega)

/-! ## One character over another one -/

/-- `lputc` at a place, the cursor being put back unless it was there. -/
theorem lputc_eq (pos : POS) (n : Nat) (e : Ed) :
    lputc pos n e =
      let s := (linsert (.copies 1 n)
        (ldelete 1 ((e.setDot pos).saveundo .UMOVE (some (e.setDot pos).dot))).1).1
      let t := s.setDot (if e.dot = pos then s.dot else e.dot)
      t.saveundo .UMOVE (some t.dot) := by
  unfold lputc
  by_cases hpos : e.dot = pos
  · have hmove : (decide (e.dot.p ≠ pos.p) || decide (e.dot.o ≠ pos.o)) = false := by simp [hpos]
    dsimp only
    rw [hmove, if_neg Bool.false_ne_true, if_neg Bool.false_ne_true, if_pos hpos]
    subst hpos
    rfl
  · have hmove : (decide (e.dot.p ≠ pos.p) || decide (e.dot.o ≠ pos.o)) = true := by
      by_contra hno
      rw [Bool.or_eq_true, decide_eq_true_iff, decide_eq_true_iff, not_or, not_not, not_not] at hno
      exact hpos (by cases hd : e.dot; cases pos; simp_all)
    dsimp only
    rw [hmove, if_pos rfl, if_pos rfl, if_neg hpos]

/-- The bytes of the line of the cursor. -/
theorem Shows.text_length (h : Shows e ⟨l, x⟩) : (e.line e.dot.p).l_text.length =
    (lineFront l).flatten.length + (lineRest x).flatten.length := by
  rw [h.line_text, List.flatten_append, List.length_append]

/-- **`lputc`** writes a character of one byte over another one.  The line stays, and so
does the cursor, unless it was there. -/
theorem lputc_recorded (h : Recorded us b z e) {pos : POS} (hat : Shows (e.setDot pos) ⟨l, c :: x⟩)
    (hc : Single c) (hcnl : c ≠ nl) (hd : Single d) (hdnl : d ≠ nl) (hx : x ≠ [])
    (hroom : (e.line pos.p).l_text.length ≤ (e.line pos.p).l_size) :
    ∃ e', lputc pos (d.headD 0).toNat e = e' ∧
      e'.dot = (if e.dot = pos then ⟨pos.p, pos.o + 1⟩ else e.dot) ∧
      (e'.line pos.p).l_text.length ≤ (e'.line pos.p).l_size ∧
      Shows (e'.setDot ⟨pos.p, pos.o + 1⟩) ⟨l ++ [d], x⟩ ∧
      ∀ z', Shows e' z' → ∃ us', us' ≠ [] ∧ Recorded us' b z' e' := by
  have hone : c.length = 1 ∧ d.length = 1 := by
    obtain ⟨_, -, rfl⟩ := hc
    obtain ⟨_, -, rfl⟩ := hd
    exact ⟨rfl, rfl⟩
  have hspells : (Insertion.copies 1 (d.headD 0).toNat).Spells [d] := by
    have hle := hd.code_lt
    have hput := hd.uputc
    have hspells := spells_copies 1 (c := (d.headD 0).toNat) (by omega) (by rwa [hput])
    rwa [hput] at hspells
  have hbytes : (Insertion.copies 1 (d.headD 0).toNat).bytes = d := by
    rw [hspells.bytes, List.flatten_singleton]
  have hrest : lineRest (c :: x) = c :: lineRest x := lineRest_append (m := [c]) (by simpa using hcnl.symm)
  rw [lputc_eq]
  dsimp only
  -- the stretch of records, up to the insertion
  have hbegin := (h.move hat).saveundo
  have hdelete := Recording.ldelete (w := [c]) hbegin (List.cons_ne_nil _ _) (by simpa using hcnl.symm) hx
  have hinsert := hdelete.linsert (closed_deletion _) hspells
  -- the line stays where it is
  have hstay : Stays (e.setDot pos) (linsert (.copies 1 (d.headD 0).toNat)
      (ldelete 1 ((e.setDot pos).saveundo .UMOVE (some (e.setDot pos).dot))).1).1 := by
    have hsaved := hbegin.writable.shows_
    have hone' : 1 ≤ ((e.setDot pos).saveundo .UMOVE (some (e.setDot pos).dot)).rest.length := by
      rw [← hsaved.line_rest]
      show 1 ≤ (lineRest (c :: x)).length
      rw [hrest, List.length_cons]
      omega
    have hdel := ldelete_stays hsaved hbegin.writable.bfro hone'
    have hfirst := (stays_saveundo (e.setDot pos) .UMOVE (some (e.setDot pos).dot)).trans hdel
    refine hfirst.trans (linsert_stays hdelete.writable.shows_ hdelete.writable.bfro ?_)
    have hlen := hat.text_length
    have hlen' := hdelete.writable.shows_.text_length
    rw [hrest, List.flatten_cons, List.length_append, hone.1] at hlen
    change (e.line pos.p).l_text.length = _ at hlen
    have hhere := hfirst.here
    have hsize := hfirst.room
    dsimp only [List.length_singleton] at hlen' ⊢
    rw [hbytes, hone.2, hlen', hhere, hsize]
    show _ ≤ (e.line pos.p).l_size
    omega
  generalize (linsert (.copies 1 (d.headD 0).toNat)
    (ldelete 1 ((e.setDot pos).saveundo .UMOVE (some (e.setDot pos).dot))).1).1 = s at hinsert hstay ⊢
  have hs : Shows s ⟨l ++ [d], x⟩ := hinsert.writable.shows_
  have hdot : s.dot = ⟨pos.p, pos.o + 1⟩ := by
    have hcol := hs.position.2
    have hcol' := hat.position.2
    have hnone : row isBreak [d] = 0 := (hspells.inline).row
    dsimp only at hcol hcol'
    rw [Journal.col_append_of_row hnone, ← hcol'] at hcol
    have hp : s.dot.p = pos.p := hstay.here
    cases hsdot : s.dot with
    | mk p o =>
      rw [hsdot] at hp hcol
      exact congrArg₂ POS.mk hp hcol
  refine ⟨_, rfl, ?_, ?_, ?_, fun z' hz' => ?_⟩
  · rw [saveundo_dot]
    show (if e.dot = pos then s.dot else e.dot) = _
    rw [hdot]
  · have hlen := hat.text_length
    have hlen' := hs.text_length
    rw [hrest, List.flatten_cons, List.length_append, hone.1] at hlen
    rw [lineFront_append (by simpa using hdnl.symm), List.flatten_append, List.flatten_singleton,
      List.length_append, hone.2, hdot] at hlen'
    change (e.line pos.p).l_text.length = _ at hlen
    have hsize : (s.line pos.p).l_size = (e.line pos.p).l_size := hstay.room
    rw [saveundo_line]
    show (s.line pos.p).l_text.length ≤ (s.line pos.p).l_size
    dsimp only at hlen'
    omega
  · exact hs.congr (saveundo_line ..) (saveundo_nextline ..) (saveundo_b_linep ..) (saveundo_lines ..)
      hdot.symm
  · have ht : Shows (s.setDot (if e.dot = pos then s.dot else e.dot)) z' :=
      hz'.congr (saveundo_line ..).symm (saveundo_nextline ..).symm (saveundo_b_linep ..).symm
        (saveundo_lines ..).symm (saveundo_dot ..).symm
    exact ⟨_, by simp, (hinsert.recorded.move ht).saveundo.recorded⟩

/-! ## The two commands -/

/-- The line of the cursor from a column on. -/
theorem Sound.shows_column (h : Sound e) (hmem : e.dot.p ∈ e.lines) (hcs : e.chars e.dot.p = u ++ v) :
    Shows (e.setDot ⟨e.dot.p, u.length⟩)
      ⟨e.above.flatMap e.row ++ u, v ++ nl :: e.below.flatMap e.row⟩ := by
  have hat := h.shows_at (o := u.length) (h.lines_eq hmem) (by
    rw [hcs, List.length_append]
    exact Nat.le_add_right _ _)
  rwa [hcs, List.take_left, List.drop_left] at hat

/-- **`twiddle`** exchanges two characters of one byte. -/
theorem twiddle_exchanges (h : Sound e) (hro : e.bfro = false) (hmem : e.dot.p ∈ e.lines)
    (hroom : (e.line e.dot.p).l_used ≤ (e.line e.dot.p).l_size) (hu : ∀ c ∈ u, Single c)
    (hc : Single c) (hd : Single d) (hcs : e.chars e.dot.p = u ++ c :: d :: v)
    (ho : e.dot.o = u.length + 1 ∨ v = [] ∧ e.dot.o = u.length + 2) :
    EditsLine e (twiddle e.startsaveundo).1 (u ++ d :: c :: v) := by
  obtain ⟨hin, htext⟩ := h.chars hmem
  have hlen := wllength_eq e e.dot.p (h.inline _ hmem)
  have hsize : (u ++ c :: d :: v).length = u.length + 2 + v.length := by simp; omega
  have hnl : c ≠ nl ∧ d ≠ nl := by
    rw [hcs] at hin
    exact ⟨fun heq => hin.noBreak (by simp [heq]), fun heq => hin.noBreak (by simp [heq])⟩
  have hle : e.dot.o ≤ (e.line e.dot.p).wllength := by
    rw [hlen, hcs, hsize]
    rcases ho with ho | ⟨-, ho⟩ <;> omega
  obtain ⟨z, hbegin⟩ : ∃ z, Recorded [] e.symbols z e.startsaveundo := by
    have hs := h.shows_here hmem hle
    have hrec := startsaveundo_recorded ⟨hs, hro⟩
    rw [hs.text] at hrec
    exact ⟨_, hrec⟩
  -- both characters are read before anything is written
  have hdoto : (if e.dot.o = (e.line e.dot.p).wllength then e.dot.o - 1 else e.dot.o) = u.length + 1 := by
    rw [hlen, hcs, hsize]
    rcases ho with ho | ⟨rfl, ho⟩
    · split <;> omega
    · rw [List.length_nil, if_pos (by omega)]
      omega
  have hcl : lgetc (e.line e.dot.p).l_text u.length = c.headD 0 := by
    rw [htext, hcs]
    exact lgetc_at hu (by obtain ⟨b, -, rfl⟩ := hc; exact List.cons_ne_nil _ _)
  have hcr : lgetc (e.line e.dot.p).l_text (u.length + 1) = d.headD 0 := by
    have hget := lgetc_at (u := u ++ [c]) (v := v) (c := d)
      (fun a ha => (List.mem_append.mp ha).elim (hu a) fun ha => by rwa [List.mem_singleton.mp ha])
      (by obtain ⟨b, -, rfl⟩ := hd; exact List.cons_ne_nil _ _)
    rw [List.length_append, List.length_singleton, List.append_assoc] at hget
    rw [htext, hcs]
    exact hget
  have htwiddle : (twiddle e.startsaveundo).1 =
      (lputc ⟨e.dot.p, u.length + 1⟩ (c.headD 0).toNat
        (lputc ⟨e.dot.p, u.length⟩ (d.headD 0).toNat e.startsaveundo)).lchange := by
    have hwrite : (!e.startsaveundo.checkreadonly) = false := by
      show (!!e.bfro) = false
      rw [hro]
      rfl
    unfold twiddle
    rw [hwrite, if_neg Bool.false_ne_true]
    dsimp only
    change (if (if e.dot.o = (e.line e.dot.p).wllength then e.dot.o - 1 else e.dot.o) = 0 then _
      else _ : Ed × Bool).1 = _
    rw [show (e.startsaveundo).dot = e.dot from rfl, show (e.startsaveundo).line = e.line from rfl,
      hdoto, if_neg (Nat.succ_ne_zero _), Nat.add_sub_cancel, hcl, hcr]
  -- the left one
  have hat := h.shows_column hmem hcs
  have hat : Shows (e.startsaveundo.setDot ⟨e.dot.p, u.length⟩) _ := hat.congr rfl rfl rfl rfl rfl
  obtain ⟨e₁, he₁, hdot₁, hroom₁, hshows₁, hrec₁⟩ := lputc_recorded hbegin hat hc hnl.1 hd hnl.2
    (by simp) hroom
  have hdot₁ : e₁.dot = e.dot := by
    rw [hdot₁, if_neg]
    · rfl
    · intro heq
      have := congrArg POS.o heq
      change e.dot.o = u.length at this
      omega
  have hhere : ∃ z₁, Shows e₁ z₁ := by
    rcases ho with ho | ⟨rfl, ho⟩
    · refine ⟨_, hshows₁.congr rfl rfl rfl rfl ?_⟩
      rw [hdot₁]
      show e.dot = ⟨e.dot.p, u.length + 1⟩
      rw [← ho]
    · have hnext := hshows₁.advance (m := [d]) (by simpa using hnl.2.symm)
      refine ⟨_, hnext.congr rfl rfl rfl rfl ?_⟩
      rw [hdot₁]
      show e.dot = ⟨e.dot.p, u.length + 1 + 1⟩
      rw [← ho]
  obtain ⟨z₁, hz₁⟩ := hhere
  obtain ⟨us₁, -, hrec₁⟩ := hrec₁ z₁ hz₁
  -- the right one
  obtain ⟨e₂, he₂, hdot₂, -, hshows₂, hrec₂⟩ := lputc_recorded hrec₁ hshows₁ hd hnl.2 hc hnl.1
    (by simp) hroom₁
  have hdot₂ : e₂.dot = ⟨e.dot.p, u.length + 1 + 1⟩ := by
    rw [hdot₂, hdot₁]
    rcases ho with ho | ⟨-, ho⟩
    · rw [if_pos (by rw [← ho])]
    · rw [if_neg, ← ho]
      intro heq
      have := congrArg POS.o heq
      dsimp only at this
      omega
  obtain ⟨us₂, hus₂, hrec₂⟩ := hrec₂ _ (hshows₂.congr rfl rfl rfl rfl hdot₂)
  rw [htwiddle, he₁, he₂]
  refine hrec₂.lchange.editsLine hus₂ h hmem (by simp) ?_
  rw [hcs] at hin
  have := hin.noBreak
  simp only [List.mem_append, List.mem_cons, not_or] at this ⊢
  tauto

/-- **`delwhite`** puts a space in place of the white space that the cursor is in. -/
theorem delwhite_closes (h : Sound e) (hro : e.bfro = false) (hmem : e.dot.p ∈ e.lines)
    (hu : ∀ c ∈ u, Single c) (hw : ∀ c ∈ w, isWhite c = true)
    (hlast : ∀ c ∈ u.getLast?, isWhite c = false) (hfirst : ∀ c ∈ v.head?, isWhite c = false)
    (hcs : e.chars e.dot.p = u ++ w ++ v) (ho : u.length ≤ e.dot.o) (ho' : e.dot.o < (u ++ w).length) :
    EditsLine e (delwhite e.startsaveundo).1 (u ++ [0x20] :: v) := by
  obtain ⟨hin, htext⟩ := h.chars hmem
  have hlen := wllength_eq e e.dot.p (h.inline _ hmem)
  have hinuwv := hin
  rw [hcs] at hinuwv
  have hle : e.dot.o ≤ (e.line e.dot.p).wllength := by
    rw [hlen, hcs, List.length_append]
    omega
  obtain ⟨z, hbegin⟩ : ∃ z, Recorded [] e.symbols z e.startsaveundo := by
    have hs := h.shows_here hmem hle
    have hrec := startsaveundo_recorded ⟨hs, hro⟩
    rw [hs.text] at hrec
    exact ⟨_, hrec⟩
  have hw_ne : w ≠ [] := fun hnil => by
    rw [hnil, List.append_nil] at ho'
    omega
  have hw_nl : nl ∉ w := fun hmem => white_ne_nl (hw nl hmem) rfl
  have hforw : whiteEnd (e.line e.dot.p).l_text (e.line e.dot.p).wllength e.dot.o = (u ++ w).length := by
    rw [hlen, htext, hcs]
    exact whiteEnd_eq hinuwv.whole hu hw hfirst ho (Nat.le_of_lt ho')
  have hback : whiteStart (e.line e.dot.p).l_text e.dot.o = u.length := by
    obtain ⟨k, hk⟩ := Nat.exists_eq_add_of_le ho
    rw [htext, hcs, hk]
    refine whiteStart_eq hinuwv.whole hu hlast hw ?_
    rw [List.length_append] at ho'
    omega
  have hdelwhite : (delwhite e.startsaveundo).1 = (linsert (.copies 1 0x20)
      (ldelete w.length ((e.startsaveundo.setDot ⟨e.dot.p, u.length⟩).saveundo .UMOVE
        (some (e.startsaveundo.setDot ⟨e.dot.p, u.length⟩).dot))).1).1 := by
    unfold delwhite
    dsimp only
    rw [show (e.startsaveundo).dot = e.dot from rfl, show (e.startsaveundo).line = e.line from rfl,
      hforw, hback, if_neg (by omega), saveundo_dot]
    show (linsert _ (ldelete ((u ++ w).length - u.length : Nat) _).1).1 = _
    rw [List.length_append, Nat.add_sub_cancel_left]
  have hat : Shows (e.startsaveundo.setDot ⟨e.dot.p, u.length⟩) _ :=
    (h.shows_column hmem (by rw [hcs, List.append_assoc])).congr rfl rfl rfl rfl rfl
  rw [List.append_assoc] at hat
  have hspells : (Insertion.copies 1 0x20).Spells _ := spells_copies 1 (by decide) (by decide)
  have hstretch := ((hbegin.move hat).saveundo.ldelete hw_ne hw_nl (by simp)).linsert (closed_deletion _)
    hspells
  rw [hdelwhite]
  refine hstretch.recorded.editsLine hstretch.some h hmem ?_ ?_
  · show e.above.flatMap e.row ++ u ++ List.replicate 1 (uputc 0x20) ++ _ = _
    simp only [List.replicate_one, List.append_assoc, List.cons_append]
    rfl
  · have hno := hinuwv.noBreak
    have hspace : nl ≠ [0x20] := by decide
    simp only [List.mem_append, List.mem_cons, not_or] at hno ⊢
    tauto

/-- **`delwhite`** inserts a space where there is no white space after the cursor. -/
theorem delwhite_inserts (h : Sound e) (hro : e.bfro = false) (hmem : e.dot.p ∈ e.lines)
    (hu : ∀ c ∈ u, Single c) (hfirst : ∀ c ∈ v.head?, isWhite c = false)
    (hcs : e.chars e.dot.p = u ++ v) (ho : e.dot.o = u.length)
    (hjoin : e.startsaveundo.joinsLast (some (e.lineno e.dot.p, e.dot.o)) = false) :
    EditsLine e (delwhite e.startsaveundo).1 (u ++ [0x20] :: v) := by
  obtain ⟨hin, htext⟩ := h.chars hmem
  have hlen := wllength_eq e e.dot.p (h.inline _ hmem)
  rw [hcs] at hin
  have hforw : whiteEnd (e.line e.dot.p).l_text (e.line e.dot.p).wllength e.dot.o = e.dot.o := by
    have hend := @whiteEnd_eq u v [] u.length (by rw [List.append_nil]; exact hin.whole) hu
      (fun c hc => absurd hc List.not_mem_nil) hfirst (Nat.le_refl _) (by simp)
    rw [List.append_nil] at hend
    rw [hlen, htext, hcs, ho, hend]
  have hdelwhite : delwhite e.startsaveundo = linsert (.copies 1 0x20) e.startsaveundo := by
    unfold delwhite
    dsimp only
    rw [show (e.startsaveundo).dot = e.dot from rfl, show (e.startsaveundo).line = e.line from rfl,
      hforw, if_pos rfl]
  have hat : Shows e _ := (h.shows_column hmem hcs).congr rfl rfl rfl rfl (by
    show e.dot = ⟨e.dot.p, u.length⟩
    rw [← ho])
  have hbegin := startsaveundo_recorded ⟨hat, hro⟩
  rw [hat.text] at hbegin
  have hstart : e.startsaveundo.start = some (e.lineno e.dot.p, e.dot.o) := rfl
  obtain ⟨hrow, hcol⟩ := hat.position
  rw [hrow, hcol] at hstart hjoin
  have hspells : (Insertion.copies 1 0x20).Spells _ := spells_copies 1 (by decide) (by decide)
  have hstretch := hbegin.linsert hstart (by rw [hstart]; exact hjoin) hspells
  rw [hdelwhite]
  refine hstretch.recorded.editsLine hstretch.some h hmem ?_ ?_
  · show e.above.flatMap e.row ++ u ++ List.replicate 1 (uputc 0x20) ++ _ = _
    simp only [List.replicate_one, List.append_assoc, List.cons_append]
    rfl
  · have hno := hin.noBreak
    have hspace : nl ≠ [0x20] := by decide
    simp only [List.mem_append, List.mem_cons, not_or] at hno ⊢
    tauto

/-- **The two commands**, in a line that has `u` in front of what they edit and `v` behind
it: `twiddle` exchanges the characters around the cursor, or the two last ones, and
`delwhite` puts a space in place of the white space that the cursor is in, or inserts one.
One `undo` takes back what they did; the space that is inserted must not have joined an
insertion from before. -/
theorem twiddle_delwhite (e : Ed) (h : Sound e) (hro : e.bfro = false) (hmem : e.dot.p ∈ e.lines)
    (hroom : (e.line e.dot.p).l_used ≤ (e.line e.dot.p).l_size) (u v : List UChar)
    (hu : ∀ c ∈ u, Single c) :
    (∀ c d, Single c → Single d → e.chars e.dot.p = u ++ c :: d :: v →
      e.dot.o = u.length + 1 ∨ v = [] ∧ e.dot.o = u.length + 2 →
      EditsLine e (twiddle e.startsaveundo).1 (u ++ d :: c :: v)) ∧
    ((∀ c ∈ v.head?, isWhite c = false) →
      (∀ w, (∀ c ∈ w, isWhite c = true) → (∀ c ∈ u.getLast?, isWhite c = false) →
        e.chars e.dot.p = u ++ w ++ v → u.length ≤ e.dot.o → e.dot.o < (u ++ w).length →
        EditsLine e (delwhite e.startsaveundo).1 (u ++ [0x20] :: v)) ∧
      (e.chars e.dot.p = u ++ v → e.dot.o = u.length →
        e.startsaveundo.joinsLast (some (e.lineno e.dot.p, e.dot.o)) = false →
        EditsLine e (delwhite e.startsaveundo).1 (u ++ [0x20] :: v))) :=
  ⟨fun _ _ hc hd hcs ho => twiddle_exchanges h hro hmem hroom hu hc hd hcs ho, fun hfirst =>
    ⟨fun _ hw hlast hcs ho ho' => delwhite_closes h hro hmem hu hw hlast hfirst hcs ho ho',
      fun hcs ho hjoin => delwhite_inserts h hro hmem hu hfirst hcs ho hjoin⟩⟩

/-- The line `a  b`, with the cursor at a column. -/
def twoSpaces (o : Nat) : Ed := Ed.holding [[97, 32, 32, 98]] ⟨2, o⟩ ⟨2, 0⟩

theorem sound_twoSpaces (o : Nat) : Sound (twoSpaces o) := by
  have hwhole : ∀ c ∈ ([[97], [32], [32], [98]] : List UChar), IsUChar c := by decide
  refine Ed.sound_holding fun t ht => ⟨[[97], [32], [32], [98]], ⟨hwhole, by decide⟩, ?_⟩
  rw [List.mem_singleton.mp ht]
  rfl

/-- The last two characters are exchanged, the two spaces become one, and one is inserted. -/
theorem twiddle_delwhite_twoSpaces :
    EditsLine (twoSpaces 4) (twiddle (twoSpaces 4).startsaveundo).1 [[97], [32], [98], [32]] ∧
      EditsLine (twoSpaces 2) (delwhite (twoSpaces 2).startsaveundo).1 [[97], [32], [98]] ∧
      EditsLine (twoSpaces 4) (delwhite (twoSpaces 4).startsaveundo).1
        [[97], [32], [32], [98], [32]] := by
  have hsingle : ∀ b : Byte, b < 0x80 → Single [b] := fun b hb => ⟨b, hb, rfl⟩
  have hfront : ∀ n, ∀ c ∈ ([[97], [32], [32], [98]] : List UChar).take n, Single c := by
    intro n c hc
    have hmem : c ∈ ([[97], [32], [32], [98]] : List UChar) := List.mem_of_mem_take hc
    simp only [List.mem_cons, List.not_mem_nil, or_false] at hmem
    rcases hmem with rfl | rfl | rfl | rfl <;> exact hsingle _ (by decide)
  refine ⟨?_, ?_, ?_⟩
  · exact (twiddle_delwhite (twoSpaces 4) (sound_twoSpaces 4) rfl (by decide) (by decide)
      [[97], [32]] [] (hfront 2)).1 [32] [98] (hsingle _ (by decide)) (hsingle _ (by decide)) rfl
      (.inr ⟨rfl, rfl⟩)
  · exact ((twiddle_delwhite (twoSpaces 2) (sound_twoSpaces 2) rfl (by decide) (by decide)
      [[97]] [[98]] (hfront 1)).2 (by decide)).1 [[32], [32]] (by decide) (by decide) rfl (by decide)
      (by decide)
  · exact ((twiddle_delwhite (twoSpaces 4) (sound_twoSpaces 4) rfl (by decide) (by decide)
      [[97], [32], [32], [98]] [] (hfront 4)).2 (by decide)).2 rfl rfl rfl

/-- **A space is left**: `a  b` becomes `a b`, and not `ab`. -/
theorem delwhite_leaves_space : ¬ ∀ (e : Ed) (u w v : List UChar), Sound e → e.bfro = false →
    e.dot.p ∈ e.lines → (e.line e.dot.p).l_used ≤ (e.line e.dot.p).l_size →
    (∀ c ∈ w, isWhite c = true) → (∀ c ∈ u.getLast?, isWhite c = false) →
    (∀ c ∈ v.head?, isWhite c = false) → e.chars e.dot.p = u ++ w ++ v →
    u.length ≤ e.dot.o → e.dot.o ≤ (u ++ w).length →
    (delwhite e.startsaveundo).1.text = e.text.set (e.lineno e.dot.p) (u ++ v).flatten := by
  intro hall
  have hremoved := hall (twoSpaces 2) [[97]] [[32], [32]] [[98]] (sound_twoSpaces 2) rfl (by decide)
    (by decide) (by decide) (by decide) (by decide) rfl (by decide) (by decide)
  revert hremoved
  decide

end Emacs
