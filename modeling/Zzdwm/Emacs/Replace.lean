import Mathlib
import Zzdwm.Emacs.Search
import Zzdwm.Emacs.TextUndo
import Zzdwm.Emacs.Joining

/-!
# Replacing a match (`line.c`, `basic.c`)

`lreplace` goes back over the match, makes it as long as the replacement, and writes
the replacement over it.  If the match is capitalised, so is the replacement.

* `lreplace` — with `backchar`, `forwchar` and `lputc`;
* `lreplace_shows` — **the match is replaced**, wherever the lines of it end;
* `Foot` — the lines below the match stay;
* `Stays` — a line that has room stays, too.
-/

namespace Emacs

open Journal (Zipper)

section Source

variable (w : Wctype) (casefold : Bool)

/-- `cisupper`. -/
def cisupper (c : Nat) : Bool := if c < 0x80 then aisupper c else w.iswupper c

/-- `cislower`. -/
def cislower (c : Nat) : Bool := if c < 0x80 then aislower c else w.iswlower c

/-- `ctoupper`. -/
def ctoupper (c : Nat) : Nat := if c < 0x80 then c - 0x20 else w.towupper c

/-- `backchar` with a count that is not below zero. -/
def backchar : Nat → Ed → Ed × Bool
  | 0, e => (e, true)
  | n + 1, e =>
      if e.dot.o = 0 then
        let lp := e.lback e.dot.p
        if lp = e.b_linep then (e, false)
        else backchar n (e.setDot ⟨lp, (e.line lp).wllength⟩)
      else backchar n (e.setDot ⟨e.dot.p, e.dot.o - 1⟩)

/-- `forwchar` with a count that is not below zero. -/
def forwchar : Nat → Ed → Ed × Bool
  | 0, e => (e, true)
  | n + 1, e =>
      if e.dot.o = (e.line e.dot.p).wllength then
        if e.dot.p = e.b_linep then (e, false)
        else
          let lp := e.lforw e.dot.p
          if lp = e.b_linep then (e, false)
          else forwchar n (e.setDot ⟨lp, 0⟩)
      else forwchar n (e.setDot ⟨e.dot.p, e.dot.o + 1⟩)

/-- `lputc`. -/
def lputc (pos : POS) (c : Nat) (e : Ed) : Ed :=
  let dot := e.dot
  let move : Bool := dot.p ≠ pos.p || dot.o ≠ pos.o
  let e := if move then e.setDot pos else e
  let e := e.saveundo .UMOVE (some e.dot)
  let e := (ldelete 1 e).1
  let e := (linsert (.copies 1 c) e).1
  let e := if move then e.setDot dot else e
  e.saveundo .UMOVE (some e.dot)

/-- `rtype` of `lreplace`: the bits `UPPER` and `LOWER`. -/
inductive Rtype
  | LOWER
  | UPPER
  | UPPER_LOWER
  deriving DecidableEq

/-- `wlgetc`; `junk` is what is read behind the end of a line. -/
def Ed.wlgetc (e : Ed) (junk : Nat) (pos : POS) : Nat :=
  let l := (e.line pos.p).l_text
  if pos.o < unslen l then (ugetc (l.drop (uoffset l pos.o))).1 else junk

/-- The capitalisation of what is after the cursor. -/
def Ed.rtype (e : Ed) (junk : Nat) (f : Bool) : Rtype :=
  if cisupper w (e.wlgetc junk e.dot) && !f then
    if e.dot.o + 1 < (e.line e.dot.p).wllength &&
        cisupper w (e.wlgetc junk ⟨e.dot.p, e.dot.o + 1⟩) then .UPPER
    else .UPPER_LOWER
  else .LOWER

/-- A character of the replacement as it is written. -/
def Rtype.put (t : Rtype) (c : Nat) : Nat :=
  if t ≠ .LOWER ∧ cislower w c then ctoupper w c else c

/-- `rtype` after a character. -/
def Rtype.next (t : Rtype) : Rtype := if t = .UPPER_LOWER then .LOWER else t

/-- The loop of `lreplace`, for one character. -/
def writeChar (c : Nat) (e : Ed) : Ed :=
  if c = 10 then
    if e.dot.o = (e.line e.dot.p).wllength then (forwchar 1 e).1
    else (lnewline (ldelete 1 e).1).1
  else if e.dot.p = e.b_linep then (linsert (.copies 1 c) e).1
  else if e.dot.o = (e.line e.dot.p).wllength then
    (linsert (.copies 1 c) (ldelete 1 e).1).1
  else lputc e.dot c e

/-- The loop of `lreplace` over the characters of the replacement. -/
def writeLoop : Rtype → List Nat → Ed → Ed
  | _, [], e => e
  | t, c :: cs, e => writeLoop t.next cs (writeChar (t.put w c) e)

/-- `lreplace`. -/
def lreplace (junk : Nat) (plen : Nat) (st : List Byte) (f : Bool) (e : Ed) : Ed × Bool :=
  if !e.checkreadonly then (e, false)
  else
    let f := f || !casefold
    let e := (backchar plen e).1
    let t := e.rtype w junk f
    let e := e.saveundo .UMOVE (some e.dot)
    let rlen := unslen st
    let doto := e.dot.o
    let (e, ok) :=
      if plen > rlen then ((ldelete (plen - rlen : Nat) e).1, true)
      else if plen < rlen then linsert (.copies (rlen - plen) 0x20) e
      else (e, true)
    if !ok then (e, false)
    else
      let e := e.setDot ⟨e.dot.p, doto⟩
      let e := e.saveundo .UMOVE (some e.dot)
      ((writeLoop w t (ucodes st) e).lchange, true)

end Source

variable {e : Ed} {z : Zipper UChar} {as bs : List LineId} {c d : UChar} {l m x y : List UChar}
  {p : LineId}

/-! ## Moving by characters -/

/-- One character back. -/
theorem Shows.back (h : Shows e ⟨l ++ [c], x⟩) :
    ∃ pos, Shows (e.setDot pos) ⟨l, c :: x⟩ ∧
      ∀ n, backchar (n + 1) e = backchar n (e.setDot pos) := by
  obtain ⟨as, bs, hl, hz⟩ := h.split
  obtain ⟨has, -, -⟩ := h.sound.around hl
  rw [Zipper.mk.injEq] at hz
  obtain ⟨hleft, hright⟩ := hz
  by_cases ho : e.dot.o = 0
  · -- to the end of the line above
    rw [ho, List.take_zero, List.append_nil] at hleft
    rw [ho, List.drop_zero] at hright
    rcases List.eq_nil_or_concat as with rfl | ⟨as, q, rfl⟩
    · simp at hleft
    · rw [List.concat_eq_append] at hl has hleft
      have hq : q ∈ e.lines := by rw [hl]; simp
      have hne : q ≠ e.b_linep := fun heq => h.sound.header (heq ▸ hq)
      have hl' : e.lines = as ++ q :: e.dot.p :: bs := by rw [hl]; simp
      have hback : e.lback e.dot.p = q := by
        change Circular.prev e.b_linep e.lines e.dot.p = q
        rw [hl, Circular.prev_append has]
        simp
      rw [List.flatMap_append, List.flatMap_singleton, Ed.row, ← List.append_assoc] at hleft
      obtain ⟨rfl, hc⟩ := List.append_inj' hleft rfl
      have hat := h.sound.shows_at hl' (Nat.le_refl (e.chars q).length)
      rw [List.take_length, List.drop_length, List.nil_append, List.flatMap_cons, Ed.row,
        List.append_assoc, List.singleton_append, ← hright, ← List.head_eq_of_cons_eq hc] at hat
      refine ⟨_, hat, fun n => ?_⟩
      rw [backchar, if_pos ho, hback]
      dsimp only
      rw [if_neg hne, wllength_eq e q (h.sound.inline q hq)]
  · -- within the line
    have hlt : e.dot.o - 1 < (e.chars e.dot.p).length := by
      have := h.offset
      omega
    have hsucc : e.dot.o - 1 + 1 = e.dot.o := by omega
    have htake := List.take_succ_eq_append_getElem hlt
    rw [hsucc] at htake
    rw [htake, ← List.append_assoc] at hleft
    obtain ⟨rfl, hc⟩ := List.append_inj' hleft rfl
    have hdrop := List.drop_eq_getElem_cons hlt
    rw [hsucc] at hdrop
    have hat := h.sound.shows_at hl (Nat.le_of_lt hlt)
    rw [hdrop, ← List.head_eq_of_cons_eq hc, List.cons_append, ← hright] at hat
    refine ⟨_, hat, fun n => ?_⟩
    rw [backchar, if_neg ho]

/-- **`backchar`** goes back over so many characters. -/
theorem backchar_shows (h : Shows e ⟨l ++ m, x⟩) :
    ∃ pos, backchar m.length e = (e.setDot pos, true) ∧ Shows (e.setDot pos) ⟨l, m ++ x⟩ := by
  induction m using List.reverseRecOn generalizing e x with
  | nil =>
      rw [List.append_nil] at h
      exact ⟨e.dot, rfl, h⟩
  | append_singleton m c ih =>
      rw [← List.append_assoc] at h
      obtain ⟨pos, hat, hstep⟩ := h.back
      obtain ⟨pos', hback, hat'⟩ := ih hat
      refine ⟨pos', ?_, ?_⟩
      · rw [List.length_append, List.length_singleton, hstep, hback]
        rfl
      · rw [List.append_assoc, List.singleton_append]
        exact hat'

/-- One character forward, over the end of a line. -/
theorem Shows.forw (h : Shows e ⟨l, nl :: x⟩) (hx : x ≠ [])
    (hend : e.dot.o = (e.line e.dot.p).wllength) :
    ∃ pos, forwchar 1 e = (e.setDot pos, true) ∧ Shows (e.setDot pos) ⟨l ++ [nl], x⟩ := by
  have hlen := wllength_eq e e.dot.p (h.sound.inline _ h.mem)
  obtain ⟨as, bs, hl, hz⟩ := h.split
  rw [Zipper.mk.injEq, hend, hlen, List.take_length, List.drop_length] at hz
  obtain ⟨hleft, hright⟩ := hz
  cases bs with
  | nil => simp_all
  | cons q bs =>
      have hq : q ∈ e.lines := by rw [hl]; simp
      have hne : q ≠ e.b_linep := fun heq => h.sound.header (heq ▸ hq)
      have hl' : e.lines = (as ++ [e.dot.p]) ++ q :: bs := by rw [hl]; simp
      have hat := h.sound.shows_at hl' (Nat.zero_le (e.chars q).length)
      have hrow : (as ++ [e.dot.p]).flatMap e.row = l ++ [nl] := by
        rw [List.flatMap_append, List.flatMap_singleton, Ed.row, ← List.append_assoc, hleft]
      have hrest : x = e.chars q ++ nl :: bs.flatMap e.row := by
        rw [List.nil_append, List.flatMap_cons, Ed.row, List.append_assoc] at hright
        exact List.tail_eq_of_cons_eq hright
      rw [List.take_zero, List.append_nil, List.drop_zero, hrow, ← hrest] at hat
      refine ⟨_, ?_, hat⟩
      rw [forwchar, if_pos hend, if_neg h.ne_header, h.lforw hl]
      dsimp only
      rw [List.headD_cons, if_neg hne, forwchar]

/-! ## Writing over the match -/

theorem bits_le (s : List Byte) (i mask shift : Nat) : bits s i mask shift ≤ mask <<< shift := by
  unfold bits
  rw [Nat.shiftLeft_eq, Nat.shiftLeft_eq]
  exact Nat.mul_le_mul_right _ Nat.and_le_right

/-- What `ugetc` reads is below 2^31. -/
theorem code_le (c : UChar) : code c ≤ 0x7fffffff := by
  have hbyte := UInt8.toNat_lt (List.getD c 0 0)
  have hbits := bits_le c
  unfold code ugetc
  dsimp only
  split_ifs
  · dsimp only; omega
  · have h0 := hbits 0 0x1f 6
    have h1 := hbits 1 0x3f 0
    simp only [Nat.shiftLeft_eq] at h0 h1
    omega
  · have h0 := hbits 0 0x0f 12
    have h1 := hbits 1 0x3f 6
    have h2 := hbits 2 0x3f 0
    simp only [Nat.shiftLeft_eq] at h0 h1 h2
    omega
  · have h0 := hbits 0 0x07 18
    have h1 := hbits 1 0x3f 12
    have h2 := hbits 2 0x3f 6
    have h3 := hbits 3 0x3f 0
    simp only [Nat.shiftLeft_eq] at h0 h1 h2 h3
    omega
  · have h0 := hbits 0 0x03 24
    have h1 := hbits 1 0x3f 18
    have h2 := hbits 2 0x3f 12
    have h3 := hbits 3 0x3f 6
    have h4 := hbits 4 0x3f 0
    simp only [Nat.shiftLeft_eq] at h0 h1 h2 h3 h4
    omega
  · have h0 := hbits 0 0x01 30
    have h1 := hbits 1 0x3f 24
    have h2 := hbits 2 0x3f 18
    have h3 := hbits 3 0x3f 12
    have h4 := hbits 4 0x3f 6
    have h5 := hbits 5 0x3f 0
    simp only [Nat.shiftLeft_eq] at h0 h1 h2 h3 h4 h5
    omega
  · dsimp only; omega

theorem codes_le (ws : List UChar) : ∀ n ∈ ws.map code, n ≤ 0x7fffffff := by
  intro n hn
  obtain ⟨c, -, rfl⟩ := List.mem_map.mp hn
  exact code_le c

theorem uputc_ne_nl {n : Nat} (hn : n ≠ 10) (hle : n ≤ 0x7fffffff) : uputc n ≠ nl := by
  unfold uputc nl newline
  split_ifs with hsmall
  · intro h
    have hcode : (UInt8.ofNat n).toNat = 10 := by rw [List.head_eq_of_cons_eq h]; rfl
    rw [UInt8.toNat_ofNat_of_lt' (by change n < 256; omega)] at hcode
    exact hn hcode
  all_goals simp

/-- The replacement as it is written. -/
def spelled (w : Wctype) : Rtype → List Nat → List UChar
  | _, [] => []
  | t, c :: cs => uputc (t.put w c) :: spelled w t.next cs

/-- The capitalisation of a match, with the text from it on. -/
def capital (w : Wctype) (junk : Nat) (f : Bool) (x : List UChar) : Rtype :=
  let line := x.takeWhile (· ≠ nl)
  if cisupper w ((line.head?.map code).getD junk) && !f then
    if (line.drop 1).head?.any (fun c => cisupper w (code c)) then .UPPER else .UPPER_LOWER
  else .LOWER

variable {w : Wctype} {casefold : Bool} {n : Nat} {cs : List Nat} {t : Rtype}

theorem put_le (hn : n ≤ 0x7fffffff) : t.put w n ≤ 0x7fffffff := by
  unfold Rtype.put ctoupper
  split_ifs
  · omega
  · exact w.range n hn
  · exact hn

/-- The cursor is at the end of its line. -/
theorem Shows.eol_iff (h : Shows e z) : e.dot.o = (e.line e.dot.p).wllength ↔ e.rest = [] := by
  have ho := h.offset
  rw [wllength_eq e e.dot.p (h.sound.inline _ h.mem), Ed.rest, List.drop_eq_nil_iff]
  omega

/-- What is after the cursor in its line. -/
theorem Shows.line_rest (h : Shows e z) : z.right.takeWhile (· ≠ nl) = e.rest := by
  obtain ⟨hin, -⟩ := h.sound.chars h.mem
  obtain ⟨as, bs, -, rfl⟩ := h.split
  have hpos : ∀ c ∈ e.rest, decide (c ≠ nl) = true := fun c hc =>
    decide_eq_true fun heq => (hin.drop e.dot.o).noBreak (heq ▸ hc)
  change (e.rest ++ nl :: bs.flatMap e.row).takeWhile (· ≠ nl) = e.rest
  rw [List.takeWhile_append_of_pos hpos, List.takeWhile_cons_of_neg (by simp), List.append_nil]

/-- Deleting one character that is not the last newline. -/
theorem ldelete_one (h : Shows e ⟨l, d :: x⟩) (hx : x ≠ []) (hro : e.bfro = false) :
    Shows (ldelete 1 e).1 ⟨l, x⟩ := by
  have hdel := (ldelete_shows h hro 1).1
  rw [Zipper.delete_of_lt (by
    have := List.length_pos_iff.mpr hx
    rw [List.length_cons]
    omega)] at hdel
  exact hdel

/-- Inserting one character. -/
theorem linsert_one (h : Shows e ⟨l, x⟩) (hro : e.bfro = false) (hn : n ≠ 10)
    (hle : n ≤ 0x7fffffff) : Shows (linsert (.copies 1 n) e).1 ⟨l ++ [uputc n], x⟩ :=
  (linsert_shows h hro (spells_copies 1 hle (uputc_ne_nl hn hle))).1

/-- **One character written over another one.** -/
theorem writeChar_shows (h : Shows e ⟨l, d :: x⟩) (hx : x ≠ []) (hro : e.bfro = false)
    (hle : n ≤ 0x7fffffff) : Shows (writeChar n e) ⟨l ++ [uputc n], x⟩ := by
  have hro' : (ldelete 1 e).1.bfro = false := (ldelete_bfro 1 e).trans hro
  unfold writeChar
  split_ifs with hn hend hhead hend
  · subst hn
    have hd : d = nl := by
      have hline := h.line_rest
      rw [h.eol_iff.mp hend] at hline
      by_contra hne
      simp [hne] at hline
    subst hd
    obtain ⟨pos, hforw, hat⟩ := h.forw hx hend
    rw [hforw]
    exact hat
  · subst hn
    exact (lnewline_shows (ldelete_one h hx hro) hro').1
  · exact absurd hhead h.ne_header
  · exact linsert_one (ldelete_one h hx hro) hro' hn hle
  · unfold lputc
    dsimp only
    have hstay : (decide (e.dot.p ≠ e.dot.p) || decide (e.dot.o ≠ e.dot.o)) = false := by simp
    rw [hstay, if_neg Bool.false_ne_true, if_neg Bool.false_ne_true]
    have hsaved := h.saveundo .UMOVE (some e.dot)
    have hro'' : (e.saveundo .UMOVE (some e.dot)).bfro = false := (saveundo_bfro ..).trans hro
    refine Shows.saveundo (linsert_one (ldelete_one hsaved hx hro'') ?_ hn hle) _ _
    rw [ldelete_bfro]
    exact hro''

@[simp] theorem forwchar_bfro (n : Nat) (e : Ed) : (forwchar n e).1.bfro = e.bfro := by
  induction n generalizing e with
  | zero => rfl
  | succ n ih => unfold forwchar; dsimp only; split_ifs <;> first | rfl | exact ih _

@[simp] theorem backchar_bfro (n : Nat) (e : Ed) : (backchar n e).1.bfro = e.bfro := by
  induction n generalizing e with
  | zero => rfl
  | succ n ih => unfold backchar; dsimp only; split_ifs <;> first | rfl | exact ih _

theorem lputc_bfro (pos : POS) (n : Nat) (e : Ed) : (lputc pos n e).bfro = e.bfro := by
  have hset : ∀ (e : Ed) (pos : POS), (e.setDot pos).bfro = e.bfro := fun _ _ => rfl
  unfold lputc
  dsimp only
  split <;> simp [hset]

@[simp] theorem writeChar_bfro (n : Nat) (e : Ed) : (writeChar n e).bfro = e.bfro := by
  unfold writeChar
  split_ifs <;> simp [lputc_bfro]

/-- **The replacement written over the match.** -/
theorem writeLoop_shows (h : Shows e ⟨l, m ++ x⟩) (hlen : m.length = cs.length) (hx : x ≠ [])
    (hro : e.bfro = false) (hle : ∀ n ∈ cs, n ≤ 0x7fffffff) :
    Shows (writeLoop w t cs e) ⟨l ++ spelled w t cs, x⟩ := by
  induction cs generalizing e l m t with
  | nil =>
      obtain rfl : m = [] := List.eq_nil_of_length_eq_zero hlen
      rw [spelled, List.append_nil]
      exact h
  | cons n cs ih =>
      cases m with
      | nil => cases hlen
      | cons d m =>
          have hstep := writeChar_shows (n := t.put w n) h (by simp [hx]) hro
            (put_le (hle n List.mem_cons_self))
          have hrest := ih (t := t.next) hstep (Nat.succ.inj hlen) ((writeChar_bfro _ _).trans hro)
            fun k hk => hle k (List.mem_cons_of_mem n hk)
          rw [List.append_assoc, List.singleton_append] at hrest
          exact hrest

/-- `wlgetc` reads the character at a position of a line. -/
theorem Sound.wlgetc_eq (h : Sound e) (hp : p ∈ e.lines) (junk o : Nat) :
    e.wlgetc junk ⟨p, o⟩ = (((e.chars p).drop o).head?.map code).getD junk := by
  obtain ⟨hin, htext⟩ := h.chars hp
  have hsize : unslen (e.line p).l_text = (e.chars p).length := by
    rw [htext, unslen_flatten hin.whole]
  have hdrop : (e.line p).l_text.drop (uoffset (e.line p).l_text o) =
      ((e.chars p).drop o).flatten := by
    rw [htext]
    exact drop_uoffset hin.whole o
  unfold Ed.wlgetc
  dsimp only
  rw [hsize, hdrop]
  cases hcs : (e.chars p).drop o with
  | nil => rw [if_neg (Nat.not_lt.mpr (List.drop_eq_nil_iff.mp hcs))]; rfl
  | cons c cs =>
      have hlt : o < (e.chars p).length := by
        by_contra hnot
        rw [List.drop_eq_nil_of_le (Nat.not_lt.mp hnot)] at hcs
        cases hcs
      have hc : IsUChar c := hin.whole c (List.mem_of_mem_drop (by rw [hcs]; simp))
      rw [if_pos hlt, List.flatten_cons, ugetc_append hc]
      rfl

/-- The capitalisation is that of the text. -/
theorem rtype_eq (h : Shows e ⟨l, x⟩) (junk : Nat) (f : Bool) :
    e.rtype w junk f = capital w junk f x := by
  have hline : x.takeWhile (· ≠ nl) = e.rest := h.line_rest
  have hget := h.sound.wlgetc_eq h.mem junk
  have hlen := wllength_eq e e.dot.p (h.sound.inline _ h.mem)
  have hsecond : (decide (e.dot.o + 1 < (e.line e.dot.p).wllength) &&
      cisupper w (e.wlgetc junk ⟨e.dot.p, e.dot.o + 1⟩)) =
      (e.rest.drop 1).head?.any (fun c => cisupper w (code c)) := by
    rw [hget, hlen, Ed.rest, List.drop_drop]
    cases hcs : (e.chars e.dot.p).drop (e.dot.o + 1) with
    | nil => rw [decide_eq_false (Nat.not_lt.mpr (List.drop_eq_nil_iff.mp hcs))]; rfl
    | cons c cs =>
        have hlt : e.dot.o + 1 < (e.chars e.dot.p).length := by
          by_contra hnot
          rw [List.drop_eq_nil_of_le (Nat.not_lt.mp hnot)] at hcs
          cases hcs
        rw [decide_eq_true hlt]
        rfl
  unfold Ed.rtype capital
  dsimp only
  rw [hline, hsecond]
  have hfirst : e.wlgetc junk e.dot = (e.rest.head?.map code).getD junk := hget e.dot.o
  rw [hfirst]

/-- Going back within the line. -/
theorem Shows.withdraw (h : Shows e ⟨l ++ m, x⟩) (hm : Journal.row isBreak m = 0) :
    Shows (e.setDot ⟨e.dot.p, Journal.col isBreak l⟩) ⟨l, m ++ x⟩ := by
  have hcol : e.dot.o = Journal.col isBreak l + m.length := by
    rw [h.position.2, Journal.col_append_of_row hm]
  obtain ⟨as, bs, hl, hz⟩ := h.split
  rw [Zipper.mk.injEq] at hz
  obtain ⟨hleft, hright⟩ := hz
  have hle : Journal.col isBreak l ≤ (e.chars e.dot.p).length := by
    have := h.offset
    omega
  have htake : (e.chars e.dot.p).take e.dot.o = (e.chars e.dot.p).take (Journal.col isBreak l) ++
      ((e.chars e.dot.p).drop (Journal.col isBreak l)).take m.length := by
    rw [hcol, List.take_add]
  rw [htake, ← List.append_assoc] at hleft
  obtain ⟨hl', hm'⟩ := List.append_inj' hleft (by
    have := h.offset
    rw [List.length_take, List.length_drop]
    omega)
  have hat := h.sound.shows_at hl hle
  have hdrop : (e.chars e.dot.p).drop (Journal.col isBreak l) =
      m ++ (e.chars e.dot.p).drop e.dot.o := by
    conv_lhs => rw [← List.take_append_drop m.length ((e.chars e.dot.p).drop _)]
    rw [← hm', List.drop_drop, ← hcol]
  rw [← hl', hdrop, List.append_assoc, ← hright] at hat
  exact hat

theorem row_spaces (n : Nat) : Journal.row isBreak (List.replicate n ([0x20] : UChar)) = 0 :=
  Journal.row_eq_zero fun c hc => by
    rw [List.eq_of_mem_replicate hc]
    decide

/-- `lreplace` up to its loop: the match has the length of the replacement. -/
def pad (plen rlen : Nat) (e : Ed) : Ed :=
  if plen > rlen then (ldelete (plen - rlen : Nat) e).1
  else if plen < rlen then
    (linsert (.copies (rlen - plen) 0x20) e).1.setDot
      ⟨(linsert (.copies (rlen - plen) 0x20) e).1.dot.p, e.dot.o⟩
  else e

/-- The text of a match that is as long as the replacement. -/
def padded (rlen : Nat) (m : List UChar) : List UChar :=
  List.replicate (rlen - m.length) [0x20] ++ m.drop (m.length - rlen)

theorem padded_length (rlen : Nat) (m : List UChar) : (padded rlen m).length = rlen := by
  rw [padded, List.length_append, List.length_replicate, List.length_drop]
  omega

@[simp] theorem pad_bfro (plen rlen : Nat) (e : Ed) : (pad plen rlen e).bfro = e.bfro := by
  have hset : ∀ (e : Ed) (pos : POS), (e.setDot pos).bfro = e.bfro := fun _ _ => rfl
  unfold pad
  split_ifs <;> simp [hset]

/-- **The match is padded** in front. -/
theorem pad_shows (h : Shows e ⟨l, m ++ x⟩) (hx : x ≠ []) (hro : e.bfro = false) (rlen : Nat) :
    Shows (pad m.length rlen e) ⟨l, padded rlen m ++ x⟩ := by
  unfold pad padded
  split_ifs with hgt hlt
  · have hdel := (ldelete_shows h hro (m.length - rlen)).1
    have hpos := List.length_pos_iff.mpr hx
    rw [Zipper.delete_of_lt (by rw [List.length_append]; omega),
      List.drop_append_of_le_length (Nat.sub_le _ _)] at hdel
    rw [Nat.sub_eq_zero_of_le (Nat.le_of_lt hgt), List.replicate_zero, List.nil_append]
    exact hdel
  · have hins := (linsert_shows h hro (spells_spaces (rlen - m.length))).1
    have hback := hins.withdraw (row_spaces _)
    rw [← h.position.2] at hback
    rw [Nat.sub_eq_zero_of_le (Nat.le_of_lt hlt), List.drop_zero, List.append_assoc]
    exact hback
  · have heq : m.length = rlen := by omega
    rw [heq, Nat.sub_self, List.replicate_zero, List.drop_zero, List.nil_append]
    exact h

/-- The buffer that the loop of `lreplace` starts from, after going back to `pos`. -/
def ready (plen rlen : Nat) (pos : POS) (e : Ed) : Ed :=
  let s := pad plen rlen (e.moved pos)
  s.saveundo .UMOVE (some s.dot)

@[simp] theorem moved_bfro (e : Ed) (pos : POS) : (e.moved pos).bfro = e.bfro := saveundo_bfro ..

@[simp] theorem ready_bfro (plen rlen : Nat) (pos : POS) (e : Ed) :
    (ready plen rlen pos e).bfro = e.bfro := by
  unfold ready
  simp

@[simp] theorem writeLoop_bfro (t : Rtype) (cs : List Nat) (e : Ed) :
    (writeLoop w t cs e).bfro = e.bfro := by
  induction cs generalizing t e with
  | nil => rfl
  | cons n cs ih => exact (ih ..).trans (writeChar_bfro ..)

variable (w casefold) in
/-- `lreplace` in a buffer that may be changed. -/
theorem lreplace_eq (h : Shows e ⟨l ++ m, x⟩) (hx : x ≠ []) (hro : e.bfro = false)
    (junk : Nat) {ws : List UChar} (hws : AllUChars ws) (f : Bool) :
    ∃ pos, Shows (e.setDot pos) ⟨l, m ++ x⟩ ∧
      lreplace w casefold junk m.length ws.flatten f e =
        ((writeLoop w (capital w junk (f || !casefold) (m ++ x)) (ws.map code)
          (ready m.length ws.length pos e)).lchange, true) := by
  have hwrite : (!e.checkreadonly) = false := by simp [Ed.checkreadonly, hro]
  obtain ⟨pos, hback, hat⟩ := backchar_shows h
  refine ⟨pos, hat, ?_⟩
  have hsaved : Shows (e.moved pos) ⟨l, m ++ x⟩ := hat.saveundo ..
  have hro' : (e.moved pos).bfro = false := (moved_bfro e pos).trans hro
  have hpad := pad_shows hsaved hx hro' ws.length
  have hdot : (pad m.length ws.length (e.moved pos)).dot.o = (e.moved pos).dot.o := by
    rw [hpad.position.2, hsaved.position.2]
  -- the cursor is put where it is
  have hset : ∀ s : Ed, s.dot.o = (e.moved pos).dot.o → s.setDot ⟨s.dot.p, (e.moved pos).dot.o⟩ = s := by
    intro s hs
    rw [← hs]
    rfl
  unfold lreplace
  rw [hwrite, if_neg Bool.false_ne_true, hback]
  dsimp only
  rw [rtype_eq hat, unslen_flatten hws, ucodes_flatten hws]
  change (match (if m.length > ws.length then
        ((ldelete (m.length - ws.length : Nat) (e.moved pos)).1, true)
      else if m.length < ws.length then
        linsert (.copies (ws.length - m.length) 0x20) (e.moved pos)
      else (e.moved pos, true)) with
    | (s, ok) => if !ok then (s, false)
      else ((writeLoop w (capital w junk (f || !casefold) (m ++ x)) (ws.map code)
        ((s.setDot ⟨s.dot.p, (e.moved pos).dot.o⟩).saveundo .UMOVE
          (some (s.setDot ⟨s.dot.p, (e.moved pos).dot.o⟩).dot))).lchange, true)) = _
  unfold ready
  dsimp only
  unfold pad at hdot ⊢
  by_cases hgt : m.length > ws.length
  · rw [if_pos hgt] at hdot
    simp only [if_pos hgt, hset _ hdot]
    rfl
  · by_cases hlt : m.length < ws.length
    · have hok := (linsert_shows hsaved hro' (spells_spaces (ws.length - m.length))).2
      simp only [if_neg hgt, if_pos hlt]
      generalize linsert (.copies (ws.length - m.length) 0x20) (e.moved pos) = r at hok ⊢
      obtain ⟨r, ok⟩ := r
      obtain rfl : ok = true := hok
      rfl
    · simp only [if_neg hgt, if_neg hlt, hset _ rfl]
      rfl

variable (w casefold) in
/-- **`lreplace`** replaces the match. -/
theorem lreplace_shows (h : Shows e ⟨l ++ m, x⟩) (hx : x ≠ []) (hro : e.bfro = false)
    (junk : Nat) {ws : List UChar} (hws : AllUChars ws) (f : Bool) :
    Shows (lreplace w casefold junk m.length ws.flatten f e).1
        ⟨l ++ spelled w (capital w junk (f || !casefold) (m ++ x)) (ws.map code), x⟩ ∧
      (lreplace w casefold junk m.length ws.flatten f e).2 = true ∧
      (lreplace w casefold junk m.length ws.flatten f e).1.bfro = false := by
  obtain ⟨pos, hat, heq⟩ := lreplace_eq w casefold h hx hro junk hws f
  have hsaved : Shows (e.moved pos) ⟨l, m ++ x⟩ := hat.saveundo ..
  have hready : Shows (ready m.length ws.length pos e) ⟨l, padded ws.length m ++ x⟩ :=
    (pad_shows hsaved hx ((moved_bfro e pos).trans hro) ws.length).saveundo ..
  have hlen : (padded ws.length m).length = (ws.map code).length := by
    rw [padded_length, List.length_map]
  have hloop := writeLoop_shows (w := w) (t := capital w junk (f || !casefold) (m ++ x)) hready hlen hx
    ((ready_bfro ..).trans hro)
    (codes_le ws)
  rw [heq]
  exact ⟨hloop.lchange, rfl, (writeLoop_bfro ..).trans ((ready_bfro ..).trans hro)⟩

/-! ## The lines below -/

/-- The lines `bs` are still the last ones, with the text that they have in `e₀`. -/
structure Foot (e₀ : Ed) (bs : List LineId) (e : Ed) : Prop where
  lines : ∃ xs, e.lines = xs ++ bs
  same : ∀ p ∈ bs, e.line p = e₀.line p

variable {e₀ : Ed} {cs' : List LineId}

theorem Foot.rows (hf : Foot e₀ bs e) : bs.flatMap e.row = bs.flatMap e₀.row :=
  flatMap_row_congr hf.same

theorem Foot.congr (hf : Foot e₀ bs e) {e' : Ed} (hlines : e'.lines = e.lines)
    (hline : e'.line = e.line) : Foot e₀ bs e' :=
  ⟨hlines ▸ hf.lines, fun p hp => by rw [hline]; exact hf.same p hp⟩

theorem Foot.saveundo (hf : Foot e₀ bs e) (k : Saved) (pos : Option POS) :
    Foot e₀ bs (e.saveundo k pos) := hf.congr (saveundo_lines ..) (saveundo_line ..)

/-- The cursor is above the foot, if there is more than the foot after it. -/
theorem Foot.above (hf : Foot e₀ bs e) (h : Shows e z)
    (hlt : (bs.flatMap e₀.row).length < z.right.length) :
    ∃ as cs, e.lines = as ++ e.dot.p :: (cs ++ bs) ∧
      z = ⟨as.flatMap e.row ++ (e.chars e.dot.p).take e.dot.o,
        e.rest ++ nl :: (cs ++ bs).flatMap e.row⟩ := by
  obtain ⟨as, bs', hl, hz⟩ := h.split
  obtain ⟨xs, hxs⟩ := hf.lines
  have hlow : ∀ c', bs ≠ c' ++ e.dot.p :: bs' := by
    rintro c' rfl
    rw [← hf.rows, hz, List.flatMap_append, List.flatMap_cons, Ed.row] at hlt
    simp only [List.length_append, List.length_cons, List.length_drop] at hlt
    omega
  rcases List.append_eq_append_iff.mp (hl.symm.trans hxs) with ⟨a', -, hb⟩ | ⟨c', -, hb⟩
  · cases a' with
    | nil => exact absurd hb.symm (hlow [])
    | cons p cs =>
        rw [List.cons_append, List.cons.injEq] at hb
        obtain ⟨rfl, rfl⟩ := hb
        exact ⟨as, cs, hl, hz⟩
  · exact absurd hb (hlow c')

theorem linsert_foot (hf : Foot e₀ bs e) (h : Shows e z) (hro : e.bfro = false)
    (hlt : (bs.flatMap e₀.row).length < z.right.length) {a : Insertion} {ws : List UChar}
    (ha : a.Spells ws) : Foot e₀ bs (linsert a e).1 := by
  obtain ⟨as, cs, hl, -⟩ := hf.above h hlt
  obtain ⟨q, hrep, -⟩ := linsert_replaces h hro hl ha
  refine ⟨⟨as ++ q :: cs, by rw [hrep.lines]; simp⟩, fun p hp => ?_⟩
  rw [hrep.others p (List.mem_append_right _ (List.mem_append_right _ hp)), hf.same p hp]

theorem ldelnewline_foot (hf : Foot e₀ bs e) (h : Shows e z) (hend : e.rest = [])
    (hlt : (bs.flatMap e₀.row).length + 1 < z.right.length) : Foot e₀ bs (ldelnewline e) := by
  obtain ⟨as, cs, hl, hz⟩ := hf.above h (by omega)
  cases cs with
  | nil =>
      rw [hz, hend, List.nil_append, List.nil_append, hf.rows, List.length_cons] at hlt
      omega
  | cons q cs =>
      rw [List.cons_append] at hl
      obtain ⟨r, -, hrep⟩ := ldelnewline_replaces h hl
      refine ⟨⟨as ++ r :: cs, by rw [hrep.lines]; simp⟩, fun p hp => ?_⟩
      rw [hrep.others p (by simp [hp]), hf.same p hp]

theorem ldeleteStep_foot (hf : Foot e₀ bs e) (h : Shows e z) (hn : 0 < n)
    (hlt : (bs.flatMap e₀.row).length + n < z.right.length) :
    Foot e₀ bs (ldeleteStep n e).1 := by
  rw [ldeleteStep_eq h hn]
  dsimp only
  split
  · rename_i hend
    have hf' : Foot e₀ bs e.lchange := hf.congr rfl rfl
    exact (ldelnewline_foot hf' h.lchange hend (by omega)).saveundo _ _
  · obtain ⟨as, cs, hl, -⟩ := hf.above h (by omega)
    obtain ⟨-, -, hmem⟩ := h.sound.around hl
    refine ⟨⟨as ++ e.dot.p :: cs, ?_⟩, fun p hp => ?_⟩
    · change (e.lchange.saveundo _ _).lines = _
      rw [saveundo_lines]
      change e.lines = _
      rw [hl]
      simp
    · have hne := (hmem p (by simp [hp])).1
      refine (Function.update_of_ne ?_ _ _).trans ?_
      · rw [saveundo_dot]
        exact hne
      · rw [saveundo_line]
        exact hf.same p hp

theorem ldeleteLoop_foot (f : Nat) (hf : Foot e₀ bs e) (h : Shows e z)
    (hlt : (bs.flatMap e₀.row).length + n < z.right.length) :
    Foot e₀ bs (ldeleteLoop f n e).1 := by
  induction f generalizing n e z with
  | zero => cases n <;> exact hf
  | succ f ih =>
      cases n with
      | zero => exact hf
      | succ n =>
          obtain ⟨hshows, hchars⟩ := ldeleteStep_shows (n := n + 1) h (by omega)
          obtain ⟨hpos, hle⟩ := deleted_pos e (n := n + 1) (by omega)
          have hstep := ldeleteStep_foot hf h (Nat.succ_pos n) hlt
          rw [ldeleteLoop, if_neg h.ne_header]
          generalize ldeleteStep (n + 1) e = r at hshows hchars hstep ⊢
          obtain ⟨e', chars⟩ := r
          dsimp only at hshows hchars hstep ⊢
          refine ih hstep hshows ?_
          rw [Zipper.delete, List.length_drop]
          omega

theorem ldelete_foot (hf : Foot e₀ bs e) (h : Shows e z) (hro : e.bfro = false)
    (hlt : (bs.flatMap e₀.row).length + n < z.right.length) : Foot e₀ bs (ldelete n e).1 := by
  have hwrite : (!e.checkreadonly) = false := by simp [Ed.checkreadonly, hro]
  unfold ldelete
  rw [if_neg (by omega), hwrite, if_neg Bool.false_ne_true, Int.toNat_natCast]
  exact ldeleteLoop_foot n hf h hlt

theorem lnewline_foot (hf : Foot e₀ bs e) (h : Shows e z) (hro : e.bfro = false)
    (hlt : (bs.flatMap e₀.row).length < z.right.length) : Foot e₀ bs (lnewline e).1 := by
  have hwrite : (!e.checkreadonly) = false := by simp [Ed.checkreadonly, hro]
  obtain ⟨as, cs, hl, -⟩ := hf.above h hlt
  obtain ⟨-, -, hmem⟩ := h.sound.around hl
  have hlink := linkBefore_lines h.sound hl e.nextline
  unfold lnewline
  rw [hwrite, if_neg Bool.false_ne_true]
  refine ⟨⟨as ++ e.nextline :: e.dot.p :: cs, ?_⟩, fun p hp => ?_⟩
  · change (Ed.linkBefore e.dot.p (e.lchange.saveundo _ _).nextline _).lines = _
    rw [saveundo_nextline]
    have hsame : ∀ s : Ed, s.lines = e.lines → s.b_linep = e.b_linep →
        (s.linkBefore e.dot.p e.nextline).lines = (e.linkBefore e.dot.p e.nextline).lines := by
      intro s hs hs'
      unfold Ed.linkBefore
      rw [hs, hs']
    refine (hsame _ ?_ ?_).trans (hlink.trans (by simp))
    · exact saveundo_lines e.lchange _ _
    · exact saveundo_b_linep e.lchange _ _
  · obtain ⟨hne, hnew⟩ := hmem p (by simp [hp])
    refine Eq.trans (Function.update_of_ne hne _ _) ?_
    refine Eq.trans (Function.update_of_ne ?_ _ _) ?_
    · rw [saveundo_nextline]
      exact hnew
    · rw [saveundo_line]
      exact hf.same p hp

theorem writeChar_foot (hf : Foot e₀ bs e) (h : Shows e ⟨l, d :: x⟩) (hro : e.bfro = false)
    (hle : n ≤ 0x7fffffff) (hlt : (bs.flatMap e₀.row).length < x.length) :
    Foot e₀ bs (writeChar n e) := by
  have hx : x ≠ [] := List.length_pos_iff.mp (by omega)
  have hmore : (bs.flatMap e₀.row).length + 1 < (d :: x).length := Nat.succ_lt_succ hlt
  have hro' : (ldelete 1 e).1.bfro = false := (ldelete_bfro 1 e).trans hro
  unfold writeChar
  split_ifs with hn hend hhead hend
  · unfold forwchar
    dsimp only
    split_ifs
    · exact hf
    · exact hf
    · exact hf.congr rfl rfl
  · exact lnewline_foot (ldelete_foot hf h hro hmore) (ldelete_one h hx hro) hro' hlt
  · exact absurd hhead h.ne_header
  · exact linsert_foot (ldelete_foot hf h hro hmore) (ldelete_one h hx hro) hro' hlt
      (spells_copies 1 hle (uputc_ne_nl hn hle))
  · have hsaved := h.saveundo .UMOVE (some e.dot)
    have hsro : (e.saveundo .UMOVE (some e.dot)).bfro = false := (saveundo_bfro ..).trans hro
    have hdel := ldelete_foot (hf.saveundo .UMOVE (some e.dot)) hsaved hsro hmore
    have hins := linsert_foot hdel (ldelete_one hsaved hx hsro) ((ldelete_bfro 1 _).trans hsro) hlt
      (spells_copies 1 hle (uputc_ne_nl hn hle))
    have hstay : (decide (e.dot.p ≠ e.dot.p) || decide (e.dot.o ≠ e.dot.o)) = false := by simp
    unfold lputc
    dsimp only
    rw [hstay, if_neg Bool.false_ne_true, if_neg Bool.false_ne_true]
    exact hins.saveundo _ _

theorem writeLoop_foot (hf : Foot e₀ bs e) (h : Shows e ⟨l, m ++ x⟩) (hlen : m.length = cs.length)
    (hro : e.bfro = false) (hle : ∀ n ∈ cs, n ≤ 0x7fffffff)
    (hlt : (bs.flatMap e₀.row).length < x.length) : Foot e₀ bs (writeLoop w t cs e) := by
  induction cs generalizing e l m t with
  | nil => exact hf
  | cons n cs ih =>
      cases m with
      | nil => cases hlen
      | cons d m =>
          have hput := put_le (w := w) (t := t) (hle n List.mem_cons_self)
          have hmore : (bs.flatMap e₀.row).length < (m ++ x).length := by
            rw [List.length_append]
            omega
          have hx : m ++ x ≠ [] := List.length_pos_iff.mp (by omega)
          exact ih (writeChar_foot hf h hro hput hmore) (writeChar_shows h hx hro hput) (Nat.succ.inj hlen) ((writeChar_bfro _ _).trans hro)
            fun k hk => hle k (List.mem_cons_of_mem n hk)

theorem pad_foot (hf : Foot e₀ bs e) (h : Shows e ⟨l, m ++ x⟩) (hro : e.bfro = false) (rlen : Nat)
    (hlt : (bs.flatMap e₀.row).length < x.length) : Foot e₀ bs (pad m.length rlen e) := by
  unfold pad
  split_ifs
  · exact ldelete_foot hf h hro (by rw [List.length_append]; omega)
  · have hins := linsert_foot hf h hro (by rw [List.length_append]; omega)
      (spells_spaces (rlen - m.length))
    exact hins.congr rfl rfl
  · exact hf

variable (w casefold) in
/-- **The lines below** the match stay. -/
theorem lreplace_foot (hf : Foot e₀ bs e) (h : Shows e ⟨l ++ m, x⟩) (hro : e.bfro = false)
    (junk : Nat) {ws : List UChar} (hws : AllUChars ws) (f : Bool)
    (hlt : (bs.flatMap e₀.row).length < x.length) :
    Foot e₀ bs (lreplace w casefold junk m.length ws.flatten f e).1 := by
  have hx : x ≠ [] := List.length_pos_iff.mp (by omega)
  obtain ⟨pos, hat, heq⟩ := lreplace_eq w casefold h hx hro junk hws f
  have hsaved : Shows (e.moved pos) ⟨l, m ++ x⟩ := hat.saveundo ..
  have hfoot : Foot e₀ bs (e.moved pos) :=
    Foot.saveundo (e := e.setDot pos) (hf.congr rfl rfl) _ _
  have hro' := (moved_bfro e pos).trans hro
  have hlen : (padded ws.length m).length = (ws.map code).length := by
    rw [padded_length, List.length_map]
  rw [heq]
  refine Foot.congr (e := writeLoop w _ _ _) ?_ rfl rfl
  refine writeLoop_foot ((pad_foot hfoot hsaved hro' ws.length hlt).saveundo _ _)
    ((pad_shows hsaved hx hro' ws.length).saveundo _ _) hlen ?_
    (codes_le ws) hlt
  exact (ready_bfro ..).trans hro

/-! ## A line with room -/

/-- The lines are the same ones, and so is the line of the cursor and its room. -/
structure Stays (e e' : Ed) : Prop where
  lines : e'.lines = e.lines
  here : e'.dot.p = e.dot.p
  room : (e'.line e.dot.p).l_size = (e.line e.dot.p).l_size

theorem Stays.refl (e : Ed) : Stays e e := ⟨rfl, rfl, rfl⟩

theorem Stays.trans {e' e'' : Ed} (h : Stays e e') (h' : Stays e' e'') : Stays e e'' :=
  ⟨h'.lines.trans h.lines, h'.here.trans h.here, by
    rw [← h.here, h'.room, h.here, h.room]⟩

theorem stays_saveundo (e : Ed) (k : Saved) (pos : Option POS) : Stays e (e.saveundo k pos) :=
  ⟨saveundo_lines .., by rw [saveundo_dot], by rw [saveundo_line]⟩

theorem Sound.setDot (h : Sound e) (pos : POS) : Sound (e.setDot pos) :=
  ⟨h.nodup, h.header, h.fresh, h.inline, h.empty⟩

theorem stays_setDot (e : Ed) (o : Nat) : Stays e (e.setDot ⟨e.dot.p, o⟩) := ⟨rfl, rfl, rfl⟩

/-- The part of the line in front of the cursor, in the text in front of it. -/
def lineFront (l : List UChar) : List UChar := l.rtakeWhile (· ≠ nl)

/-- The part of the line after the cursor, in the text after it. -/
def lineRest (x : List UChar) : List UChar := x.takeWhile (· ≠ nl)

/-- Inserting where there is room. -/
theorem linsert_stays (h : Shows e z) (hro : e.bfro = false) {a : Insertion}
    (hroom : (e.line e.dot.p).l_text.length + a.bytes.length ≤ (e.line e.dot.p).l_size) :
    Stays e (linsert a e).1 := by
  rw [linsert_eq h hro]
  dsimp only
  have hsaved := stays_saveundo e.lchange a.saved none
  have hs := h.lchange.saveundo a.saved none
  have hroom' : ¬ (LINE.l_used ((e.lchange.saveundo a.saved none).line
      (e.lchange.saveundo a.saved none).dot.p)) + a.bytes.length >
      ((e.lchange.saveundo a.saved none).line (e.lchange.saveundo a.saved none).dot.p).l_size := by
    rw [saveundo_line, saveundo_dot]
    exact Nat.not_lt.mpr hroom
  have hne := hs.ne_header
  generalize e.lchange.saveundo a.saved none = s at *
  have hsame : Stays e s := ⟨hsaved.lines, hsaved.here, hsaved.room⟩
  unfold insertLine
  dsimp only
  rw [if_neg hne, if_neg hroom']
  refine hsame.trans ⟨rfl, ?_, ?_⟩
  · change (if s.dot.p = s.dot.p then _ else s.dot).p = _
    rw [if_pos rfl]
  · exact (congrArg LINE.l_size (Function.update_self s.dot.p _ s.line)).trans rfl

/-- Deleting within the line. -/
theorem ldelete_stays (h : Shows e z) (hro : e.bfro = false) {k : Nat} (hk : k ≤ e.rest.length) :
    Stays e (ldelete k e).1 := by
  obtain ⟨as, bs, hl, -⟩ := h.split
  obtain ⟨hrep, -⟩ := ldelete_replaces h hro hl hk
  refine ⟨hrep.lines.trans hl.symm, by rw [hrep.dot], ?_⟩
  cases k with
  | zero =>
      have hwrite : (!e.checkreadonly) = false := by simp [Ed.checkreadonly, hro]
      unfold ldelete
      rw [if_neg (by omega), hwrite, if_neg Bool.false_ne_true]
      rfl
  | succ k =>
      obtain ⟨hdel, -, hne, hone⟩ := ldelete_step h hro (Nat.succ_pos k) hk
      rw [hone, ldeleteStep_eq h (Nat.succ_pos k)]
      dsimp only
      rw [hdel, if_neg hne]
      have hline : (e.lchange.saveundo (.UDELETE (k + 1) (e.deleted (k + 1)).flatten) none).line =
          e.line := saveundo_line ..
      have hdot : (e.lchange.saveundo (.UDELETE (k + 1) (e.deleted (k + 1)).flatten) none).dot =
          e.dot := saveundo_dot ..
      generalize e.lchange.saveundo (.UDELETE (k + 1) (e.deleted (k + 1)).flatten) none = s at *
      change ((Function.update s.line s.dot.p _) e.dot.p).l_size = _
      rw [hdot, Function.update_self, hline]

/-- What is in front of the cursor in its line. -/
theorem Shows.line_front (h : Shows e z) : lineFront z.left = (e.chars e.dot.p).take e.dot.o := by
  obtain ⟨hin, -⟩ := h.sound.chars h.mem
  obtain ⟨as, bs, hl, rfl⟩ := h.split
  have hpos : ∀ c ∈ ((e.chars e.dot.p).take e.dot.o).reverse, decide (c ≠ nl) = true :=
    fun c hc => decide_eq_true fun heq =>
      (hin.take e.dot.o).noBreak (heq ▸ List.mem_reverse.mp hc)
  unfold lineFront List.rtakeWhile
  rw [List.reverse_append, List.takeWhile_append_of_pos hpos]
  rcases List.eq_nil_or_concat as with rfl | ⟨as, q, rfl⟩
  · simp
  · simp [Ed.row]

/-- The line of the cursor, cut at the cursor. -/
theorem Shows.line_text (h : Shows e z) :
    (e.line e.dot.p).l_text = (lineFront z.left ++ lineRest z.right).flatten := by
  obtain ⟨-, htext⟩ := h.sound.chars h.mem
  have hrest : lineRest z.right = e.rest := h.line_rest
  rw [h.line_front, hrest, Ed.rest, List.take_append_drop, htext]

theorem lineFront_append (h : nl ∉ m) : lineFront (l ++ m) = lineFront l ++ m := by
  have hpos : ∀ c ∈ m.reverse, decide (c ≠ nl) = true := fun c hc =>
    decide_eq_true fun heq => h (heq ▸ List.mem_reverse.mp hc)
  unfold lineFront List.rtakeWhile
  rw [List.reverse_append, List.takeWhile_append_of_pos hpos, List.reverse_append,
    List.reverse_reverse]

theorem lineRest_append (h : nl ∉ m) : lineRest (m ++ x) = m ++ lineRest x := by
  have hpos : ∀ c ∈ m, decide (c ≠ nl) = true := fun c hc => decide_eq_true fun heq => h (heq ▸ hc)
  exact List.takeWhile_append_of_pos hpos

/-- The character after the cursor is deleted, before another one is written there. -/
theorem Shows.erased (h : Shows e ⟨l, d :: x⟩) (hd : d ≠ nl) (hro : e.bfro = false) (hx : x ≠ []) :
    let s := (ldelete 1 (e.saveundo .UMOVE (some e.dot))).1
    Shows s ⟨l, x⟩ ∧ s.bfro = false ∧ Stays e s := by
  have hrest : e.rest = d :: lineRest x := by
    rw [← h.line_rest]
    exact lineRest_append (m := [d]) (by simpa using hd.symm)
  have hsaved := h.saveundo .UMOVE (some e.dot)
  have hsro : (e.saveundo .UMOVE (some e.dot)).bfro = false := (saveundo_bfro ..).trans hro
  have hdel : Stays (e.saveundo .UMOVE (some e.dot)) (ldelete 1 (e.saveundo .UMOVE (some e.dot))).1 :=
    ldelete_stays hsaved hsro (k := 1) (by
      rw [saveundo_rest, hrest, List.length_cons]
      omega)
  exact ⟨ldelete_one hsaved hx hsro, (ldelete_bfro 1 _).trans hsro,
    (stays_saveundo e .UMOVE (some e.dot)).trans hdel⟩

/-- One character written over another one where there is room. -/
theorem writeChar_stays (h : Shows e ⟨l, d :: x⟩) (hd : d ≠ nl) (hro : e.bfro = false)
    (hn : n ≠ 10) (hx : x ≠ [])
    (hroom : (lineFront l ++ uputc n :: lineRest x).flatten.length ≤ (e.line e.dot.p).l_size) :
    Stays e (writeChar n e) := by
  have hrest : e.rest = d :: lineRest x := by
    rw [← h.line_rest]
    exact lineRest_append (m := [d]) (by simpa using hd.symm)
  have hend : e.dot.o ≠ (e.line e.dot.p).wllength := fun heq => by
    rw [h.eol_iff.mp heq] at hrest
    cases hrest
  have hstay : (decide (e.dot.p ≠ e.dot.p) || decide (e.dot.o ≠ e.dot.o)) = false := by simp
  obtain ⟨hshows, hsro, hfirst⟩ := h.erased hd hro hx
  have hins := linsert_stays hshows hsro (a := .copies 1 n) (by
    have hbytes : (Insertion.copies 1 n).bytes = uputc n := by simp [Insertion.bytes]
    rw [hshows.line_text, hbytes, hfirst.here, hfirst.room]
    simp only [List.flatten_append, List.flatten_cons, List.length_append] at hroom ⊢
    omega)
  unfold writeChar
  rw [if_neg hn, if_neg h.ne_header, if_neg hend]
  unfold lputc
  dsimp only
  rw [hstay, if_neg Bool.false_ne_true, if_neg Bool.false_ne_true]
  exact (hfirst.trans hins).trans (stays_saveundo ..)

/-- There is room for each character that is written over another one, with `a` in
front of them in the line and `y` behind them. -/
def Roomy (size : Nat) (y : List UChar) : List UChar → List UChar → List UChar → Prop
  | a, _ :: m, c :: r => (a ++ c :: (m ++ y)).flatten.length ≤ size ∧ Roomy size y (a ++ [c]) m r
  | _, _, _ => True

/-- **The replacement written over the match** where there is room. -/
theorem writeLoop_stays (h : Shows e ⟨l, m ++ x⟩) (hlen : m.length = cs.length) (hx : x ≠ [])
    (hro : e.bfro = false) (hle : ∀ n ∈ cs, n ≤ 0x7fffffff) (hm : nl ∉ m)
    (hcs : nl ∉ spelled w t cs)
    (hroom : Roomy (e.line e.dot.p).l_size (lineRest x) (lineFront l) m (spelled w t cs)) :
    Stays e (writeLoop w t cs e) := by
  induction cs generalizing e l m t with
  | nil => exact Stays.refl e
  | cons n cs ih =>
      cases m with
      | nil => cases hlen
      | cons d m =>
          obtain ⟨hd, hm⟩ := not_or.mp (mt List.mem_cons.mpr hm)
          obtain ⟨hc, hcs⟩ := not_or.mp (mt List.mem_cons.mpr hcs)
          obtain ⟨hfirst, hroom⟩ := hroom
          have hput := put_le (w := w) (t := t) (hle n List.mem_cons_self)
          have hten : t.put w n ≠ 10 := fun heq => hc (by rw [heq]; rfl)
          have hx' : m ++ x ≠ [] := by simp [hx]
          have h : Shows e ⟨l, d :: (m ++ x)⟩ := h
          have hstay := writeChar_stays h (Ne.symm hd) hro hten hx' (by
            rw [lineRest_append hm]
            exact hfirst)
          refine hstay.trans (ih (writeChar_shows h hx' hro hput) (Nat.succ.inj hlen)
            ((writeChar_bfro _ _).trans hro) (fun k hk => hle k (List.mem_cons_of_mem n hk)) hm hcs ?_)
          rw [hstay.here, hstay.room, lineFront_append (by simpa using hc)]
          exact hroom

/-- There is room in a line for a match to be replaced, with `a` in front of it and `y`
behind it. -/
def MatchFits (size : Nat) (a m r y : List UChar) : Prop :=
  (m.length < r.length → (a ++ padded r.length m ++ y).flatten.length ≤ size) ∧
    Roomy size y a (padded r.length m) r

theorem pad_stays (h : Shows e ⟨l, m ++ x⟩) (hro : e.bfro = false) (hm : nl ∉ m) (rlen : Nat)
    (hroom : m.length < rlen → (lineFront l ++ padded rlen m ++ lineRest x).flatten.length ≤
      (e.line e.dot.p).l_size) : Stays e (pad m.length rlen e) := by
  unfold pad
  split_ifs with hgt hlt
  · refine ldelete_stays h hro ?_
    have hrest : e.rest = m ++ lineRest x := by
      rw [← h.line_rest]
      exact lineRest_append hm
    rw [hrest, List.length_append]
    omega
  · have hins := linsert_stays h hro (a := .copies (rlen - m.length) 0x20) (by
      have hbytes : (Insertion.copies (rlen - m.length) 0x20).bytes =
          (List.replicate (rlen - m.length) ([0x20] : UChar)).flatten := rfl
      have hfits := hroom hlt
      rw [padded, Nat.sub_eq_zero_of_le (Nat.le_of_lt hlt), List.drop_zero] at hfits
      rw [h.line_text, hbytes, lineRest_append hm]
      simp only [List.flatten_append, List.length_append] at hfits ⊢
      omega)
    exact hins.trans (stays_setDot _ _)
  · exact Stays.refl e

/-- A place in the text is one position. -/
theorem Shows.pos_unique {a b : POS} (ha : Shows (e.setDot a) z) (hb : Shows (e.setDot b) z) :
    a = b := by
  obtain ⟨hla, hoa⟩ := ha.position
  obtain ⟨hlb, hob⟩ := hb.position
  have hidx : ∀ {c : POS}, Shows (e.setDot c) z → e.lineno c.p = e.lines.idxOf c.p := by
    intro c hc
    have hlt := List.idxOf_lt_length_of_mem hc.mem
    change e.lines.idxOf c.p < e.lines.length at hlt
    exact Nat.min_eq_left (by omega)
  have hp : a.p = b.p := by
    refine (List.idxOf_inj ha.mem).mp ?_
    exact (hidx ha).symm.trans (hla.trans (hlb.symm.trans (hidx hb)))
  cases a
  cases b
  simp_all

theorem noBreak_row (hm : nl ∉ m) : Journal.row isBreak m = 0 :=
  Journal.row_eq_zero fun c hc => decide_eq_false fun heq => hm (heq ▸ hc)

variable (w casefold) in
/-- **The line of the match** stays if there is room. -/
theorem lreplace_stays (h : Shows e ⟨l ++ m, x⟩) (hx : x ≠ []) (hro : e.bfro = false)
    (junk : Nat) {ws : List UChar} (hws : AllUChars ws) (f : Bool) (hm : nl ∉ m)
    (hr : nl ∉ spelled w (capital w junk (f || !casefold) (m ++ x)) (ws.map code))
    (hroom : MatchFits (e.line e.dot.p).l_size (lineFront l) m
      (spelled w (capital w junk (f || !casefold) (m ++ x)) (ws.map code)) (lineRest x)) :
    Stays e (lreplace w casefold junk m.length ws.flatten f e).1 := by
  obtain ⟨pos, hat, heq⟩ := lreplace_eq w casefold h hx hro junk hws f
  have hsaved : Shows (e.moved pos) ⟨l, m ++ x⟩ := hat.saveundo ..
  have hro' := (moved_bfro e pos).trans hro
  -- the match begins on this line
  have hpos := Shows.pos_unique hat (h.withdraw (noBreak_row hm))
  have hstay : Stays e (e.moved pos) := by
    rw [hpos]
    exact (stays_setDot e _).trans (stays_saveundo ..)
  have hlen : (padded ws.length m).length = (ws.map code).length := by
    rw [padded_length, List.length_map]
  have hspell : ∀ (t : Rtype) (cs : List Nat), (spelled w t cs).length = cs.length := by
    intro t cs
    induction cs generalizing t with
    | nil => rfl
    | cons n cs ih => exact congrArg Nat.succ (ih t.next)
  obtain ⟨hpadroom, hroom⟩ := hroom
  rw [hspell, List.length_map] at hpadroom hroom
  have hpad := pad_stays hsaved hro' hm ws.length (by rw [hstay.here, hstay.room]; exact hpadroom)
  have hready := (hstay.trans hpad).trans (stays_saveundo _ .UMOVE
    (some (pad m.length ws.length (e.moved pos)).dot))
  have hpadnl : nl ∉ padded ws.length m := by
    intro hmem
    rcases List.mem_append.mp hmem with hmem | hmem
    · have := List.eq_of_mem_replicate hmem
      cases this
    · exact hm (List.mem_of_mem_drop hmem)
  rw [heq]
  have hloop := writeLoop_stays ((pad_shows hsaved hx hro' ws.length).saveundo .UMOVE
    (some (pad m.length ws.length (e.moved pos)).dot)) hlen hx ((ready_bfro ..).trans hro)
    (codes_le ws) hpadnl hr
    (by rw [hready.here, hready.room]; exact hroom)
  exact hready.trans ⟨hloop.lines, hloop.here, hloop.room⟩

end Emacs
