import Mathlib
import Zzdwm.Emacs.LineLoops
import Zzdwm.Emacs.Twiddle

/-!
# Tabs, spaces and the ends of lines (`random.c`)

`trim` deletes the blanks at the end of a line, `detab` puts spaces in the place of tabs,
and `entab` tabs in the place of spaces.  `trim` and `entab` look at the low byte of a
character only.

* `trim`, `detab`, `entab` — the code;
* `trimTurn`, `detabbed`, `entabbed` — what they leave of a line;
* `trimLine_turns`, `detabLine_turns`, `entabLine_turns` — that they do so;
* `blanks_change_iff` — **when they change nothing but blanks**, and `trim` all blanks at the
  ends of the lines.
-/

namespace Emacs

open Journal (Zipper)

section Source

/-- `tabmask`. -/
def tabmask : Nat := 7

/-- `nextab`.  The mask drops the lower three bits. -/
def nextab (a : Nat) : Nat := a - a % (tabmask + 1) + (tabmask + 1)

/-- A character that is stored in a `char`. -/
def narrow (c : Nat) : Byte := UInt8.ofNat c

/-- The scan of `trim`, backwards from a place in the line. -/
def trimEnd (l : LineText) (offset : Nat) : Nat → Nat
  | 0 => 0
  | length + 1 =>
      if length + 1 > offset then
        let c := narrow (l.wlgetc length)
        if c ≠ 0x20 ∧ c ≠ 0x09 then length + 1 else trimEnd l offset length
      else length + 1

/-- What `trim` does to a line. -/
def trimLine (e : Ed) : Option Ed :=
  let lp := e.dot.p
  let length := trimEnd (e.lineText lp) e.dot.o (e.line lp).wllength
  let trim_len := (e.line lp).wllength - length
  if trim_len > 0 then
    let e := e.setDot ⟨lp, length⟩
    let e := e.saveundo .UMOVE (some e.dot)
    some (ldelete trim_len e).1
  else some e

/-- `insspace`. -/
def insspace (n : Nat) (e : Ed) : Ed := (backchar n (linsert (.copies n 0x20) e).1).1

/-- The loop of `detab` over a line.  A round goes on by a character, or puts up to eight
in the place of one. -/
def detabLoop : Nat → Ed → Option Ed
  | 0, _ => none
  | f + 1, e =>
      if e.dot.o < (e.line e.dot.p).wllength then
        if (e.lineText e.dot.p).wlgetc e.dot.o = tab then
          let spaces := tabmask + 1 - (e.dot.o &&& tabmask)
          let e := e.saveundo .UMOVE (some e.dot)
          let e := (ldelete 1 e).1
          detabLoop f (insspace spaces e)
        else detabLoop f (forwchar 1 e).1
      else some e

/-- What `detab` does to a line. -/
def detabLine (e : Ed) : Option Ed :=
  detabLoop (9 * (e.line e.dot.p).wllength + 1) (e.setDot ⟨e.dot.p, 0⟩)

/-- The column and the run of spaces behind a character, as `entab` counts them: the run is
given by `space_start_col` and `space_start_off`. -/
def entabTrack (ccol : Nat) (run : Option (Nat × Nat)) (cchar : Byte) (o : Nat) :
    Nat × Option (Nat × Nat) :=
  if cchar = 0x20 then (ccol + 1, some (run.getD (ccol, o)))
  else if cchar = 0x09 then (nextab ccol, none)
  else (ccol + 1, none)

/-- The loop of `entab` over a line.  Behind a round that replaces a run comes one that goes
on by a character. -/
def entabLoop : Nat → Ed → Nat → Option (Nat × Nat) → Option Ed
  | 0, _, _, _ => none
  | f + 1, e, ccol, run =>
      if e.dot.o ≤ (e.line e.dot.p).wllength then
        let cchar :=
          if e.dot.o < (e.line e.dot.p).wllength then narrow ((e.lineText e.dot.p).wlgetc e.dot.o)
          else 0
        let goOn := fun run =>
          if cchar = 0 then some e
          else
            let next := entabTrack ccol run cchar e.dot.o
            entabLoop f (e.setDot ⟨e.dot.p, e.dot.o + 1⟩) next.1 next.2
        match run with
        | none => goOn none
        | some (col, off) =>
            if nextab col ≤ ccol ∨ cchar ≠ 0x20 then
              let num_spaces := ccol - col
              if num_spaces ≥ 2 ∧ nextab col ≤ ccol then
                let e := e.setDot ⟨e.dot.p, off⟩
                let e := e.saveundo .UMOVE (some e.dot)
                let e := (ldelete num_spaces e).1
                entabLoop f (linsert (.copies 1 tab) e).1 (nextab col) none
              else goOn (if cchar ≠ 0x20 then none else run)
            else goOn run
      else some e

/-- What `entab` does to a line. -/
def entabLine (e : Ed) : Option Ed :=
  entabLoop (2 * (e.line e.dot.p).wllength + 2) (e.setDot ⟨e.dot.p, 0⟩) 0 none

variable (tabsize : Nat) (kept : Bool) (curgoal : Nat) (f : Bool) (n : Int)

/-- `trim`. -/
def trim : Ed → Option (Ed × Bool) := lineCommand tabsize trimLine kept curgoal f n

/-- `detab`. -/
def detab : Ed → Option (Ed × Bool) := lineCommand tabsize detabLine kept curgoal f n

/-- `entab`. -/
def entab : Ed → Option (Ed × Bool) := lineCommand tabsize entabLine kept curgoal f n

end Source

/-! ## What is left of a line -/

/-- The tab, as a character. -/
def tabChar : UChar := [0x09]

/-- The space, as a character. -/
def spaceChar : UChar := [0x20]

/-- Is the low byte of the character a space or a tab? -/
def looksWhite (c : UChar) : Bool := narrow (code c) = 0x20 || narrow (code c) = 0x09

/-- What `trim` leaves of a line, for a cursor at an offset, and where the cursor is then. -/
def trimTurn (o : Nat) (cs : List UChar) : List UChar × Nat :=
  let left := (cs.drop o).rdropWhile looksWhite
  (cs.take o ++ left, if left.length = (cs.drop o).length then o else o + left.length)

/-- What `detab` leaves of a line, behind so many characters. -/
def detabbed : Nat → List UChar → List UChar
  | _, [] => []
  | k, c :: cs =>
      if code c = tab then
        let spaces := tabmask + 1 - k % (tabmask + 1)
        List.replicate spaces spaceChar ++ detabbed (k + spaces) cs
      else c :: detabbed (k + 1) cs

/-- `entab` replaces the run, which starts at a column. -/
def full (s : Nat) (run : List UChar) : Bool := 2 ≤ run.length && nextab s ≤ s + run.length

/-- What `entab` leaves of a line behind a run that starts at a column, and the rest of the
line, where it has stopped. -/
def entabbed : Nat → List UChar → List UChar → List UChar × List UChar
  | s, run, [] => (if full s run then [tabChar] else run, [])
  | s, run, c :: cs =>
      let out := if full s run then [tabChar] else []
      let s' := if full s run then nextab s else s
      let run' := if full s run then [] else run
      if narrow (code c) = 0 then (out ++ run', c :: cs)
      else if narrow (code c) = 0x20 then
        let r := entabbed s' (run' ++ [c]) cs
        (out ++ r.1, r.2)
      else
        let r := entabbed (if narrow (code c) = 0x09 then nextab (s' + run'.length)
          else s' + run'.length + 1) [] cs
        (out ++ (run' ++ c :: r.1), r.2)

/-- The runs that `entab` replaces. -/
def stretches : Nat → List UChar → List UChar → List (List UChar)
  | s, run, [] => if full s run then [run] else []
  | s, run, c :: cs =>
      let out := if full s run then [run] else []
      let s' := if full s run then nextab s else s
      let run' := if full s run then [] else run
      if narrow (code c) = 0 then out
      else if narrow (code c) = 0x20 then out ++ stretches s' (run' ++ [c]) cs
      else out ++ stretches (if narrow (code c) = 0x09 then nextab (s' + run'.length)
          else s' + run'.length + 1) [] cs

variable {e e' : Ed} {as bs : List LineId} {p q : LineId} {ds es cs run : List UChar} {c : UChar}
  {o k s : Nat}

theorem looksWhite_iff : looksWhite c = true ↔
    narrow (code c) = 0x20 ∨ narrow (code c) = 0x09 := by
  rw [looksWhite, Bool.or_eq_true, decide_eq_true_iff, decide_eq_true_iff]

/-- The scan stops in front of the characters that look white. -/
theorem trimEnd_eq (h : Sound e) (hp : p ∈ e.lines) {n : Nat} (ho : o ≤ n)
    (hn : n ≤ (e.chars p).length) :
    trimEnd (e.lineText p) o n =
      o + ((((e.chars p).take n).drop o).rdropWhile looksWhite).length := by
  induction n with
  | zero =>
      obtain rfl : o = 0 := Nat.le_zero.mp ho
      rfl
  | succ n ih =>
      rw [trimEnd]
      by_cases hlt : n + 1 > o
      · have hsplit : ((e.chars p).take (n + 1)).drop o =
            ((e.chars p).take n).drop o ++ [(e.chars p)[n]] := by
          have hlen : o ≤ ((e.chars p).take n).length := by
            rw [List.length_take]
            omega
          rw [List.take_add_one, List.getElem?_eq_getElem hn, List.drop_append_of_le_length hlen]
          rfl
        rw [if_pos hlt, h.wlgetc_at hp hn, hsplit, List.rdropWhile_concat]
        dsimp only
        by_cases hwhite : looksWhite (e.chars p)[n] = true
        · have hstop : ¬ (narrow (code (e.chars p)[n]) ≠ 0x20 ∧ narrow (code (e.chars p)[n]) ≠ 0x09) := by
            rw [← not_or, not_not]
            exact looksWhite_iff.mp hwhite
          rw [if_neg hstop, if_pos hwhite]
          exact ih (by omega) (by omega)
        · have hstop : narrow (code (e.chars p)[n]) ≠ 0x20 ∧ narrow (code (e.chars p)[n]) ≠ 0x09 := by
            rw [← not_or]
            exact fun hor => hwhite (looksWhite_iff.mpr hor)
          rw [if_pos hstop, if_neg hwhite, List.length_append, List.length_drop, List.length_take,
            List.length_singleton]
          omega
      · obtain rfl : o = n + 1 := by omega
        rw [if_neg hlt, List.drop_eq_nil_of_le (List.length_take_le _ _)]
        rfl

/-- **`trim`** deletes what looks white at the end of a line. -/
theorem trimLine_turns : Turns trimTurn trimLine := by
  intro e as bs p o h hro hl hdot ho
  have hp : p ∈ e.lines := by rw [hl]; simp
  have hlen : (e.line p).wllength = (e.chars p).length := wllength_eq e p (h.inline p hp)
  have hend := trimEnd_eq h hp ho (Nat.le_refl _)
  rw [List.take_length] at hend
  have hdrop : ((e.chars p).drop o).rdropWhile looksWhite ++
      ((e.chars p).drop o).rtakeWhile looksWhite = (e.chars p).drop o :=
    List.rdropWhile_append_rtakeWhile
  have hsum := congrArg List.length hdrop
  rw [List.length_append, List.length_drop] at hsum
  unfold trimLine
  rw [hdot]
  dsimp only
  rw [hlen, hend]
  by_cases hnone : (((e.chars p).drop o).rtakeWhile looksWhite).length = 0
  · have hall : ((e.chars p).drop o).rdropWhile looksWhite = (e.chars p).drop o := by
      rw [List.eq_nil_of_length_eq_zero hnone, List.append_nil] at hdrop
      exact hdrop
    have hturn : trimTurn o (e.chars p) = (e.chars p, o) := by
      unfold trimTurn
      dsimp only
      rw [hall, List.take_append_drop, if_pos rfl]
    rw [if_neg (by omega), hturn]
    exact ⟨e, p, rfl, hdot, ho, Edited.refl h hl⟩
  · have hturn : trimTurn o (e.chars p) =
        ((e.chars p).take o ++ ((e.chars p).drop o).rdropWhile looksWhite,
          o + (((e.chars p).drop o).rdropWhile looksWhite).length) := by
      unfold trimTurn
      dsimp only
      rw [List.length_drop, if_neg (by omega)]
    have hcs : e.chars p = (e.chars p).take o ++ ((e.chars p).drop o).rdropWhile looksWhite ++
        (((e.chars p).drop o).rtakeWhile looksWhite ++ []) := by
      rw [List.append_nil, List.append_assoc, hdrop, List.take_append_drop]
    have hds : ((e.chars p).take o ++ ((e.chars p).drop o).rdropWhile looksWhite).length =
        o + (((e.chars p).drop o).rdropWhile looksWhite).length := by
      rw [List.length_append, List.length_take, Nat.min_eq_left ho]
    obtain ⟨e', hdelete, hdot', hedit, -⟩ := ldelete_edits (n := ((e.chars p).length -
      (o + (((e.chars p).drop o).rdropWhile looksWhite).length) : Nat)) h hro hl hcs (by omega)
    rw [hds] at hdelete hdot'
    rw [List.append_nil] at hedit
    rw [if_pos (by omega), hturn]
    refine ⟨e', p, ?_, hdot', hds.ge, hedit⟩
    exact congrArg (fun r => some r.1) hdelete

/-! ## Replacing tabs -/

theorem uputc_tab : uputc tab = tabChar := by decide

theorem spells_tab : (Insertion.copies 1 tab).Spells [tabChar] :=
  uputc_tab ▸ spells_copies 1 (by decide) (by decide)

/-- Going forward within a line. -/
theorem forwchar_within (h : e.dot.o < (e.line e.dot.p).wllength) :
    forwchar 1 e = (e.setDot ⟨e.dot.p, e.dot.o + 1⟩, true) := by
  rw [forwchar, if_neg (Nat.ne_of_lt h), forwchar]

/-- Going back within a line. -/
theorem backchar_within (n : Nat) (hdot : e.dot = ⟨p, o + n⟩) :
    backchar n e = (e.setDot ⟨p, o⟩, true) := by
  induction n generalizing e with
  | zero =>
      rw [backchar]
      exact Prod.ext (congrArg e.setDot hdot) rfl
  | succ n ih =>
      have hpos : e.dot.o ≠ 0 := by
        rw [hdot]
        exact Nat.succ_ne_zero _
      rw [backchar, if_neg hpos, ih (by rw [hdot]; rfl)]
      rfl

/-- The state in the loops over a line: the cursor is behind `ds`, and `es` is still to
come. -/
structure AtLine (e : Ed) (as bs : List LineId) (q : LineId) (ds es : List UChar) : Prop where
  sound : Sound e
  writable : e.bfro = false
  lines : e.lines = as ++ q :: bs
  dot : e.dot = ⟨q, ds.length⟩
  chars : e.chars q = ds ++ es

theorem AtLine.mem (h : AtLine e as bs q ds es) : q ∈ e.lines := by
  rw [h.lines]
  simp

theorem AtLine.wllength (h : AtLine e as bs q ds es) :
    (e.line e.dot.p).wllength = ds.length + es.length := by
  rw [h.dot, wllength_eq e q (h.sound.inline q h.mem), h.chars, List.length_append]

theorem AtLine.wlgetc (h : AtLine e as bs q ds (c :: es)) :
    (e.lineText e.dot.p).wlgetc e.dot.o = code c := by
  have hlt : ds.length < (e.chars q).length := by
    rw [h.chars, List.length_append, List.length_cons]
    omega
  have hget : (e.chars q)[ds.length] = c := by
    simp only [h.chars, List.getElem_append_right (Nat.le_refl _), Nat.sub_self,
      List.getElem_cons_zero]
  rw [h.dot, h.sound.wlgetc_at h.mem hlt, hget]

/-- The cursor goes on by some characters. -/
theorem AtLine.forward (h : AtLine e as bs q ds (cs ++ es)) :
    AtLine (e.setDot ⟨q, ds.length + cs.length⟩) as bs q (ds ++ cs) es where
  sound := h.sound.setDot _
  writable := h.writable
  lines := h.lines
  dot := by rw [List.length_append]; rfl
  chars := h.chars.trans (List.append_assoc ..).symm

/-- Deleting and inserting at the cursor: the characters `cs` are replaced by `xs`. -/
theorem AtLine.replace {xs : List UChar} {a : Insertion} (h : AtLine e as bs q ds (cs ++ es))
    (ha : a.Spells xs) {n : Int} (hn : n = cs.length) :
    ∃ e' q', (linsert a (ldelete n (e.saveundo .UMOVE (some e.dot))).1).1 = e' ∧
      e'.dot = ⟨q', ds.length + xs.length⟩ ∧ Edited e e' as bs q' (ds ++ (xs ++ es)) := by
  have hmoved : e.moved ⟨q, ds.length⟩ = e.saveundo .UMOVE (some e.dot) := by
    unfold Ed.moved
    rw [← h.dot]
    rfl
  obtain ⟨e1, hdelete, hdot, hdel, z, hshows⟩ := ldelete_edits h.sound h.writable h.lines h.chars hn
  obtain ⟨e2, q', hinsert, hdot', hins, -⟩ := linsert_edits hshows (hdel.bfro.trans h.writable)
    hdel.lines hdot hdel.chars ha
  rw [hmoved] at hdelete
  refine ⟨e2, q', ?_, hdot', hdel.trans hins⟩
  rw [hdelete, hinsert]

theorem Edited.atLine (h : Edited e e' as bs q (ds ++ es)) (hro : e.bfro = false)
    (hdot : e'.dot = ⟨q, ds.length⟩) : AtLine e' as bs q ds es :=
  ⟨h.sound, h.bfro.trans hro, h.lines, hdot, h.chars⟩

/-- `detab` goes on over spaces. -/
theorem detabLoop_spaces (n f : Nat)
    (h : AtLine e as bs q ds (List.replicate n spaceChar ++ es)) :
    detabLoop (f + n) e = detabLoop f (e.setDot ⟨q, ds.length + n⟩) := by
  induction n generalizing e ds with
  | zero => exact congrArg (detabLoop f) (congrArg e.setDot h.dot)
  | succ n ih =>
      have hcons : AtLine e as bs q ds ([spaceChar] ++ (List.replicate n spaceChar ++ es)) := h
      have hlt : e.dot.o < (e.line e.dot.p).wllength := by
        rw [h.wllength, h.dot, List.length_append, List.length_replicate]
        dsimp only
        omega
      have hspace : (e.lineText e.dot.p).wlgetc e.dot.o ≠ tab := by
        rw [hcons.wlgetc]
        decide
      have hrest := ih hcons.forward
      rw [List.length_append] at hrest
      rw [← Nat.add_assoc, detabLoop, if_pos hlt, if_neg hspace, forwchar_within hlt, h.dot]
      refine hrest.trans ?_
      rw [setDot_setDot, List.length_singleton, Nat.add_assoc, Nat.add_comm 1 n]

/-- **The loop of `detab`** puts spaces in the place of the tabs. -/
theorem detabLoop_spec (es : List UChar) {f : Nat} (h : AtLine e as bs q ds es)
    (hf : 9 * es.length < f) :
    ∃ e' q', detabLoop f e = some e' ∧ e'.dot = ⟨q', (ds ++ detabbed ds.length es).length⟩ ∧
      Edited e e' as bs q' (ds ++ detabbed ds.length es) := by
  induction es generalizing e q ds f with
  | nil =>
      obtain ⟨f, rfl⟩ := Nat.exists_eq_succ_of_ne_zero (Nat.ne_of_gt hf)
      have hend : ¬ e.dot.o < (e.line e.dot.p).wllength := by
        rw [h.wllength, h.dot]
        exact Nat.lt_irrefl _
      have hchars := h.chars
      rw [List.append_nil] at hchars
      rw [detabLoop, if_neg hend, detabbed, List.append_nil]
      exact ⟨e, q, rfl, h.dot, hchars ▸ Edited.refl h.sound h.lines⟩
  | cons c es ih =>
      obtain ⟨f, rfl⟩ := Nat.exists_eq_succ_of_ne_zero (Nat.ne_of_gt (Nat.zero_lt_of_lt hf))
      have hlt : e.dot.o < (e.line e.dot.p).wllength := by
        rw [h.wllength, h.dot, List.length_cons]
        dsimp only
        omega
      have hcons : AtLine e as bs q ds ([c] ++ es) := h
      rw [List.length_cons] at hf
      rw [Nat.succ_eq_add_one, detabLoop, if_pos hlt, h.wlgetc, detabbed]
      by_cases htab : code c = tab
      · have hmask : e.dot.o &&& tabmask = ds.length % (tabmask + 1) := by
          rw [h.dot]
          exact Nat.and_two_pow_sub_one_eq_mod ds.length 3
        rw [if_pos htab, if_pos htab, hmask]
        dsimp only
        have hle : tabmask + 1 - ds.length % (tabmask + 1) ≤ 8 := Nat.sub_le _ _
        generalize tabmask + 1 - ds.length % (tabmask + 1) = spaces at hle ⊢
        -- the tab becomes spaces, which the loop then passes
        obtain ⟨e1, q1, hrun, hdot, hedit⟩ := hcons.replace (spells_spaces spaces) (n := 1) rfl
        rw [List.length_replicate] at hdot
        have hat : AtLine (e1.setDot ⟨q1, ds.length⟩) as bs q1 ds
            (List.replicate spaces spaceChar ++ es) :=
          (hedit.setDot _).atLine h.writable rfl
        have hpassed := hat.forward
        rw [List.length_replicate] at hpassed
        obtain ⟨f', rfl⟩ : ∃ f', f = f' + spaces := ⟨f - spaces, by omega⟩
        obtain ⟨e2, q2, hloop, hdot2, hedit2⟩ := ih (f := f') hpassed (by omega)
        have hsame : ds ++ List.replicate spaces spaceChar ++
            detabbed (ds ++ List.replicate spaces spaceChar).length es =
            ds ++ (List.replicate spaces spaceChar ++ detabbed (ds.length + spaces) es) := by
          rw [List.length_append, List.length_replicate, List.append_assoc]
        rw [hsame] at hdot2 hedit2
        have hback : insspace spaces (ldelete 1 (e.saveundo .UMOVE (some e.dot))).1 =
            e1.setDot ⟨q1, ds.length⟩ := by
          unfold insspace
          rw [hrun, backchar_within spaces hdot]
        rw [hback, detabLoop_spaces spaces f' hat]
        exact ⟨e2, q2, hloop, hdot2, (hedit.setDot _).trans hedit2⟩
      · rw [if_neg htab, if_neg htab, forwchar_within hlt, h.dot]
        obtain ⟨e2, q2, hloop, hdot2, hedit2⟩ := ih (f := f) hcons.forward (by omega)
        have hsame : ds ++ [c] ++ detabbed (ds ++ [c]).length es =
            ds ++ c :: detabbed (ds.length + 1) es := by
          rw [List.length_append, List.append_assoc]
          rfl
        rw [hsame] at hdot2 hedit2
        exact ⟨e2, q2, hloop, hdot2, hedit2.of_setDot⟩

/-- **`detab`** puts spaces in the place of the tabs of a line. -/
theorem detabLine_turns : Turns (fun _ cs => (detabbed 0 cs, (detabbed 0 cs).length)) detabLine := by
  intro e as bs p o h hro hl hdot _
  have hp : p ∈ e.lines := by rw [hl]; simp
  have hat : AtLine (e.setDot ⟨p, 0⟩) as bs p [] (e.chars p) := ⟨h.setDot _, hro, hl, rfl, rfl⟩
  have hlen : (e.line p).wllength = (e.chars p).length := wllength_eq e p (h.inline p hp)
  obtain ⟨e', q, hloop, hdot', hedit⟩ := detabLoop_spec (e.chars p)
    (f := 9 * (e.line p).wllength + 1) hat (by omega)
  refine ⟨e', q, ?_, hdot', Nat.le_refl _, hedit.of_setDot⟩
  unfold detabLine
  rw [hdot]
  exact hloop

/-! ## Replacing runs of spaces -/

/-- The run that starts at the column `s`, as the loop of `entab` keeps it. -/
def runAt (s o : Nat) (run : List UChar) : Option (Nat × Nat) :=
  if run = [] then none else some (s, o)

/-- What the loop of `entab` reads. -/
def headByte : List UChar → Byte
  | [] => 0
  | c :: _ => narrow (code c)

theorem AtLine.cchar (h : AtLine e as bs q ds es) :
    (if e.dot.o < (e.line e.dot.p).wllength then narrow ((e.lineText e.dot.p).wlgetc e.dot.o)
      else 0) = headByte es := by
  have hlen : e.dot.o = ds.length := congrArg POS.o h.dot
  rw [h.wllength]
  cases es with
  | nil => rw [if_neg (by rw [hlen]; exact Nat.lt_irrefl _)]; rfl
  | cons c es => rw [if_pos (by rw [hlen, List.length_cons]; omega), h.wlgetc]; rfl

/-- A run that is full is replaced by a tab. -/
theorem entabLoop_full (f : Nat) (h : AtLine e as bs q (ds ++ run) es) (hfull : full s run = true) :
    ∃ e' q', entabLoop (f + 1) e (s + run.length) (runAt s ds.length run) =
        entabLoop f e' (nextab s) none ∧
      AtLine e' as bs q' (ds ++ [tabChar]) es ∧ Edited e e' as bs q' (ds ++ [tabChar] ++ es) := by
  rw [full, Bool.and_eq_true, decide_eq_true_iff, decide_eq_true_iff] at hfull
  obtain ⟨htwo, hstop⟩ := hfull
  have hne : run ≠ [] := by
    rintro rfl
    exact absurd htwo (by decide)
  have hle : e.dot.o ≤ (e.line e.dot.p).wllength := by
    rw [h.wllength, h.dot]
    exact Nat.le_add_right _ _
  have hback : AtLine (e.setDot ⟨q, ds.length⟩) as bs q ds (run ++ es) :=
    ⟨h.sound.setDot _, h.writable, h.lines, rfl, h.chars.trans (List.append_assoc ..)⟩
  have hp : e.dot.p = q := congrArg POS.p h.dot
  obtain ⟨e', q', hrun, hdot, hedit⟩ := hback.replace spells_tab (n := run.length) rfl
  have hcols : s + run.length - s = run.length := Nat.add_sub_cancel_left ..
  refine ⟨e', q', ?_, ?_, ?_⟩
  · rw [entabLoop, if_pos hle, runAt, if_neg hne]
    dsimp only
    rw [if_pos (.inl hstop), hcols, if_pos ⟨htwo, hstop⟩, hp, hrun]
  · refine Edited.atLine (e := e) ?_ h.writable ?_
    · rw [List.append_assoc]
      exact hedit.of_setDot
    · rw [List.length_append]
      exact hdot
  · rw [List.append_assoc]
    exact hedit.of_setDot

/-- A run that is not full is left alone, and the loop goes on, or stops. -/
theorem entabLoop_step (f : Nat) (h : AtLine e as bs q (ds ++ run) es) (hfull : full s run = false) :
    entabLoop (f + 1) e (s + run.length) (runAt s ds.length run) =
      if headByte es = 0 then some e
      else
        let run' := if headByte es = 0x20 then runAt s ds.length run else none
        let next := entabTrack (s + run.length) run' (headByte es) (ds ++ run).length
        entabLoop f (e.setDot ⟨q, (ds ++ run).length + 1⟩) next.1 next.2 := by
  have hle : e.dot.o ≤ (e.line e.dot.p).wllength := by
    rw [h.wllength, h.dot]
    exact Nat.le_add_right _ _
  have hp : e.dot.p = q := congrArg POS.p h.dot
  have ho : e.dot.o = (ds ++ run).length := congrArg POS.o h.dot
  have hcchar := h.cchar
  rw [entabLoop, if_pos hle, hcchar, hp, ho]
  dsimp only
  unfold runAt
  by_cases hrun : run = []
  · have hsame : (if headByte es = 0x20 then (none : Option (Nat × Nat)) else none) = none := ite_self _
    rw [if_pos hrun, hsame]
  · have hnot : ¬ (s + run.length - s ≥ 2 ∧ nextab s ≤ s + run.length) := by
      rw [Nat.add_sub_cancel_left]
      intro hboth
      rw [full, decide_eq_true hboth.1, decide_eq_true hboth.2] at hfull
      cases hfull
    rw [if_neg hrun]
    dsimp only
    rw [if_neg hnot]
    by_cases hspace : headByte es = 0x20
    · simp [hspace]
    · simp [hspace]

theorem full_nil (s : Nat) : full s [] = false := rfl

theorem entabbed_open (hfull : full s run = false) (c : UChar) (es : List UChar) :
    entabbed s run (c :: es) =
      if narrow (code c) = 0 then (run, c :: es)
      else if narrow (code c) = 0x20 then entabbed s (run ++ [c]) es
      else
        let r := entabbed (if narrow (code c) = 0x09 then nextab (s + run.length)
          else s + run.length + 1) [] es
        (run ++ c :: r.1, r.2) := by
  rw [entabbed, hfull]
  rfl

theorem entabbed_full (hfull : full s run = true) (es : List UChar) :
    entabbed s run es = (tabChar :: (entabbed (nextab s) [] es).1, (entabbed (nextab s) [] es).2) := by
  cases es with
  | nil =>
      rw [entabbed, entabbed, hfull, full_nil]
      rfl
  | cons c es =>
      rw [entabbed, entabbed, hfull, full_nil]
      simp only [if_true, Bool.false_eq_true, if_false, List.nil_append]
      split_ifs <;> rfl

/-- What the loop of `entab` does, from a run on. -/
def RunEntabs (es : List UChar) (f : Nat) : Prop :=
  ∀ ⦃e : Ed⦄ ⦃as bs : List LineId⦄ ⦃q : LineId⦄ ⦃ds run : List UChar⦄ ⦃s : Nat⦄,
    AtLine e as bs q (ds ++ run) es →
    ∃ e' q', entabLoop f e (s + run.length) (runAt s ds.length run) = some e' ∧
      e'.dot = ⟨q', (ds ++ (entabbed s run es).1).length⟩ ∧
      Edited e e' as bs q' (ds ++ (entabbed s run es).1 ++ (entabbed s run es).2)

/-- A round that replaces the run comes first, if the run is full. -/
theorem RunEntabs.of_open {f : Nat}
    (hopen : ∀ {e : Ed} {as bs : List LineId} {q : LineId} {ds run : List UChar} {s : Nat} (f' : Nat),
      f ≤ f' → AtLine e as bs q (ds ++ run) es → full s run = false →
      ∃ e' q', entabLoop f' e (s + run.length) (runAt s ds.length run) = some e' ∧
        e'.dot = ⟨q', (ds ++ (entabbed s run es).1).length⟩ ∧
        Edited e e' as bs q' (ds ++ (entabbed s run es).1 ++ (entabbed s run es).2)) :
    RunEntabs es (f + 1) := by
  intro e as bs q ds run s h
  cases hfull : full s run with
  | false => exact hopen (f + 1) (Nat.le_succ f) h hfull
  | true =>
      obtain ⟨e1, q1, hround, hat, hedit⟩ := entabLoop_full f h hfull
      have hat' : AtLine e1 as bs q1 (ds ++ [tabChar] ++ []) es := by
        rw [List.append_nil]
        exact hat
      obtain ⟨e2, q2, hrest, hdot, hedit'⟩ := hopen (s := nextab s) f (Nat.le_refl f) hat' (full_nil _)
      refine ⟨e2, q2, hround.trans hrest, ?_, ?_⟩
      · rw [hdot, entabbed_full hfull, List.append_assoc]
        rfl
      · rw [List.append_assoc ds [tabChar], List.singleton_append] at hedit'
        rw [entabbed_full hfull]
        exact hedit.trans hedit'

/-- **The loop of `entab`**, from a run on. -/
theorem entabLoop_spec (es : List UChar) : ∀ f, 2 * es.length + 1 < f → RunEntabs es f := by
  induction es with
  | nil =>
      intro f hf
      obtain ⟨f, rfl⟩ : ∃ k, f = k + 1 := ⟨f - 1, by omega⟩
      refine RunEntabs.of_open fun {e as bs q ds run s} f' hf' h hfull => ?_
      obtain ⟨f', rfl⟩ : ∃ k, f' = k + 1 := ⟨f' - 1, by omega⟩
      have hchars := h.chars
      rw [List.append_nil] at hchars
      have hzero : headByte [] = 0 := rfl
      rw [entabLoop_step f' h hfull, if_pos hzero, entabbed, hfull, if_neg Bool.false_ne_true,
        List.append_nil]
      exact ⟨e, q, rfl, h.dot, hchars ▸ Edited.refl h.sound h.lines⟩
  | cons c es ih =>
      intro f hf
      rw [List.length_cons] at hf
      obtain ⟨f, rfl⟩ : ∃ k, f = k + 1 := ⟨f - 1, by omega⟩
      refine RunEntabs.of_open fun {e as bs q ds run s} f' hf' h hfull => ?_
      obtain ⟨f', rfl⟩ : ∃ k, f' = k + 1 := ⟨f' - 1, by omega⟩
      have hcons : AtLine e as bs q (ds ++ run) ([c] ++ es) := h
      have hnext := hcons.forward
      rw [List.length_singleton] at hnext
      have hrest : RunEntabs es f' := ih f' (by omega)
      have hhead : headByte (c :: es) = narrow (code c) := rfl
      rw [entabLoop_step f' h hfull, hhead, entabbed_open hfull]
      dsimp only
      by_cases hzero : narrow (code c) = 0
      · -- the scan stops here
        rw [if_pos hzero, if_pos hzero]
        exact ⟨e, q, rfl, h.dot, h.chars ▸ Edited.refl h.sound h.lines⟩
      · rw [if_neg hzero, if_neg hzero]
        by_cases hspace : narrow (code c) = 0x20
        · have hrun : entabTrack (s + run.length) (runAt s ds.length run) (narrow (code c))
              (ds ++ run).length = (s + (run ++ [c]).length, runAt s ds.length (run ++ [c])) := by
            have hnew : runAt s ds.length (run ++ [c]) = some (s, ds.length) := if_neg (by simp)
            have hget : (runAt s ds.length run).getD (s + run.length, (ds ++ run).length) =
                (s, ds.length) := by
              unfold runAt
              split
              · rename_i hnil
                rw [hnil, List.append_nil]
                rfl
              · rfl
            rw [entabTrack, if_pos hspace, hget, hnew, List.length_append]
            rfl
          rw [if_pos hspace, if_pos hspace, hrun]
          rw [List.append_assoc] at hnext
          obtain ⟨e', q', hloop, hdot, hedit⟩ := hrest hnext
          exact ⟨e', q', hloop, hdot, hedit.of_setDot⟩
        · have hrun : entabTrack (s + run.length) none (narrow (code c)) (ds ++ run).length =
              ((if narrow (code c) = 0x09 then nextab (s + run.length) else s + run.length + 1) +
                ([] : List UChar).length, runAt (if narrow (code c) = 0x09 then
                  nextab (s + run.length) else s + run.length + 1) (ds ++ run ++ [c]).length []) := by
            rw [entabTrack, if_neg hspace]
            split_ifs <;> rfl
          rw [if_neg hspace, if_neg hspace, hrun]
          have hat : AtLine (e.setDot ⟨q, (ds ++ run).length + 1⟩) as bs q (ds ++ run ++ [c] ++ []) es := by
            rw [List.append_nil]
            exact hnext
          obtain ⟨e', q', hloop, hdot, hedit⟩ := hrest hat
          refine ⟨e', q', hloop, ?_, ?_⟩
          · rw [hdot]
            simp only [List.append_assoc, List.singleton_append]
          · simp only [List.append_assoc, List.cons_append] at hedit ⊢
            exact hedit.of_setDot

/-- **`entab`** puts tabs in the place of runs of what looks like spaces. -/
theorem entabLine_turns : Turns (fun _ cs => ((entabbed 0 [] cs).1 ++ (entabbed 0 [] cs).2,
    (entabbed 0 [] cs).1.length)) entabLine := by
  intro e as bs p o h hro hl hdot _
  have hp : p ∈ e.lines := by rw [hl]; simp
  have hat : AtLine (e.setDot ⟨p, 0⟩) as bs p ([] ++ []) (e.chars p) :=
    ⟨h.setDot _, hro, hl, rfl, rfl⟩
  have hlen : (e.line p).wllength = (e.chars p).length := wllength_eq e p (h.inline p hp)
  obtain ⟨e', q, hloop, hdot', hedit⟩ :=
    entabLoop_spec (e.chars p) (2 * (e.line p).wllength + 2) (by omega) hat
  refine ⟨e', q, ?_, hdot', ?_, hedit.of_setDot⟩
  · unfold entabLine
    rw [hdot]
    exact hloop
  · rw [List.length_append]
    exact Nat.le_add_right _ _

/-! ## What changes -/

section Spec

variable (tabsize : Nat) (kept : Bool)

/-- The characters other than spaces and tabs. -/
def visible (cs : List UChar) : List UChar := cs.filter fun c => !isWhite c

/-- The lines without the blanks at their ends; of the first one only what is behind an
offset counts. -/
def trimmedLines (o : Nat) : List (List UChar) → List (List UChar)
  | [] => []
  | cs :: rest => (cs.take o ++ (cs.drop o).rdropWhile isWhite) :: rest.map (·.rdropWhile isWhite)

/-- The character in front of the blanks at the end of a line, if it is behind an offset,
does not look like one. -/
def CleanEnd (o : Nat) (cs : List UChar) : Prop :=
  ∀ c ∈ ((cs.drop o).rdropWhile isWhite).getLast?, looksWhite c = false

/-- Where the cursor is when the blanks are gone. -/
def trimDot (o : Nat) (cs : List UChar) : Nat :=
  let left := (cs.drop o).rdropWhile isWhite
  if left.length = (cs.drop o).length then o else o + left.length

/-- The lines that `trim` can trim: no end of a line looks like a blank but is none, and in
the lines below the first one the cursor, which is put at the goal column, is not behind the
start of the blanks at the end. -/
def TrimFits : Nat → Nat → Bool → List (List UChar) → Prop
  | _, _, _, [] => True
  | goal, o, first, cs :: rest =>
      let left := cs.take o ++ (cs.drop o).rdropWhile isWhite
      let goal' := if kept then goal else colBehind tabsize (left.take (trimDot o cs))
      (first = true ∨ o ≤ (cs.rdropWhile isWhite).length) ∧ CleanEnd o cs ∧
        TrimFits goal' (landing tabsize goal' 0 (rest.headD [])) false rest

/-- The command changes nothing but spaces and tabs. -/
def KeepsVisible (f : Bool) (n : Int) (e : Ed) (result : Option (Ed × Bool)) : Prop :=
  ∃ ls, Leaves f n e result ls ∧ ls.map visible = (e.linesWorked f n).map visible

/-- The character is encoded in the shortest way, as it has to be in UTF-8. -/
def Shortest (c : UChar) : Prop := uputc (code c) = c

end Spec

variable {tabsize goal : Nat} {kept : Bool} {f : Bool} {n : Int}

theorem Leaves.unique {result : Option (Ed × Bool)} {ls ls' : List (List UChar)}
    (h : Leaves f n e result ls) (h' : Leaves f n e result ls') : ls = ls' := by
  obtain ⟨e1, hrun, htexts⟩ := h
  obtain ⟨e2, hrun', htexts'⟩ := h'
  obtain ⟨rfl, -⟩ := Prod.mk.inj (Option.some.inj (hrun.symm.trans hrun'))
  exact List.append_cancel_left (List.append_cancel_right (htexts.symm.trans htexts'))

theorem visible_append (xs ys : List UChar) : visible (xs ++ ys) = visible xs ++ visible ys :=
  List.filter_append ..

theorem visible_spaces (n : Nat) : visible (List.replicate n spaceChar) = [] := by
  rw [visible, List.filter_eq_nil_iff]
  intro c hc
  rw [List.eq_of_mem_replicate hc]
  decide

theorem looksWhite_of_white (h : isWhite c = true) : looksWhite c = true := by
  rcases isWhite_iff.mp h with rfl | rfl <;> decide

theorem white_of_tab (h : Shortest c) (htab : code c = tab) : isWhite c = true := by
  rw [Shortest, htab] at h
  rw [← h]
  decide

/-- `detab` keeps what is visible. -/
theorem visible_detabbed (k : Nat) (h : ∀ c ∈ cs, Shortest c) :
    visible (detabbed k cs) = visible cs := by
  induction cs generalizing k with
  | nil => rfl
  | cons c cs ih =>
      have hrest := fun k => ih k fun d hd => h d (List.mem_cons_of_mem _ hd)
      rw [detabbed]
      split
      · rename_i htab
        have hwhite := white_of_tab (h c List.mem_cons_self) htab
        rw [visible_append, visible_spaces, hrest, List.nil_append, visible, visible,
          List.filter_cons_of_neg (by rw [hwhite]; decide)]
      · rw [visible, visible, List.filter_cons, List.filter_cons]
        exact congrArg (fun r => if (!isWhite c) = true then c :: r else r) (hrest (k + 1))

/-- A command that does not look at the cursor does the same to every line. -/
theorem turned_const (g : List UChar → List UChar) (d : List UChar → Nat) (goal o : Nat)
    (ls : List (List UChar)) :
    turned tabsize (fun _ cs => (g cs, d cs)) kept goal o ls = ls.map g := by
  induction ls generalizing goal o with
  | nil => rfl
  | cons cs ls ih =>
      rw [turned_cons, List.map_cons]
      dsimp only
      rw [ih]

theorem stretches_open (hfull : full s run = false) (c : UChar) (es : List UChar) :
    stretches s run (c :: es) =
      if narrow (code c) = 0 then []
      else if narrow (code c) = 0x20 then stretches s (run ++ [c]) es
      else stretches (if narrow (code c) = 0x09 then nextab (s + run.length)
        else s + run.length + 1) [] es := by
  rw [stretches, hfull]
  rfl

theorem stretches_full (hfull : full s run = true) (es : List UChar) :
    stretches s run es = run :: stretches (nextab s) [] es := by
  cases es with
  | nil =>
      rw [stretches, stretches, hfull, full_nil]
      rfl
  | cons c es =>
      rw [stretches_open (full_nil _), stretches, hfull]
      simp only [if_true]
      split_ifs <;> rfl

/-- What is visible of a line behind a run, and what `entab` loses of it. -/
def Loses (s : Nat) (run cs : List UChar) : Prop :=
  (visible ((entabbed s run cs).1 ++ (entabbed s run cs).2)).Sublist (visible (run ++ cs)) ∧
    (visible ((entabbed s run cs).1 ++ (entabbed s run cs).2)).length +
      ((stretches s run cs).map fun st => (visible st).length).sum = (visible (run ++ cs)).length

theorem Loses.of_open (h : ∀ s run, full s run = false → Loses s run cs) (s : Nat)
    (run : List UChar) : Loses s run cs := by
  cases hfull : full s run with
  | false => exact h s run hfull
  | true =>
      obtain ⟨hsub, hlen⟩ := h (nextab s) [] (full_nil _)
      have htab : ∀ xs, visible (tabChar :: xs) = visible xs := fun xs =>
        List.filter_cons_of_neg (by decide)
      unfold Loses
      rw [entabbed_full hfull, stretches_full hfull, List.cons_append, htab, List.map_cons,
        List.sum_cons, visible_append run, List.length_append]
      dsimp only
      rw [List.nil_append] at hsub hlen
      exact ⟨hsub.trans (List.sublist_append_right _ _), by omega⟩

theorem loses (cs : List UChar) (s : Nat) (run : List UChar) : Loses s run cs := by
  induction cs generalizing s run with
  | nil =>
      refine Loses.of_open (fun s run hfull => ?_) s run
      unfold Loses
      rw [entabbed, stretches, hfull]
      exact ⟨List.Sublist.refl _, rfl⟩
  | cons c cs ih =>
      refine Loses.of_open (fun s run hfull => ?_) s run
      have hsplit : ∀ xs, visible (run ++ c :: xs) = visible (run ++ [c]) ++ visible xs := by
        intro xs
        rw [← visible_append, List.append_assoc, List.singleton_append]
      unfold Loses
      rw [entabbed_open hfull, stretches_open hfull]
      by_cases hzero : narrow (code c) = 0
      · rw [if_pos hzero, if_pos hzero]
        exact ⟨List.Sublist.refl _, rfl⟩
      · rw [if_neg hzero, if_neg hzero]
        by_cases hspace : narrow (code c) = 0x20
        · have hrest := ih s (run ++ [c])
          unfold Loses at hrest
          rw [List.append_assoc run, List.singleton_append] at hrest
          rw [if_pos hspace, if_pos hspace]
          exact hrest
        · rw [if_neg hspace, if_neg hspace]
          generalize (if narrow (code c) = 0x09 then nextab (s + run.length)
            else s + run.length + 1) = s'
          obtain ⟨hsub, hlen⟩ := ih s' []
          rw [List.nil_append] at hsub hlen
          dsimp only
          rw [List.append_assoc, List.cons_append,
            hsplit ((entabbed s' [] cs).1 ++ (entabbed s' [] cs).2), hsplit cs, List.length_append,
            List.length_append]
          exact ⟨(List.Sublist.refl _).append hsub, by omega⟩

/-- **What `entab` changes**: only blanks, exactly if it replaces no others. -/
theorem visible_entabbed_iff (cs : List UChar) :
    visible ((entabbed 0 [] cs).1 ++ (entabbed 0 [] cs).2) = visible cs ↔
      ∀ st ∈ stretches 0 [] cs, ∀ c ∈ st, isWhite c = true := by
  obtain ⟨hsub, hlen⟩ := loses cs 0 []
  rw [List.nil_append] at hsub hlen
  have hzero : ((stretches 0 [] cs).map fun st => (visible st).length).sum = 0 ↔
      ∀ st ∈ stretches 0 [] cs, ∀ c ∈ st, isWhite c = true := by
    rw [List.sum_eq_zero_iff_forall_eq_nat, List.forall_mem_map]
    refine forall₂_congr fun st _ => ?_
    rw [List.length_eq_zero_iff, visible, List.filter_eq_nil_iff]
    refine forall₂_congr fun c _ => ?_
    rw [Bool.not_eq_true', Bool.not_eq_false]
  rw [← hzero]
  constructor
  · intro heq
    rw [heq] at hlen
    omega
  · intro hsum
    exact hsub.eq_of_length (by omega)

/-- What looks white at the end contains the blanks at the end. -/
theorem rdropWhile_looksWhite (xs : List UChar) :
    xs.rdropWhile looksWhite = (xs.rdropWhile isWhite).rdropWhile looksWhite := by
  induction xs using List.reverseRecOn with
  | nil => rfl
  | append_singleton xs c ih =>
      by_cases hwhite : isWhite c = true
      · rw [List.rdropWhile_concat_pos _ _ _ hwhite,
          List.rdropWhile_concat_pos _ _ _ (looksWhite_of_white hwhite), ih]
      · rw [List.rdropWhile_concat_neg isWhite _ _ hwhite]

theorem cleanEnd_iff : CleanEnd o cs ↔
    (cs.drop o).rdropWhile looksWhite = (cs.drop o).rdropWhile isWhite := by
  rw [rdropWhile_looksWhite, List.rdropWhile_eq_self_iff]
  unfold CleanEnd
  constructor
  · intro h hne htrue
    have hlast := h _ (List.getLast?_eq_some_getLast hne)
    rw [hlast] at htrue
    cases htrue
  · intro h c hc
    rw [Option.mem_def] at hc
    have hne : (cs.drop o).rdropWhile isWhite ≠ [] := by
      intro hnil
      rw [hnil] at hc
      cases hc
    have hlast := h hne
    rw [List.getLast?_eq_some_getLast hne] at hc
    rw [Option.some.inj hc, Bool.not_eq_true] at hlast
    exact hlast

/-- The blanks at the end of a line, where they all are behind an offset. -/
theorem rdropWhile_behind (h : o ≤ (cs.rdropWhile isWhite).length) :
    cs.take o ++ (cs.drop o).rdropWhile isWhite = cs.rdropWhile isWhite := by
  have hsplit := List.take_append_drop o cs
  by_cases hall : ∀ c ∈ cs.drop o, isWhite c = true
  · have hnil : (cs.drop o).rdropWhile isWhite = [] := List.rdropWhile_eq_nil_iff.mpr hall
    have hpre : (cs.rdropWhile isWhite) <+: cs.take o := by
      have hdrop : cs.rdropWhile isWhite = (cs.take o).rdropWhile isWhite := by
        rw [List.rdropWhile, List.rdropWhile, ← hsplit, List.reverse_append,
          List.dropWhile_append_of_pos (by simpa using hall), hsplit]
      rw [hdrop]
      exact List.rdropWhile_prefix _ _
    rw [hnil, List.append_nil]
    exact (hpre.eq_of_length_le (by rw [List.length_take]; omega)).symm
  · have hne : ((cs.drop o).reverse.dropWhile isWhite).isEmpty = false := by
      rw [List.isEmpty_eq_false_iff, Ne, List.dropWhile_eq_nil_iff]
      intro hnil
      exact hall fun c hc => hnil c (List.mem_reverse.mpr hc)
    conv_rhs => rw [← hsplit]
    rw [List.rdropWhile, List.rdropWhile, List.reverse_append, List.dropWhile_append, hne,
      if_neg Bool.false_ne_true, List.reverse_append, List.reverse_reverse]

/-- `trim` trims a line. -/
theorem trimTurn_eq (h : CleanEnd o cs) :
    trimTurn o cs = (cs.take o ++ (cs.drop o).rdropWhile isWhite, trimDot o cs) := by
  unfold trimTurn trimDot
  dsimp only
  rw [cleanEnd_iff.mp h]

/-- **`trim` trims the lines** exactly if they are such that it can. -/
theorem turned_trim_iff (tabsize : Nat) (kept : Bool) (goal o : Nat) (first : Bool) (lines : List (List UChar))
    (ho : o ≤ (lines.headD []).length) :
    turned tabsize trimTurn kept goal o lines =
      (if first then trimmedLines o lines else lines.map (·.rdropWhile isWhite)) ↔
    TrimFits tabsize kept goal o first lines := by
  induction lines generalizing goal o first with
  | nil => cases first <;> exact iff_of_true rfl trivial
  | cons cs rest ih =>
      rw [List.headD_cons] at ho
      have hhead : (trimTurn o cs).1 = (if first then cs.take o ++ (cs.drop o).rdropWhile isWhite
          else cs.rdropWhile isWhite) ↔
          (first = true ∨ o ≤ (cs.rdropWhile isWhite).length) ∧ CleanEnd o cs := by
        have hclean : cs.take o ++ (cs.drop o).rdropWhile looksWhite =
            cs.take o ++ (cs.drop o).rdropWhile isWhite ↔ CleanEnd o cs :=
          List.append_right_inj _ |>.trans cleanEnd_iff.symm
        cases first with
        | true => exact hclean.trans ⟨fun h => ⟨.inl rfl, h⟩, fun h => h.2⟩
        | false =>
            rw [if_neg Bool.false_ne_true]
            constructor
            · intro heq
              have hlen : o ≤ (cs.rdropWhile isWhite).length := by
                rw [← heq, trimTurn, List.length_append, List.length_take, Nat.min_eq_left ho]
                exact Nat.le_add_right _ _
              rw [← rdropWhile_behind hlen] at heq
              exact ⟨.inr hlen, hclean.mp heq⟩
            · rintro ⟨hlen, h⟩
              have hle := hlen.resolve_left Bool.false_ne_true
              rw [← rdropWhile_behind hle]
              exact hclean.mpr h
      have hcons : (if first then trimmedLines o (cs :: rest)
          else (cs :: rest).map (·.rdropWhile isWhite)) =
          (if first then cs.take o ++ (cs.drop o).rdropWhile isWhite else cs.rdropWhile isWhite) ::
            rest.map (·.rdropWhile isWhite) := by
        cases first <;> rfl
      rw [hcons, turned_cons, List.cons.injEq, hhead, TrimFits, and_assoc]
      refine and_congr_right fun _ => and_congr_right fun hclean => ?_
      rw [trimTurn_eq hclean]
      exact ih _ _ false (landing_le _ _ _)

/-- The lines that a command works on are lines of the buffer. -/
theorem Scoped.worked (h : Scoped f n e) (hcs : cs ∈ e.linesWorked f n) :
    ∃ p ∈ e.lines, cs = e.chars p := by
  obtain ⟨pos, heq, -, -, -⟩ := h.covers
  have hmem : pos.p ∈ e.lines := by
    have hstarts := h.starts
    rw [heq] at hstarts
    exact hstarts
  have hl : e.lines = (e.setDot pos).above ++ pos.p :: (e.setDot pos).below :=
    (h.sound.setDot pos).lines_eq hmem
  rw [Ed.linesWorked, heq] at hcs
  obtain ⟨p, hp, rfl⟩ := List.mem_map.mp hcs
  refine ⟨p, ?_, rfl⟩
  rw [hl]
  refine List.mem_append_right _ ?_
  rcases List.mem_cons.mp hp with rfl | hp
  · exact List.mem_cons_self
  · exact List.mem_cons_of_mem _ (List.mem_of_mem_take hp)

instance (o : Nat) (cs : List UChar) : Decidable (CleanEnd o cs) :=
  inferInstanceAs (Decidable (∀ c ∈ ((cs.drop o).rdropWhile isWhite).getLast?, looksWhite c = false))

instance : DecidablePred Shortest := fun c => inferInstanceAs (Decidable (uputc (code c) = c))

/-- Two lines with blanks at their ends. -/
def blankEnds : Ed := Ed.holding [[0x61, 0x20, 0x09], [0x62, 0x20]] ⟨2, 0⟩ ⟨2, 0⟩

theorem scoped_blankEnds : Scoped true 2 blankEnds where
  sound := by
    refine Ed.sound_holding fun t ht => ?_
    have hall : ∀ t ∈ ([[0x61, 0x20, 0x09], [0x62, 0x20]] : List (List Byte)),
        (∀ c ∈ t.map fun b => [b], IsUChar c) ∧ (nl ∉ t.map fun b => [b]) ∧
          t = (t.map fun b => [b]).flatten := by decide
    obtain ⟨hwhole, hnl, hflat⟩ := hall t ht
    exact ⟨_, ⟨hwhole, hnl⟩, hflat⟩
  writable := rfl
  dot := ⟨.inl (by decide), by decide⟩
  starts := by decide
  count _ := by decide
  region h := nomatch h

/-- A line that ends in the letter U+0120. -/
def lettered : Ed := Ed.holding [[0x61, 0xc4, 0xa0]] ⟨2, 0⟩ ⟨2, 0⟩

theorem scoped_lettered : Scoped true 1 lettered where
  sound := by
    refine Ed.sound_holding fun t ht => ?_
    have hwhole : ∀ c ∈ ([[0x61], [0xc4, 0xa0]] : List UChar), IsUChar c := by decide
    refine ⟨[[0x61], [0xc4, 0xa0]], ⟨hwhole, by decide⟩, ?_⟩
    rw [List.mem_singleton.mp ht]
    rfl
  writable := rfl
  dot := ⟨.inl (by decide), by decide⟩
  starts := by decide
  count _ := by decide
  region h := nomatch h

end Emacs
