import Zzdwm.Emacs.Rectangle
import Zzdwm.Emacs.Replace

/-!
# Commands on several lines (`basic.c`, `region.c`, `random.c`)

`detab`, `entab` and `trim` work on one line after the other.  From line to line they go
with `forwline`, which puts the cursor at the goal column.

* `lineCommand` — the loop that the commands share, with `reglines` and `forwline`;
* `Turns` — what a command does to one line;
* `overLines_turns` — **what the loop leaves** of the lines that it goes over;
* `reglines_covers` — the lines of a region.
-/

namespace Emacs

open Journal (Zipper)

section Source

variable (tabsize : Nat)

/-- The column behind a character, as `getcolpos` and `getgoal` count it. -/
def colStep (col c : Nat) : Nat :=
  if c = tab then col + (tabsize - col % tabsize)
  else if c < 0x80 ∧ cisctrl c then col + 2
  else col + 1

/-- `getcolpos`. -/
def getcolpos (e : Ed) : Nat :=
  (List.range e.dot.o).foldl (fun col i => colStep tabsize col ((e.lineText e.dot.p).wlgetc i)) 0 + 1

/-- The loop of `getgoal`; every round passes at least one byte. -/
def getgoalLoop (curgoal : Nat) : Nat → List Byte → Nat → Nat
  | 0, _, _ => 0
  | f + 1, s, col =>
      if s = [] then 0
      else
        let newcol := colStep tabsize col (ugetc s).1
        if newcol > curgoal then 0
        else getgoalLoop curgoal f (s.drop (ugetc s).2) newcol + 1

/-- `getgoal`. -/
def getgoal (curgoal : Nat) (e : Ed) (dlp : LineId) : Nat :=
  getgoalLoop tabsize curgoal (e.line dlp).l_used (e.line dlp).l_text 0

/-- `lastline`. -/
def Ed.lastline (e : Ed) : LineId := e.lback e.b_linep

/-- `forwline` and `backline` by one line, with `curgoal` as the second component.
`kept` tells that `lastflag` has `CFCPCN`. -/
def nextLine (kept forward : Bool) (st : Ed × Nat) : Ed × Nat :=
  let (e, curgoal) := st
  let curgoal := if kept then curgoal else getcolpos tabsize e - 1
  let dlp :=
    if forward then
      if e.dot.p = e.lastline then e.dot.p else e.lforw e.dot.p
    else if e.dot.p = e.firstline then e.dot.p
    else e.lback e.dot.p
  (e.setDot ⟨dlp, getgoal tabsize curgoal e dlp⟩, curgoal)

/-- The loop of `reglines`; every round passes at least one character. -/
def reglinesLoop (e : Ed) : Nat → LineId → Int → Nat
  | 0, _, _ => 0
  | f + 1, linep, r_size =>
      if r_size > 0 then
        reglinesLoop e f (e.lforw linep) (r_size - ((e.line linep).wllength + 1)) + 1
      else 0

/-- `reglines`. -/
def reglines (e : Ed) : Ed × Int :=
  match getregion e ⟨e.dot, 0⟩ with
  | (_, some _) => (e, 1)
  | (region, none) =>
      let r_size := region.r_size + region.r_pos.o
      let n := reglinesLoop e r_size.toNat region.r_pos.p r_size
      (e.setDot region.r_pos, if n > 0 then n else 1)

/-- Where a command on several lines starts, and how many there are. -/
def Ed.scope (f : Bool) (n : Int) (e : Ed) : Ed × Int := if f then (e, n) else reglines e

variable (line : Ed → Option Ed) (kept : Bool)

/-- The loop over the lines, with what is done to one of them. -/
def overLines (forward : Bool) : Nat → Ed × Nat → Option (Ed × Nat)
  | 0, st => some st
  | n + 1, (e, curgoal) =>
      match line e with
      | none => none
      | some e => overLines forward n (nextLine tabsize kept forward (e, curgoal))

/-- What `detab`, `entab` and `trim` have in common. -/
def lineCommand (curgoal : Nat) (f : Bool) (n : Int) (e : Ed) : Option (Ed × Bool) :=
  if !e.checkreadonly then some (e, false)
  else
    let (e, n) := e.scope f n
    match overLines tabsize line kept (n > 0) n.natAbs (e, curgoal) with
    | none => none
    | some (e, _) => some ((e.setDot ⟨e.dot.p, 0⟩).lchange, true)

end Source

/-! ## Columns of the cursor -/

section Spec

variable (tabsize : Nat)

/-- The column behind some characters. -/
def colBehind (cs : List UChar) : Nat := cs.foldl (fun col c => colStep tabsize col (code c)) 0

/-- How many characters end at a column or in front of it. -/
def landing (goal : Nat) : Nat → List UChar → Nat
  | _, [] => 0
  | col, c :: cs =>
      let next := colStep tabsize col (code c)
      if next > goal then 0 else landing goal next cs + 1

/-- What a loop over lines leaves of them: `turn` gives what is left of a line, for a
cursor at an offset, and the offset of the cursor afterwards. -/
def turned (turn : Nat → List UChar → List UChar × Nat) (kept : Bool) :
    Nat → Nat → List (List UChar) → List (List UChar)
  | _, _, [] => []
  | goal, o, cs :: rest =>
      let (left, o) := turn o cs
      let goal := if kept then goal else colBehind tabsize (left.take o)
      left :: turned turn kept goal (landing tabsize goal 0 (rest.headD [])) rest

theorem turned_cons (turn : Nat → List UChar → List UChar × Nat) (kept : Bool) (goal o : Nat)
    (cs : List UChar) (rest : List (List UChar)) :
    turned tabsize turn kept goal o (cs :: rest) =
      let goal' := if kept then goal else colBehind tabsize ((turn o cs).1.take (turn o cs).2)
      (turn o cs).1 ::
        turned tabsize turn kept goal' (landing tabsize goal' 0 (rest.headD [])) rest := rfl

end Spec

variable {tabsize : Nat} {e e' : Ed} {as bs ms : List LineId} {p : LineId} {cs : List UChar}
  {goal o : Nat}

theorem landing_le (goal col : Nat) (cs : List UChar) : landing tabsize goal col cs ≤ cs.length := by
  induction cs generalizing col with
  | nil => exact Nat.le_refl _
  | cons c cs ih =>
      rw [landing]
      split
      · exact Nat.zero_le _
      · exact Nat.succ_le_succ (ih _)

/-- The character at an offset. -/
theorem Sound.wlgetc_at (h : Sound e) (hp : p ∈ e.lines) (ho : o < (e.chars p).length) :
    (e.lineText p).wlgetc o = code (e.chars p)[o] := by
  have hchars := h.lineText_chars hp
  have hlt : o < (e.lineText p).chars.length := by
    rw [hchars, List.length_map]
    exact ho
  rw [(e.lineText p).wlgetc_eq hlt]
  simp only [hchars, List.getElem_map]

theorem getcolpos_eq (h : Sound e) (hp : e.dot.p ∈ e.lines) (ho : e.dot.o ≤ (e.chars e.dot.p).length) :
    getcolpos tabsize e - 1 = colBehind tabsize ((e.chars e.dot.p).take e.dot.o) := by
  have hfold : ∀ n ≤ (e.chars e.dot.p).length,
      (List.range n).foldl (fun col i => colStep tabsize col ((e.lineText e.dot.p).wlgetc i)) 0 =
        colBehind tabsize ((e.chars e.dot.p).take n) := by
    intro n hn
    induction n with
    | zero => rfl
    | succ n ih =>
        rw [List.range_succ, List.foldl_append, ih (by omega), List.take_add_one, colBehind, colBehind,
          List.foldl_append, List.getElem?_eq_getElem hn]
        simp only [List.foldl_cons, List.foldl_nil, Option.toList_some, h.wlgetc_at hp hn]
  rw [getcolpos, Nat.add_sub_cancel, hfold _ ho]

theorem getgoal_eq (h : Sound e) (hp : p ∈ e.lines) (goal : Nat) :
    getgoal tabsize goal e p = landing tabsize goal 0 (e.chars p) := by
  have hloop : ∀ (cs : List UChar) (col f : Nat), AllUChars cs → cs.flatten.length ≤ f →
      getgoalLoop tabsize goal f cs.flatten col = landing tabsize goal col cs := by
    intro cs
    induction cs with
    | nil =>
        intro col f _ _
        cases f with
        | zero => rfl
        | succ f =>
            rw [getgoalLoop, List.flatten_nil, if_pos rfl]
            rfl
    | cons c cs ih =>
        intro col f hall hf
        have hc := hall c List.mem_cons_self
        have hpos := List.length_pos_iff.mpr hc.ne_nil
        rw [List.flatten_cons, List.length_append] at hf
        obtain ⟨f, rfl⟩ : ∃ k, f = k + 1 := ⟨f - 1, by omega⟩
        have hne : c ++ cs.flatten ≠ [] := List.append_ne_nil_of_left_ne_nil hc.ne_nil _
        have hrest := ih (colStep tabsize col (code c)) f
          (fun d hd => hall d (List.mem_cons_of_mem _ hd)) (by omega)
        rw [List.flatten_cons, getgoalLoop, if_neg hne, ugetc_append hc, List.drop_left, landing]
        dsimp only
        rw [hrest]
  obtain ⟨hin, htext⟩ := h.chars hp
  rw [getgoal, LINE.l_used, htext]
  exact hloop _ _ _ hin.whole (Nat.le_refl _)

/-! ## The loop -/

/-- **What a command does to a line**: of a line with the cursor at an offset it leaves
what `turn` gives, and the cursor where `turn` says. -/
def Turns (turn : Nat → List UChar → List UChar × Nat) (line : Ed → Option Ed) : Prop :=
  ∀ ⦃e : Ed⦄ ⦃as bs : List LineId⦄ ⦃p : LineId⦄ ⦃o : Nat⦄, Sound e → e.bfro = false →
    e.lines = as ++ p :: bs → e.dot = ⟨p, o⟩ → o ≤ (e.chars p).length →
    ∃ e' q, line e = some e' ∧ e'.dot = ⟨q, (turn o (e.chars p)).2⟩ ∧
      (turn o (e.chars p)).2 ≤ (turn o (e.chars p)).1.length ∧
      Edited e e' as bs q (turn o (e.chars p)).1

theorem Edited.setDot {q : LineId} (h : Edited e e' as bs q cs) (pos : POS) :
    Edited e (e'.setDot pos) as bs q cs :=
  ⟨h.sound.setDot pos, h.lines, h.others, h.chars, h.header, h.bfro⟩

theorem Edited.of_setDot {q : LineId} {pos : POS} (h : Edited (e.setDot pos) e' as bs q cs) :
    Edited e e' as bs q cs :=
  ⟨h.sound, h.lines, h.others, h.chars, h.header, h.bfro⟩

variable (tabsize goal) in
/-- The line after the one of the cursor, at the goal column. -/
theorem nextLine_forward (kept : Bool) {r : LineId} (h : Sound e) (hl : e.lines = as ++ e.dot.p :: r :: bs)
    (ho : e.dot.o ≤ (e.chars e.dot.p).length) :
    let goal' := if kept then goal else colBehind tabsize ((e.chars e.dot.p).take e.dot.o)
    nextLine tabsize kept true (e, goal) =
      (e.setDot ⟨r, landing tabsize goal' 0 (e.chars r)⟩, goal') := by
  have hp : e.dot.p ∈ e.lines := by rw [hl]; simp
  have hr : r ∈ e.lines := by rw [hl]; simp
  obtain ⟨-, hbs, -⟩ := h.around hl
  have hlast : e.lastline = (r :: bs).getLastD e.b_linep := by
    change Circular.prev e.b_linep e.lines e.b_linep = _
    rw [Circular.prev_header h.header, hl, List.getLastD_eq_getLast?, List.getLastD_eq_getLast?,
      List.getLast?_append_of_ne_nil _ (List.cons_ne_nil _ _), List.getLast?_cons_cons]
  have hne : e.dot.p ≠ e.lastline := by
    rw [hlast]
    intro heq
    refine hbs ?_
    rw [heq, List.getLastD_eq_getLast?, List.getLast?_eq_some_getLast (List.cons_ne_nil _ _)]
    exact List.getLast_mem _
  unfold nextLine
  dsimp only
  rw [if_pos rfl, if_neg hne, h.lforw_of hl, List.headD_cons, getcolpos_eq h hp ho, getgoal_eq h hr]

/-- The lines of a buffer after a line has been edited. -/
theorem Edited.texts {q : LineId} (h : Edited e e' as bs q cs) :
    e'.lines.map e'.chars = as.map e.chars ++ cs :: bs.map e.chars := by
  have hsame : ∀ r ∈ as ++ bs, e'.chars r = e.chars r := by
    intro r hr
    rw [Ed.chars, Ed.chars, h.others r hr]
  rw [h.lines, List.map_append, List.map_cons, h.chars,
    List.map_congr_left fun r hr => hsame r (List.mem_append_left _ hr),
    List.map_congr_left fun r hr => hsame r (List.mem_append_right _ hr)]

variable (tabsize goal) in
/-- **What the loop leaves**: each line as the command turns it, for a cursor that comes
from the line above. -/
theorem overLines_turns {turn : Nat → List UChar → List UChar × Nat} {line : Ed → Option Ed}
    (hturn : Turns turn line) (kept : Bool) (h : Sound e) (hro : e.bfro = false)
    (hl : e.lines = as ++ p :: (ms ++ bs)) (hdot : e.dot = ⟨p, o⟩) (ho : o ≤ (e.chars p).length) :
    ∃ e' goal', overLines tabsize line kept true (ms.length + 1) (e, goal) = some (e', goal') ∧
      e'.lines.map e'.chars = as.map e.chars ++
        turned tabsize turn kept goal o (e.chars p :: ms.map e.chars) ++ bs.map e.chars := by
  induction ms generalizing as p e o goal with
  | nil =>
      obtain ⟨e1, q, hline, -, -, hedit⟩ := hturn h hro hl hdot ho
      refine ⟨_, _, by rw [List.length_nil, overLines, hline]; rfl, ?_⟩
      change e1.lines.map e1.chars = _
      rw [hedit.texts, turned]
      simp [turned]
  | cons r ms ih =>
      obtain ⟨e1, q, hline, hdot1, hle, hedit⟩ := hturn h hro hl hdot ho
      have hsame : ∀ s ∈ as ++ (r :: ms ++ bs), e1.chars s = e.chars s := by
        intro s hs
        rw [Ed.chars, Ed.chars, hedit.others s hs]
      have hl1 : e1.lines = as ++ e1.dot.p :: r :: (ms ++ bs) := by
        rw [hdot1, hedit.lines]
        rfl
      have hchars : e1.chars e1.dot.p = (turn o (e.chars p)).1 := by
        rw [hdot1]
        exact hedit.chars
      have hr : e1.chars r = e.chars r := hsame r (by simp)
      have hnext := nextLine_forward tabsize goal kept hedit.sound hl1 (by rw [hchars, hdot1]; exact hle)
      dsimp only at hnext
      rw [hchars, hdot1, hr] at hnext
      generalize hgoal : (if kept then goal
        else colBehind tabsize ((turn o (e.chars p)).1.take (turn o (e.chars p)).2)) = goal1 at hnext
      have hro1 : (e1.setDot ⟨r, landing tabsize goal1 0 (e.chars r)⟩).bfro = false :=
        hedit.bfro.trans hro
      have hl2 : e1.lines = (as ++ [q]) ++ r :: (ms ++ bs) := by
        rw [hedit.lines, List.append_assoc]
        rfl
      obtain ⟨e2, goal2, hrun, htexts⟩ := ih goal1 (hedit.sound.setDot _) hro1 hl2 rfl
        (by rw [← hr]; exact landing_le goal1 0 (e1.chars r))
      refine ⟨e2, goal2, ?_, ?_⟩
      · rw [List.length_cons, overLines, hline]
        dsimp only
        rw [hnext]
        exact hrun
      · have hmap : ∀ ls : List LineId, (∀ s ∈ ls, s ∈ as ++ (r :: ms ++ bs)) →
            ls.map e1.chars = ls.map e.chars := fun ls hls =>
          List.map_congr_left fun s hs => hsame s (hls s hs)
        change e2.lines.map e2.chars = (as ++ [q]).map e1.chars ++
          turned tabsize turn kept goal1 _ (e1.chars r :: ms.map e1.chars) ++ bs.map e1.chars at htexts
        rw [htexts, List.map_append, List.map_singleton, hedit.chars, hmap as (by simp +contextual),
          hmap ms (by simp +contextual), hmap bs (by simp +contextual), hr, List.map_cons,
          turned_cons tabsize turn kept goal o (e.chars p)]
        dsimp only
        rw [hgoal, List.headD_cons]
        simp only [List.append_assoc, List.nil_append, List.cons_append]

/-! ## The lines of a region -/

variable {f : Bool} {n : Int} {region g : REGION} {pos : POS}

/-- A region that is accepted ends at a position of the buffer. -/
theorem getregion_ends (h : Linked e) (hdot : Within e e.dot) (hmark : Within e e.curwp.w_mark)
    (heq : getregion e g = (region, none)) :
    Within e region.r_pos ∧ ∃ b, Within e b ∧ e.passed region.r_pos + region.r_size = e.passed b := by
  by_cases hne : e.dot.p = e.curwp.w_mark.p
  · unfold getregion at heq
    rw [if_neg (hmark.nonnull h), if_pos hne] at heq
    by_cases hlt : e.dot.o < e.curwp.w_mark.o
    · rw [if_pos hlt] at heq
      obtain ⟨rfl, -⟩ := Prod.mk.inj heq
      refine ⟨hdot, _, hmark, ?_⟩
      dsimp only
      rw [passed_eq, passed_eq, hne]
      omega
    · rw [if_neg hlt, hne] at heq
      obtain ⟨rfl, -⟩ := Prod.mk.inj heq
      refine ⟨hmark, _, hdot, ?_⟩
      rw [passed_eq, passed_eq, hne]
      dsimp only
      omega
  · obtain ⟨a, b, hab, -, hr⟩ := getregion_spec (g := g) h hdot hmark hne
    have hwithin : Within e a ∧ Within e b := by
      rcases hab with ⟨rfl, rfl⟩ | ⟨rfl, rfl⟩
      · exact ⟨hdot, hmark⟩
      · exact ⟨hmark, hdot⟩
    rw [heq, setsize] at hr
    obtain ⟨hregion, hnone⟩ := Prod.mk.inj hr
    dsimp only at hregion hnone
    split at hnone
    · cases hnone
    · rename_i hsize
      rw [not_not] at hsize
      subst hregion
      refine ⟨hwithin.1, b, hwithin.2, ?_⟩
      dsimp only
      rw [hsize]
      omega

/-- There are no more lines than characters to count. -/
theorem reglinesLoop_le (h : Sound e) (hl : e.lines = as ++ bs) (f : Nat) {size : Int}
    (hsize : size ≤ (bs.map fun p => (e.line p).wllength + 1).sum) :
    reglinesLoop e f (bs.headD e.b_linep) size ≤ bs.length := by
  induction f generalizing as bs size with
  | zero => exact Nat.zero_le _
  | succ f ih =>
      rw [reglinesLoop]
      split
      · rename_i hpos
        cases bs with
        | nil =>
            rw [List.map_nil, List.sum_nil] at hsize
            omega
        | cons p bs =>
            rw [List.headD_cons, h.lforw_of hl]
            have hl' : e.lines = (as ++ [p]) ++ bs := by rw [hl]; simp
            rw [List.map_cons, List.sum_cons] at hsize
            exact Nat.succ_le_succ (ih hl' (by omega))
      · exact Nat.zero_le _

/-- **The lines of a region**: there is at least one, and not more than there are from its
start on. -/
theorem reglines_covers (hs : Sound e) (h : Linked e) (hdot : Within e e.dot)
    (hmark : Within e e.curwp.w_mark) :
    ∃ pos, (reglines e).1 = e.setDot pos ∧ Within e pos ∧ 0 < (reglines e).2 ∧
      (pos.p ∈ e.lines → (reglines e).2 ≤ (e.setDot pos).below.length + 1) := by
  unfold reglines
  cases hregion : getregion e ⟨e.dot, 0⟩ with
  | mk region message =>
    cases message with
    | some m => exact ⟨e.dot, rfl, hdot, Int.one_pos, fun _ => by dsimp only; omega⟩
    | none =>
        obtain ⟨hpos, b, hb, hsize⟩ := getregion_ends h hdot hmark hregion
        refine ⟨region.r_pos, rfl, hpos, by dsimp only; split <;> omega, fun hmem => ?_⟩
        have hl : e.lines = (e.setDot region.r_pos).above ++ region.r_pos.p :: _ :=
          (hs.setDot region.r_pos).lines_eq hmem
        obtain ⟨has, -, -⟩ := hs.around hl
        have htotal : e.passed b ≤ e.symbols.length := by
          by_cases hbmem : b.p ∈ e.lines
          · exact (hs.passed_lt hb hbmem).le
          · exact (hs.passed_header hb hbmem).2.le
        have hlen : e.symbols.length = (e.lines.map fun p => (e.line p).wllength + 1).sum := by
          rw [Ed.symbols, List.length_flatMap]
          refine congrArg List.sum (List.map_congr_left fun p hp => ?_)
          rw [Ed.row, List.length_append, List.length_singleton, wllength_eq e p (hs.inline p hp)]
        have hbefore : e.charsBefore region.r_pos.p =
            ((e.setDot region.r_pos).above.map fun p => (e.line p).wllength + 1).sum := by
          change Circular.before _ e.lines _ = _
          rw [hl, Circular.before_append has]
        rw [passed_eq] at hsize
        rw [hlen, hl, List.map_append, List.sum_append, ← hbefore] at htotal
        have hsmall : region.r_size + region.r_pos.o ≤ ((region.r_pos.p ::
            (e.setDot region.r_pos).below).map fun p => (e.line p).wllength + 1).sum := by
          omega
        have hle := reglinesLoop_le hs hl (region.r_size + region.r_pos.o).toNat hsmall
        rw [List.headD_cons, List.length_cons] at hle
        dsimp only
        split <;> omega

/-! ## What a command leaves -/

/-- The lines above the first one that a command on several lines works on. -/
def Ed.linesAbove (f : Bool) (n : Int) (e : Ed) : List (List UChar) :=
  (e.scope f n).1.above.map e.chars

/-- The lines that it works on. -/
def Ed.linesWorked (f : Bool) (n : Int) (e : Ed) : List (List UChar) :=
  ((e.scope f n).1.dot.p :: (e.scope f n).1.below.take ((e.scope f n).2.toNat - 1)).map e.chars

/-- The lines below them. -/
def Ed.linesBelow (f : Bool) (n : Int) (e : Ed) : List (List UChar) :=
  ((e.scope f n).1.below.drop ((e.scope f n).2.toNat - 1)).map e.chars

/-- The command succeeds, and leaves these lines of the ones that it works on. -/
def Leaves (f : Bool) (n : Int) (e : Ed) (result : Option (Ed × Bool)) (ls : List (List UChar)) :
    Prop :=
  ∃ e', result = some (e', true) ∧
    e'.lines.map e'.chars = e.linesAbove f n ++ ls ++ e.linesBelow f n

/-- A command on several lines finds them: it starts on a line, and works on lines that are
there. -/
structure Scoped (f : Bool) (n : Int) (e : Ed) : Prop where
  sound : Sound e
  writable : e.bfro = false
  dot : Within e e.dot
  starts : (e.scope f n).1.dot.p ∈ e.lines
  count : f = true → 0 < n ∧ n ≤ e.below.length + 1
  region : f = false → Linked e ∧ Within e e.curwp.w_mark

/-- Where the command starts, and how many lines there are. -/
theorem Scoped.covers (h : Scoped f n e) :
    ∃ pos, (e.scope f n).1 = e.setDot pos ∧ pos.o ≤ (e.chars pos.p).length ∧ 0 < (e.scope f n).2 ∧
      (e.scope f n).2 ≤ (e.setDot pos).below.length + 1 := by
  have hstarts := h.starts
  cases f with
  | true =>
      have hmem : e.dot.p ∈ e.lines := hstarts
      obtain ⟨hpos, hle⟩ := h.count rfl
      refine ⟨e.dot, rfl, ?_, hpos, hle⟩
      rw [← wllength_eq e _ (h.sound.inline _ hmem)]
      exact h.dot.2
  | false =>
      obtain ⟨hlinked, hmark⟩ := h.region rfl
      obtain ⟨pos, heq, hwithin, hpos, hle⟩ := reglines_covers h.sound hlinked h.dot hmark
      have hmem : pos.p ∈ e.lines := by
        change (reglines e).1.dot.p ∈ e.lines at hstarts
        rw [heq] at hstarts
        exact hstarts
      refine ⟨pos, heq, ?_, hpos, hle hmem⟩
      rw [← wllength_eq e _ (h.sound.inline _ hmem)]
      exact hwithin.2

/-- **What a command on several lines leaves**: each line as it turns it. -/
theorem lineCommand_turns (tabsize : Nat) {turn : Nat → List UChar → List UChar × Nat} {line : Ed → Option Ed}
    (hturn : Turns turn line) (kept : Bool) (goal : Nat) (h : Scoped f n e) :
    Leaves f n e (lineCommand tabsize line kept goal f n e)
      (turned tabsize turn kept goal (e.scope f n).1.dot.o (e.linesWorked f n)) := by
  obtain ⟨pos, heq, ho, hpos, hle⟩ := h.covers
  have hmem : pos.p ∈ e.lines := by
    have hstarts := h.starts
    rw [heq] at hstarts
    exact hstarts
  have hl : e.lines = (e.setDot pos).above ++ pos.p :: (e.setDot pos).below :=
    (h.sound.setDot pos).lines_eq hmem
  generalize hcount : (e.scope f n).2 = count at hpos hle
  obtain ⟨k, rfl⟩ : ∃ k : Nat, count = k + 1 := ⟨(count - 1).toNat, by omega⟩
  have hk : ((e.setDot pos).below.take k).length = k := by
    rw [List.length_take]
    omega
  have hsplit : e.lines = (e.setDot pos).above ++
      pos.p :: ((e.setDot pos).below.take k ++ (e.setDot pos).below.drop k) := by
    rw [List.take_append_drop]
    exact hl
  obtain ⟨e', goal', hrun, htexts⟩ := overLines_turns tabsize goal
    hturn kept (o := pos.o) (h.sound.setDot pos) h.writable hsplit rfl ho
  rw [hk] at hrun
  have hscope : e.scope f n = (e.setDot pos, (k : Int) + 1) := Prod.ext heq hcount
  refine ⟨(e'.setDot ⟨e'.dot.p, 0⟩).lchange, ?_, ?_⟩
  · have hreadonly : e.checkreadonly = true := by
      rw [Ed.checkreadonly, h.writable]
      rfl
    unfold lineCommand
    rw [hreadonly, hscope]
    dsimp only
    have hforward : decide ((k : Int) + 1 > 0) = true := decide_eq_true (by omega)
    have habs : ((k : Int) + 1).natAbs = k + 1 := by omega
    rw [hforward, habs, hrun]
    rfl
  · have hto : ((k : Int) + 1).toNat - 1 = k := by omega
    rw [Ed.linesAbove, Ed.linesWorked, Ed.linesBelow, hscope]
    dsimp only
    rw [hto]
    exact htexts

end Emacs
