import Zzdwm.Emacs.TextUndo
import Zzdwm.Lib.Reinsertion

/-!
# Killing lines (`random.c`)

`killline` deletes with `kflag` set, so that what it deletes goes into the kill
buffer too.  With a count of zero or less it moves the cursor back before it
deletes, and saves no record of that; the record of its first deletion has the
position at which the command started, which is where `undo` puts the text back.

* `killline` — the three forms of the source;
* `Ed.killtext` — what it goes for;
* `ldeleteKill_spec` — **the deletion**, the kill buffer and the records;
* `killline_undo_iff` — when undoing a kill restores the text.
-/

namespace Emacs

open Journal (Zipper row col)

/-! ## The code -/

/-- What a round of the loop of `ldelete` gives to `kinsert`. -/
def killed (n : Nat) (e : Ed) : List Byte :=
  let l := e.line e.dot.p
  let cp1 := l.l_text.drop (uoffset l.l_text e.dot.o)
  let all := unslen cp1
  let chars := if all > n then n else all
  let bytes := if all > n then unblen cp1 n else cp1.length
  if chars = 0 then [newline] else cp1.take bytes

/-- The loop of `ldelete` with `kflag` set. -/
def ldeleteKillLoop : Nat → Nat → Ed → List Byte → Ed × List Byte × Bool
  | _, 0, e, kbuf => (e, kbuf, true)
  | 0, _ + 1, e, kbuf => (e, kbuf, true)
  | f + 1, n + 1, e, kbuf =>
      if e.dot.p = e.b_linep then (e, kbuf, false)
      else
        let (e', chars) := ldeleteStep (n + 1) e
        ldeleteKillLoop f (n + 1 - chars) e' (kbuf ++ killed (n + 1) e)

/-- `ldelete`, with `kflag` being `TRUE`. -/
def ldeleteKill (n : Int) (e : Ed) (kbuf : List Byte) : Ed × List Byte × Bool :=
  if n < 0 then (e, kbuf, false)
  else if !e.checkreadonly then (e, kbuf, false)
  else ldeleteKillLoop n.toNat n.toNat e kbuf

/-- `kdelete`, which keeps the kill buffer if the last command was a kill. -/
def kdelete (lastkill : Bool) (kbuf : List Byte) : List Byte := if lastkill then kbuf else []

/-- The loop of `killline` over the lines below the cursor; `none` is the return at the
end of the buffer. -/
def killForw (e : Ed) : Nat → LineId → Nat → Option Nat
  | 0, _, chunk => some chunk
  | n + 1, nextp, chunk =>
      if nextp = e.b_linep then none
      else killForw e n (e.lforw nextp) (chunk + (e.line nextp).wllength + 1)

/-- The loop of `killline` over the lines above the cursor. -/
def killBack : Nat → Nat → Ed → Ed × Nat
  | 0, chunk, e => (e, chunk)
  | n + 1, chunk, e =>
      if e.dot.p = e.firstline then (e, chunk)
      else
        let p := e.lback e.dot.p
        killBack n (chunk + (e.line p).wllength + 1) (e.setDot { e.dot with p := p })

/-- `killline`. -/
def killline (lastkill f : Bool) (n : Int) (e : Ed) (kbuf : List Byte) : Ed × List Byte × Bool :=
  let kbuf := kdelete lastkill kbuf
  let rest := (e.line e.dot.p).wllength - e.dot.o
  if f = false then
    let chunk := if rest = 0 then 1 else rest
    ldeleteKill chunk e kbuf
  else if n > 0 then
    match killForw e (n.toNat - 1) (e.lforw e.dot.p) (rest + 1) with
    | some chunk => ldeleteKill chunk e kbuf
    | none => (e, kbuf, false)
  else
    let (e, chunk) := killBack (-n).toNat e.dot.o (e.setDot { e.dot with o := 0 })
    ldeleteKill chunk e kbuf

/-- The command `kill-line`. -/
def killcommand (lastkill f : Bool) (n : Int) (e : Ed) (kbuf : List Byte) : Ed × List Byte :=
  let r := killline lastkill f n e.startsaveundo kbuf
  (r.1.endsaveundo, r.2.1)

/-! ## What a kill is about -/

/-- The text from the cursor over `n` newlines, if there are so many. -/
def Ed.forward (n : Nat) (e : Ed) : List UChar :=
  if e.dot.p = e.b_linep ∨ n > e.below.length + 1 then []
  else e.rest ++ nl :: (e.below.take (n - 1)).flatMap e.row

/-- The last `n` lines above the cursor, and the text in front of it on its line. -/
def Ed.backward (n : Nat) (e : Ed) : List UChar :=
  (e.above.drop (e.above.length - n)).flatMap e.row ++ (e.chars e.dot.p).take e.dot.o

/-- The text that `killline` goes for. -/
def Ed.killtext (f : Bool) (n : Int) (e : Ed) : List UChar :=
  if f = false then (if e.rest = [] then e.after.take 1 else e.rest)
  else if n > 0 then e.forward n.toNat
  else e.backward (-n).toNat

/-- From `e` to `e'` some text was removed, and added to the kill buffer `kept`. -/
def Removes (e e' : Ed) (kept kbuf : List Byte) : Prop :=
  ∃ a d b, e.symbols = a ++ d ++ b ∧ e'.symbols = a ++ b ∧ kbuf = kept ++ d.flatten

/-- When a kill is undone as it should be.  Where there is nothing to kill `undo` undoes
an earlier command.  A kill forward must not go for the newline that ends the buffer.
Back in its place comes a kill backward only if it was a part of one line and less than
that follows on this line, or if a copy of it follows. -/
def KillUndone (f : Bool) (n : Int) (e : Ed) : Prop :=
  e.bfro = true ∨
    if e.killtext f n = [] then (undo e.startsaveundo).1.text = e.text
    else if f = false ∨ n > 0 then e.killtext f n ≠ e.after
    else nl ∉ e.killtext f n ∧ e.rest.length < (e.killtext f n).length ∨
      e.killtext f n <+: e.after ∧ e.killtext f n ≠ e.after

variable {e e' : Ed} {z : Zipper UChar} {p : LineId} {as bs : List LineId}

/-! ## The deletion -/

theorem killed_eq (h : Shows e z) {n : Nat} (hn : 0 < n) :
    killed n e = (e.deleted n).flatten := by
  obtain ⟨hzero, -, hwords, -⟩ := rest_cut h hn
  unfold killed
  dsimp only at hzero hwords ⊢
  by_cases hnil : e.rest = []
  · have hdel : e.deleted n = [nl] := if_pos hnil
    rw [if_pos (hzero.mpr hnil), hdel]
    rfl
  · rw [if_neg fun hz => hnil (hzero.mp hz), hwords hnil]

/-- The kill buffer changes nothing about the deletion. -/
theorem ldeleteKillLoop_fst (f n : Nat) (e : Ed) (kbuf : List Byte) :
    (ldeleteKillLoop f n e kbuf).1 = (ldeleteLoop f n e).1 := by
  induction f generalizing n e kbuf with
  | zero => cases n <;> rfl
  | succ f ih =>
    cases n with
    | zero => rfl
    | succ n =>
      rw [ldeleteKillLoop, ldeleteLoop]
      split
      · rfl
      · exact ih _ _ _

/-- The loop of `ldelete` kills what it goes for. -/
theorem ldeleteKillLoop_kbuf (f n : Nat) (h : Shows e z) (hf : n ≤ f) (hn : n ≤ z.right.length)
    (kbuf : List Byte) :
    (ldeleteKillLoop f n e kbuf).2.1 = kbuf ++ (z.right.take n).flatten := by
  induction f generalizing n e z kbuf with
  | zero =>
    obtain rfl : n = 0 := Nat.le_zero.mp hf
    rw [ldeleteKillLoop, List.take_zero, List.flatten_nil, List.append_nil]
  | succ f ih =>
    cases n with
    | zero => rw [ldeleteKillLoop, List.take_zero, List.flatten_nil, List.append_nil]
    | succ n =>
      obtain ⟨hshows, hchars⟩ := ldeleteStep_shows (n := n + 1) h (by omega)
      obtain ⟨hpos, hle⟩ := deleted_pos e (n := n + 1) (by omega)
      obtain ⟨htake, hlen⟩ := take_delete (deleted_eq h (n + 1)) hle hn
      rw [ldeleteKillLoop, if_neg h.ne_header, killed_eq h (Nat.succ_pos n)]
      generalize e.deleted (n + 1) = d at *
      generalize ldeleteStep (n + 1) e = r at hshows hchars ⊢
      obtain ⟨e', chars⟩ := r
      dsimp only at hshows hchars ⊢
      subst hchars
      rw [ih (n + 1 - d.length) hshows (by omega) hlen, ← htake, List.flatten_append,
        List.append_assoc]

/-- **A kill** of the text `d` that follows the cursor: it is deleted, up to the last
newline, it is in the kill buffer, and its records start where the command started. -/
theorem ldeleteKill_spec {st : UNDOSTACK} {pos : Nat × Nat} {d : List UChar} (h : Writable e z)
    (hlog : Logged st pos [] e) (hd : d = z.right.take d.length) (hle : d.length ≤ z.right.length)
    (kbuf : List Byte) :
    Writable (ldeleteKill d.length e kbuf).1 (z.delete d.length) ∧
      (ldeleteKill d.length e kbuf).2.1 = kbuf ++ d.flatten ∧
      ∃ vss : List (List UChar), vss.flatten = d ∧ [] ∉ vss ∧
        Logged st pos (vss.map deletion) (ldeleteKill d.length e kbuf).1 := by
  have hwrite : (!e.checkreadonly) = false := by simp [Ed.checkreadonly, h.bfro]
  have hkill : ldeleteKill d.length e kbuf = ldeleteKillLoop d.length d.length e kbuf := by
    unfold ldeleteKill
    rw [if_neg (by omega), hwrite, if_neg Bool.false_ne_true, Int.toNat_natCast]
  rw [hkill, ldeleteKillLoop_fst, ldeleteKillLoop_kbuf _ _ h.shows_ (Nat.le_refl _) hle, ← hd]
  obtain ⟨vss, hflat, hnil, hlast⟩ := ldeleteLoop_logged d.length d.length h.shows_ (Nat.le_refl _)
    hle hlog
  refine ⟨⟨(ldeleteLoop_shows h.shows_ _ _ (Nat.le_refl _)).1, (ldeleteLoop_bfro ..).trans h.bfro⟩,
    rfl, vss, ?_, hnil, hlast⟩
  rw [hflat, ← hd]

/-! ## Where it deletes -/

/-- The header line is below all lines, and empty. -/
theorem Sound.on_header (h : Sound e) (hp : e.dot.p = e.b_linep) :
    e.above = e.lines ∧ e.after = [] ∧ e.rest = [] ∧ e.chars e.dot.p = [] := by
  have hchars : e.chars e.dot.p = [] := by
    rw [Ed.chars, hp, h.empty]
    rfl
  refine ⟨?_, if_pos hp, ?_, hchars⟩
  · rw [Ed.above, hp, Circular.takeWhile_ne_of_notMem h.header]
  · rw [Ed.rest, hchars, List.drop_nil]

theorem row_length (e : Ed) (p : LineId) (h : ∃ cs, Inline cs ∧ (e.line p).l_text = cs.flatten) :
    (e.line p).wllength + 1 = (e.row p).length := by
  rw [wllength_eq e p h, Ed.row, List.length_append, List.length_singleton]

/-- The loop over the lines below. -/
theorem killForw_eq (h : Sound e) (hl : e.lines = as ++ bs) (n chunk : Nat) :
    killForw e n (bs.headD e.b_linep) chunk =
      if n ≤ bs.length then some (chunk + ((bs.take n).flatMap e.row).length) else none := by
  induction n generalizing as bs chunk with
  | zero =>
    rw [killForw, if_pos (Nat.zero_le _)]
    rfl
  | succ n ih =>
    cases bs with
    | nil =>
      rw [killForw, List.headD_nil, if_pos rfl, if_neg (by simp)]
    | cons q bs =>
      have hq : q ∈ e.lines := by
        rw [hl]
        simp
      have hne : q ≠ e.b_linep := fun heq => h.header (heq ▸ hq)
      obtain ⟨has, -, -⟩ := h.around hl
      have hforw : e.lforw q = bs.headD e.b_linep := by
        rw [lforw_eq, hl, Circular.next_append has hne]
      have hlen := row_length e q (h.inline q hq)
      have hl' : e.lines = (as ++ [q]) ++ bs := by
        rw [hl]
        simp
      have hrest := ih hl' (chunk + (e.line q).wllength + 1)
      rw [killForw, List.headD_cons, if_neg hne, hforw, hrest, List.length_cons, List.take_succ_cons,
        List.flatMap_cons, List.length_append]
      by_cases hn : n ≤ bs.length
      · rw [if_pos hn, if_pos (Nat.succ_le_succ hn)]
        congr 1
        omega
      · rw [if_neg hn, if_neg fun hle => hn (Nat.le_of_succ_le_succ hle)]

theorem headD_notMem (h : Sound e) (hl : e.lines = as ++ bs) : bs.headD e.b_linep ∉ as := by
  cases bs with
  | nil =>
    rw [List.append_nil] at hl
    rw [List.headD_nil, ← hl]
    exact h.header
  | cons p bs => exact (h.around hl).1

/-- The loop over the lines above. -/
theorem killBack_eq (h : Sound e) (hl : e.lines = as ++ bs) (n chunk : Nat) :
    killBack n chunk (e.setDot ⟨bs.headD e.b_linep, 0⟩) =
      (e.setDot ⟨(as.drop (as.length - n) ++ bs).headD e.b_linep, 0⟩,
        chunk + ((as.drop (as.length - n)).flatMap e.row).length) := by
  induction n generalizing as bs chunk with
  | zero =>
    rw [killBack, Nat.sub_zero, List.drop_length]
    rfl
  | succ n ih =>
    have hfirst : (e.setDot ⟨bs.headD e.b_linep, 0⟩).firstline = e.lines.headD e.b_linep := if_pos rfl
    have hnot := headD_notMem h hl
    rcases List.eq_nil_or_concat as with rfl | ⟨as, q, rfl⟩
    · rw [killBack, hfirst, hl, List.nil_append, setDot_dot, if_pos rfl, List.drop_nil,
        List.nil_append]
      rfl
    · have hne : bs.headD e.b_linep ≠ e.lines.headD e.b_linep := by
        intro heq
        refine hnot ?_
        rw [heq, hl]
        cases as <;> simp
      have hback : (e.setDot ⟨bs.headD e.b_linep, 0⟩).lback (bs.headD e.b_linep) = q := by
        show e.lback (bs.headD e.b_linep) = q
        rw [lback_eq]
        cases bs with
        | nil =>
          rw [List.headD_nil, Circular.prev_header h.header, hl]
          simp
        | cons p bs =>
          rw [List.headD_cons] at hnot ⊢
          rw [hl, Circular.prev_append hnot]
          simp
      have hq : q ∈ e.lines := by
        rw [hl]
        simp
      have hlen := row_length e q (h.inline q hq)
      have hdrop : (as ++ [q]).drop ((as ++ [q]).length - (n + 1)) = as.drop (as.length - n) ++ [q] := by
        rw [List.length_append, List.length_singleton, Nat.add_sub_add_right,
          List.drop_append_of_le_length (Nat.sub_le _ _)]
      have hl' : e.lines = as ++ q :: bs := by
        rw [hl]
        simp
      have hrest := ih hl' (chunk + (e.line q).wllength + 1)
      rw [List.headD_cons] at hrest
      rw [List.concat_eq_append, hdrop, killBack, hfirst, setDot_dot, if_neg hne, hback]
      refine hrest.trans ?_
      rw [List.append_assoc, List.flatMap_append, List.flatMap_singleton, List.length_append]
      refine Prod.ext rfl ?_
      show chunk + (e.line q).wllength + 1 + _ = chunk + _
      omega

/-! ## A kill as a deletion -/

/-- What a command that kills the text `d` does: from the state `s`, in which the text `l`
is in front of the cursor, it deletes `d`. -/
structure Kills (lastkill f : Bool) (n : Int) (e : Ed) (kbuf : List Byte) (l d x : List UChar)
    (s : Ed) : Prop where
  writable : Writable s ⟨l, d ++ x⟩
  logged : Logged e.b_undo (e.lineno e.dot.p, e.dot.o) [] s
  text : e.symbols = l ++ (d ++ x)
  eq : killcommand lastkill f n e kbuf =
    ((ldeleteKill d.length s (kdelete lastkill kbuf)).1,
      (ldeleteKill d.length s (kdelete lastkill kbuf)).2.1)

/-- There is nothing to kill. -/
def Idles (lastkill f : Bool) (n : Int) (e : Ed) (kbuf : List Byte) : Prop :=
  killcommand lastkill f n e kbuf = (e.startsaveundo, kdelete lastkill kbuf)

section Command

variable {lastkill f : Bool} {n : Int} {kbuf : List Byte}

theorem shows_startsaveundo (h : Shows e z) : Shows e.startsaveundo z :=
  h.congr rfl rfl rfl rfl rfl

theorem ldeleteKill_header {s : Ed} (hp : s.dot.p = s.b_linep) (m : Nat) :
    ((ldeleteKill m s kbuf).1, (ldeleteKill m s kbuf).2.1) = (s, kbuf) := by
  unfold ldeleteKill
  split
  · rfl
  · split
    · rfl
    · rw [Int.toNat_natCast]
      cases m with
      | zero => rfl
      | succ m => rw [ldeleteKillLoop, if_pos hp]

/-- The loop over the lines below, with the text that it counts. -/
theorem killForw_forward (h : Sound e) (hp : e.dot.p ∈ e.lines) {n : Nat} (hn : 0 < n) :
    killForw e (n - 1) (e.lforw e.dot.p) (e.rest.length + 1) =
      if e.forward n = [] then none else some (e.forward n).length := by
  have hne : e.dot.p ≠ e.b_linep := fun heq => h.header (heq ▸ hp)
  have hl := h.lines_eq hp
  have hforw : e.lforw e.dot.p = e.below.headD e.b_linep := by
    obtain ⟨has, -, -⟩ := h.around hl
    rw [lforw_eq]
    conv_lhs => rw [hl]
    rw [Circular.next_append has hne]
  have hl' : e.lines = (e.above ++ [e.dot.p]) ++ e.below := by simpa using hl
  have hloop := killForw_eq h hl' (n - 1) (e.rest.length + 1)
  rw [hforw, hloop]
  by_cases hle : n - 1 ≤ e.below.length
  · have hforward : e.forward n = e.rest ++ nl :: (e.below.take (n - 1)).flatMap e.row :=
      if_neg fun hor => hor.elim hne (by omega)
    rw [if_pos hle, if_neg (by rw [hforward]; simp), hforward, List.length_append, List.length_cons]
    congr 1
    omega
  · have hforward : e.forward n = [] := if_pos (.inr (by omega))
    rw [if_neg hle, if_pos hforward]

/-- The text that a kill forward goes for follows the cursor. -/
theorem killtext_after (h : Sound e) (hfn : f = false ∨ n > 0) :
    ∃ x, e.after = e.killtext f n ++ x := by
  by_cases hp : e.dot.p = e.b_linep
  · obtain ⟨-, hafter, hrest, -⟩ := h.on_header hp
    have hnil : e.killtext f n = [] := by
      unfold Ed.killtext Ed.forward
      by_cases hf : f = false
      · rw [if_pos hf, if_pos hrest, hafter, List.take_nil]
      · rw [if_neg hf, if_pos (hfn.resolve_left hf), if_pos (Or.inl hp)]
    exact ⟨[], by rw [hnil, hafter]; rfl⟩
  · have hafter : e.after = e.rest ++ nl :: e.below.flatMap e.row := if_neg hp
    unfold Ed.killtext
    by_cases hf : f = false
    · rw [if_pos hf]
      split
      · exact ⟨e.after.drop 1, (List.take_append_drop 1 _).symm⟩
      · exact ⟨_, hafter⟩
    · rw [if_neg hf, if_pos (hfn.resolve_left hf)]
      unfold Ed.forward
      split
      · exact ⟨e.after, rfl⟩
      · refine ⟨(e.below.drop (n.toNat - 1)).flatMap e.row, ?_⟩
        rw [hafter, List.append_assoc, List.cons_append, ← List.flatMap_append,
          List.take_append_drop]

/-- **A kill forward** deletes at the cursor. -/
theorem killcommand_forward (lastkill : Bool) (kbuf : List Byte) (h : Sound e) (hdot : Within e e.dot) (hro : e.bfro = false)
    (hfn : f = false ∨ n > 0) :
    (e.killtext f n = [] ∧ Idles lastkill f n e kbuf) ∨
    (e.killtext f n ≠ [] ∧ e.dot.p ∈ e.lines ∧ ∃ x, e.after = e.killtext f n ++ x ∧
      Kills lastkill f n e kbuf (e.above.flatMap e.row ++ (e.chars e.dot.p).take e.dot.o)
        (e.killtext f n) x e.startsaveundo) := by
  obtain ⟨x, hx⟩ := killtext_after h hfn
  rcases hdot.1 with hp | hp
  · have hs := h.shows_here hp hdot.2
    have hne : e.dot.p ≠ e.b_linep := fun heq => h.header (heq ▸ hp)
    have hrest : (e.line e.dot.p).wllength - e.dot.o = e.rest.length := by
      rw [wllength_eq e e.dot.p (h.inline _ hp), Ed.rest, List.length_drop]
    have hkill : killcommand lastkill f n e kbuf = if e.killtext f n = [] then
        (e.startsaveundo, kdelete lastkill kbuf) else
        ((ldeleteKill (e.killtext f n).length e.startsaveundo (kdelete lastkill kbuf)).1,
          (ldeleteKill (e.killtext f n).length e.startsaveundo (kdelete lastkill kbuf)).2.1) := by
      unfold killcommand killline
      have hrest' : (e.startsaveundo.line e.startsaveundo.dot.p).wllength - e.startsaveundo.dot.o =
          e.rest.length := hrest
      by_cases hf : f = false
      · have hlen : (if e.rest.length = 0 then 1 else e.rest.length) = (e.killtext f n).length := by
          rw [Ed.killtext, if_pos hf, Ed.after, if_neg hne]
          by_cases hnil : e.rest = []
          · rw [if_pos hnil, hnil]
            rfl
          · rw [if_neg fun hlen => hnil (List.eq_nil_of_length_eq_zero hlen), if_neg hnil]
        have hpos : e.killtext f n ≠ [] := by
          refine List.length_pos_iff.mp ?_
          rw [← hlen]
          split <;> omega
        dsimp only
        rw [if_pos hf, hrest', hlen, if_neg hpos]
        rfl
      · have hn : n > 0 := hfn.resolve_left hf
        have htext : e.killtext f n = e.forward n.toNat := by
          rw [Ed.killtext, if_neg hf, if_pos hn]
        have hforw : killForw e.startsaveundo (n.toNat - 1)
            (e.startsaveundo.lforw e.startsaveundo.dot.p) (e.rest.length + 1) =
            if e.forward n.toNat = [] then none else some (e.forward n.toNat).length :=
          killForw_forward (e := e.startsaveundo) (shows_startsaveundo hs).sound hp (by omega)
        dsimp only
        rw [if_neg hf, if_pos hn, hrest', hforw, htext]
        split <;> rename_i hsplit <;> split at hsplit <;> rename_i hnil
        · cases hsplit
        · obtain rfl := Option.some.inj hsplit
          rw [if_neg hnil]
          rfl
        · rw [if_pos hnil]
          rfl
        · cases hsplit
    by_cases hnil : e.killtext f n = []
    · left
      rw [if_pos hnil] at hkill
      exact ⟨hnil, hkill⟩
    · right
      rw [if_neg hnil] at hkill
      have htext := hs.text
      rw [hx] at hs htext
      exact ⟨hnil, hp, x, hx, ⟨shows_startsaveundo hs, hro⟩, startsaveundo_logged e,
        htext.symm, hkill⟩
  · left
    obtain ⟨-, hafter, hrest, hchars⟩ := h.on_header hp
    have hnil : e.killtext f n = [] := by
      rw [hafter] at hx
      exact (List.append_eq_nil_iff.mp hx.symm).1
    refine ⟨hnil, ?_⟩
    have hdel : ∀ m : Nat, ((ldeleteKill m e.startsaveundo (kdelete lastkill kbuf)).1,
        (ldeleteKill m e.startsaveundo (kdelete lastkill kbuf)).2.1) =
        (e.startsaveundo, kdelete lastkill kbuf) := ldeleteKill_header (s := e.startsaveundo) hp
    unfold Idles killcommand killline
    dsimp only
    by_cases hf : f = false
    · rw [if_pos hf]
      exact hdel _
    · rw [if_neg hf, if_pos (hfn.resolve_left hf)]
      split
      · exact hdel _
      · rfl

/-- The cursor at the start of a line. -/
theorem Sound.shows_line (h : Sound e) (hl : e.lines = as ++ p :: bs) :
    Shows (e.setDot ⟨p, 0⟩) ⟨as.flatMap e.row, (p :: bs).flatMap e.row⟩ := by
  have hat := h.shows_at hl (Nat.zero_le (e.chars p).length)
  rw [List.take_zero, List.append_nil, List.drop_zero] at hat
  rw [List.flatMap_cons, Ed.row, List.append_assoc]
  exact hat

/-- The lines from the one of the cursor on; there are none from the header line. -/
def Ed.rows (e : Ed) : List LineId := if e.dot.p = e.b_linep then [] else e.dot.p :: e.below

theorem Sound.rows_eq (h : Sound e) (hdot : Within e e.dot) :
    e.lines = e.above ++ e.rows ∧ e.rows.headD e.b_linep = e.dot.p ∧
      (e.chars e.dot.p).take e.dot.o ++ e.after = e.rows.flatMap e.row := by
  rcases hdot.1 with hp | hp
  · have hne : e.dot.p ≠ e.b_linep := fun heq => h.header (heq ▸ hp)
    have hrows : e.rows = e.dot.p :: e.below := if_neg hne
    rw [hrows, Ed.after, if_neg hne]
    refine ⟨h.lines_eq hp, rfl, ?_⟩
    rw [← List.append_assoc, Ed.rest, List.take_append_drop, List.flatMap_cons, Ed.row,
      List.append_assoc]
    rfl
  · obtain ⟨habove, hafter, -, hchars⟩ := h.on_header hp
    have hrows : e.rows = [] := if_pos hp
    rw [hrows, habove, hafter, hchars, List.take_nil]
    exact ⟨(List.append_nil _).symm, hp.symm, rfl⟩

/-- **A kill backward** moves the cursor back before it deletes. -/
theorem killcommand_backward (lastkill : Bool) (kbuf : List Byte) (h : Sound e) (hdot : Within e e.dot) (hro : e.bfro = false)
    (hfn : ¬ (f = false ∨ n > 0)) :
    (e.killtext f n = [] ∧ Idles lastkill f n e kbuf) ∨
    (e.killtext f n ≠ [] ∧ ∃ l s, Kills lastkill f n e kbuf l (e.killtext f n) e.after s ∧
      col isBreak l = 0 ∧
      l ++ e.killtext f n = e.above.flatMap e.row ++ (e.chars e.dot.p).take e.dot.o) := by
  have htext : e.killtext f n = e.backward (-n).toNat := by
    rw [Ed.killtext, if_neg fun hf => hfn (.inl hf), if_neg fun hn => hfn (.inr hn)]
  rw [htext]
  generalize hk : (-n).toNat = k
  obtain ⟨hl, hhead, hafter⟩ := h.rows_eq hdot
  have hoff : ((e.chars e.dot.p).take e.dot.o).length = e.dot.o := by
    have hle := hdot.2
    rcases hdot.1 with hp | hp
    · rw [wllength_eq e e.dot.p (h.inline _ hp)] at hle
      rw [List.length_take, Nat.min_eq_left hle]
    · rw [hp, LINE.wllength, h.empty] at hle
      rw [(h.on_header hp).2.2.2, List.take_nil]
      exact (Nat.le_zero.mp hle).symm
  have hmove := killBack_eq h hl k e.dot.o
  rw [hhead] at hmove
  generalize hm : e.above.length - k = m at hmove
  have hback : e.backward k = (e.above.drop m).flatMap e.row ++ (e.chars e.dot.p).take e.dot.o := by
    rw [Ed.backward, hm]
  have hlen : (e.backward k).length = e.dot.o + ((e.above.drop m).flatMap e.row).length := by
    rw [hback, List.length_append, hoff, Nat.add_comm]
  have hkill : killcommand lastkill f n e kbuf =
      ((ldeleteKill (e.backward k).length (e.startsaveundo.setDot
        ⟨(e.above.drop m ++ e.rows).headD e.b_linep, 0⟩) (kdelete lastkill kbuf)).1,
      (ldeleteKill (e.backward k).length (e.startsaveundo.setDot
        ⟨(e.above.drop m ++ e.rows).headD e.b_linep, 0⟩) (kdelete lastkill kbuf)).2.1) := by
    have hmove' : killBack k e.startsaveundo.dot.o
        (e.startsaveundo.setDot { e.startsaveundo.dot with o := 0 }) =
        (e.startsaveundo.setDot ⟨(e.above.drop m ++ e.rows).headD e.b_linep, 0⟩,
          (e.backward k).length) := by
      have hs : Sound e.startsaveundo := ⟨h.nodup, h.header, h.fresh, h.inline, h.empty⟩
      have hloop := killBack_eq hs (e := e.startsaveundo) hl k e.dot.o
      rw [hm] at hloop
      rw [hlen]
      refine Eq.trans ?_ hloop
      show killBack k e.dot.o (e.startsaveundo.setDot ⟨e.dot.p, 0⟩) =
        killBack k e.dot.o (e.startsaveundo.setDot ⟨e.rows.headD e.b_linep, 0⟩)
      rw [hhead]
    unfold killcommand killline
    dsimp only
    rw [if_neg fun hf => hfn (.inl hf), if_neg fun hn => hfn (.inr hn), hk, hmove']
    rfl
  by_cases hnil : e.backward k = []
  · left
    refine ⟨hnil, ?_⟩
    have hzero : e.dot.o = 0 := by
      have hz := hlen
      rw [hnil, List.length_nil] at hz
      omega
    have hdrop : e.above.drop m = [] := by
      rw [hback] at hnil
      have hflat := (List.append_eq_nil_iff.mp hnil).1
      cases hd : e.above.drop m with
      | nil => rfl
      | cons q qs =>
        rw [hd, List.flatMap_cons, Ed.row] at hflat
        simp at hflat
    have hsame : e.startsaveundo.setDot ⟨(e.above.drop m ++ e.rows).headD e.b_linep, 0⟩ =
        e.startsaveundo := by
      rw [hdrop, List.nil_append, hhead, ← hzero]
      rfl
    rw [hsame, hnil] at hkill
    rw [Idles, hkill]
    unfold ldeleteKill
    rw [List.length_nil, if_neg (by omega)]
    split <;> rfl
  · right
    have hne : e.above.drop m ++ e.rows ≠ [] := by
      intro hempty
      obtain ⟨hd, hrows⟩ := List.append_eq_nil_iff.mp hempty
      rw [hrows, List.flatMap_nil] at hafter
      rw [hback, hd, (List.append_eq_nil_iff.mp hafter).1] at hnil
      exact hnil rfl
    obtain ⟨q, qs, hq⟩ := List.exists_cons_of_ne_nil hne
    have hl' : e.startsaveundo.lines = e.above.take m ++ q :: qs := by
      show e.lines = _
      rw [← hq, ← List.append_assoc, List.take_append_drop]
      exact hl
    have hs : Sound e.startsaveundo := ⟨h.nodup, h.header, h.fresh, h.inline, h.empty⟩
    have hshows := hs.shows_line hl'
    have hright : (q :: qs).flatMap e.startsaveundo.row = e.backward k ++ e.after := by
      show (q :: qs).flatMap e.row = _
      rw [← hq, List.flatMap_append, ← hafter, hback, List.append_assoc]
    rw [hq, List.headD_cons] at hkill
    rw [hright] at hshows
    refine ⟨hnil, (e.above.take m).flatMap e.row, _, ⟨⟨hshows, hro⟩, ?_, ?_, hkill⟩, ?_, ?_⟩
    · exact (startsaveundo_logged e).congr rfl rfl rfl
    · exact hshows.text.symm
    · exact hshows.position.2.symm
    · rw [hback, ← List.append_assoc, ← List.flatMap_append, List.take_append_drop]

/-! ## After the kill -/

theorem Sound.whole (h : Sound e) : AllUChars e.symbols := by
  intro c hc
  obtain ⟨p, hp, hmem⟩ := List.mem_flatMap.mp hc
  rcases List.mem_append.mp hmem with hmem | hmem
  · exact (h.chars hp).1.whole c hmem
  · rw [List.mem_singleton.mp hmem]
    decide

variable {l d x : List UChar} {s : Ed}

/-- What is there after a kill. -/
theorem Kills.after (h : Kills lastkill f n e kbuf l d x s) (hd : d ≠ []) :
    ∃ w wss flag gs, (w :: wss).flatten = d ∧ w ≠ [] ∧
      Writable (killcommand lastkill f n e kbuf).1 (Zipper.delete d.length ⟨l, d ++ x⟩) ∧
      (killcommand lastkill f n e kbuf).2 = kdelete lastkill kbuf ++ d.flatten ∧
      (killcommand lastkill f n e kbuf).1.b_undo.undolist =
        ⟨records (some (e.lineno e.dot.p, e.dot.o)) (deletion w :: wss.map deletion), flag⟩ :: gs := by
  obtain ⟨hwrite, hkbuf, vss, hflat, hnil, hlog⟩ := ldeleteKill_spec h.writable h.logged
    (List.take_left).symm (by rw [List.length_append]; omega) (kdelete lastkill kbuf)
  have hne : vss ≠ [] := by
    rintro rfl
    exact hd hflat.symm
  obtain ⟨w, wss, rfl⟩ := List.exists_cons_of_ne_nil hne
  obtain ⟨-, flag, gs, hgs⟩ := hlog.some (by simp)
  rw [h.eq]
  exact ⟨w, wss, flag, gs, hflat, fun heq => hnil (heq ▸ List.mem_cons_self), hwrite, hkbuf, hgs⟩

/-- **A kill at the end of the buffer** goes for a newline that stays: this newline is in
the kill buffer, and was not removed. -/
theorem Kills.at_end (hs : Sound e) (h : Kills lastkill f n e kbuf l d [] s) (hd : d ≠ []) :
    ¬ Removes e (killcommand lastkill f n e kbuf).1 (kdelete lastkill kbuf)
      (killcommand lastkill f n e kbuf).2 := by
  obtain ⟨-, -, -, -, -, -, hwrite, hkbuf, -⟩ := h.after hd
  rintro ⟨a, d', b, htext, htext', hkbuf'⟩
  have hsame : d.flatten = d'.flatten := List.append_cancel_left (hkbuf.symm.trans hkbuf')
  have hwhole := hs.whole
  have hwd : AllUChars d := fun c hc => hwhole c (by
    rw [h.text]
    simp [hc])
  have hwd' : AllUChars d' := fun c hc => hwhole c (by
    rw [htext]
    simp [hc])
  have heq : d = d' := by
    have hread := congrArg uchars hsame
    rwa [uchars_flatten hwd, uchars_flatten hwd'] at hread
  have hlen := congrArg List.length htext
  have hlen' := congrArg List.length htext'
  have hold := congrArg List.length h.text
  have hnew : e.symbols.length = (killcommand lastkill f n e kbuf).1.symbols.length + (d.length - 1) := by
    rw [← hwrite.shows_.text, h.text]
    simp only [Zipper.delete, Zipper.text, List.append_nil, List.length_append, List.length_drop]
    omega
  have hpos := List.length_pos_iff.mpr hd
  simp only [List.length_append] at hlen hlen'
  rw [← heq] at hlen
  omega

/-- **A kill before the end of the buffer** removes what it puts into the kill buffer. -/
theorem Kills.removes (h : Kills lastkill f n e kbuf l d x s) (hd : d ≠ []) (hx : x ≠ []) :
    Removes e (killcommand lastkill f n e kbuf).1 (kdelete lastkill kbuf)
      (killcommand lastkill f n e kbuf).2 := by
  obtain ⟨-, -, -, -, -, -, hwrite, hkbuf, -⟩ := h.after hd
  refine ⟨l, d, x, ?_, ?_, hkbuf⟩
  · rw [h.text, List.append_assoc]
  · have hlt : d.length < (d ++ x).length := by
      have := List.length_pos_iff.mpr hx
      rw [List.length_append]
      omega
    rw [← hwrite.shows_.text, Zipper.delete_of_lt hlt, List.drop_left]
    rfl

/-- The text ends with a newline. -/
theorem symbols_last {a y : List UChar} (htext : e.symbols = a ++ y) (hy : y ≠ []) :
    y.getLast? = some nl := by
  have hlast : ∀ ls : List LineId, ls ≠ [] → (ls.flatMap e.row).getLast? = some nl := by
    intro ls hls
    obtain ⟨ls, q, rfl⟩ := (List.eq_nil_or_concat ls).resolve_left hls
    rw [List.concat_eq_append, List.flatMap_append, List.flatMap_singleton, Ed.row,
      ← List.append_assoc, List.getLast?_concat]
  have hne : e.lines ≠ [] := by
    intro hnil
    rw [Ed.symbols, hnil, List.flatMap_nil] at htext
    exact hy (List.append_eq_nil_iff.mp htext.symm).2
  have hend := hlast e.lines hne
  rw [← Ed.symbols, htext, List.getLast?_append_of_ne_nil _ hy] at hend
  exact hend

theorem row_last {a y : List UChar} (htext : e.symbols = a ++ y) (hy : y ≠ []) :
    0 < row isBreak y :=
  List.countP_pos_iff.mpr ⟨nl, List.mem_of_getLast? (symbols_last htext hy), rfl⟩

/-- The words of a kill are whole characters. -/
theorem Kills.words (hs : Sound e) (h : Kills lastkill f n e kbuf l d x s)
    {vss : List (List UChar)} (hflat : vss.flatten = d) : ∀ a ∈ vss.map deletion, WholeAct a := by
  intro a ha
  obtain ⟨v, hv, rfl⟩ := List.mem_map.mp ha
  intro c hc
  refine hs.whole c ?_
  rw [h.text, ← hflat]
  have hmem : c ∈ vss.flatten := List.mem_flatten.mpr ⟨v, hv, hc⟩
  simp only [List.mem_append]
  exact .inr (.inl hmem)

/-- **Undoing a kill forward** restores the text. -/
theorem Kills.undo_forward (hs : Sound e) (h : Kills lastkill f n e kbuf l d x s) (hd : d ≠ [])
    (hx : x ≠ []) (hpos : e.lineno e.dot.p = row isBreak l ∧ e.dot.o = col isBreak l) :
    (undo (killcommand lastkill f n e kbuf).1).1.text = e.text := by
  obtain ⟨w, wss, flag, gs, hflat, -, hwrite, -, hgroup⟩ := h.after hd
  have hlt : d.length < (d ++ x).length := by
    have := List.length_pos_iff.mpr hx
    rw [List.length_append]
    omega
  rw [Zipper.delete_of_lt hlt, List.drop_left] at hwrite
  rw [hpos.1, hpos.2] at hgroup
  have hundo := undo_records_at (h.words hs hflat) hwrite.shows_.sound hwrite.bfro
    hwrite.shows_.text.symm hx hgroup
  rw [← List.map_cons, undo_deletions] at hundo
  refine (text_eq_iff hundo.sound hs).mpr ?_
  rw [← hundo.text, h.text, hflat, Zipper.insert, Zipper.text, List.append_assoc]

/-- **Undoing a kill backward** puts the text back at its old end. -/
theorem Kills.undo_backward (hs : Sound e) (h : Kills lastkill f n e kbuf l d x s) (hd : d ≠ [])
    (hx : x ≠ []) (hcol : col isBreak l = 0)
    (hpos : e.lineno e.dot.p = row isBreak (l ++ d) ∧ e.dot.o = col isBreak (l ++ d))
    (hlast : ∀ y, x = d ++ y → y ≠ [] → 0 < row isBreak y) (hrow : 0 < row isBreak x) :
    (undo (killcommand lastkill f n e kbuf).1).1.text = e.text ↔
      (row isBreak d = 0 ∧ Journal.ahead isBreak x < d.length) ∨ ∃ y, y ≠ [] ∧ x = d ++ y := by
  obtain ⟨w, wss, flag, gs, hflat, hw, hwrite, -, hgroup⟩ := h.after hd
  have hlt : d.length < (d ++ x).length := by
    have := List.length_pos_iff.mpr hx
    rw [List.length_append]
    omega
  rw [Zipper.delete_of_lt hlt, List.drop_left] at hwrite
  rw [hpos.1, hpos.2] at hgroup
  rcases undo_records (h.words hs hflat) hwrite hgroup with
    ⟨P, Q, htext, hQ, hP, hPcol, hundo⟩ | ⟨hrows, z', hundo, htext⟩
  · rw [← List.map_cons, undo_deletions] at hundo
    have hput := Journal.putBack_iff hcol htext.symm hQ hP hPcol
    rw [← hput, text_eq_iff hundo.sound hs, ← hundo.text, h.text, hflat, Zipper.insert, Zipper.text,
      ← List.append_assoc l]
  · rw [undo_deletions] at hundo
    constructor
    · intro heq
      have hsym := (text_eq_iff hundo.sound hs).mp heq
      have hlen := congrArg List.length hsym
      have hzip : (z'.insert wss.flatten).text.length = z'.text.length + wss.flatten.length := by
        simp only [Zipper.insert, Zipper.text, List.length_append]
        omega
      rw [← hundo.text, hzip, htext, h.text, ← hflat] at hlen
      have hwpos := List.length_pos_iff.mpr hw
      simp only [Zipper.text, List.length_append, List.flatten_cons] at hlen
      omega
    · intro hor
      rw [Zipper.text, Journal.row_append, Journal.row_append] at hrows
      dsimp only at hrows
      rcases hor with ⟨hzero, -⟩ | ⟨y, hy, hxy⟩
      · omega
      · have hlasty := hlast y hxy hy
        rw [hxy, Journal.row_append] at hrows
        omega

/-! ## Read-only buffers -/

theorem goundo_text_eq (up : UNDO) (e : Ed) : (goundo up e).1.text = e.text := by
  have hline : ∀ m, (gotoline m e).1.text = e.text := by
    intro m
    unfold gotoline
    split
    · rfl
    · split <;> rfl
  unfold goundo
  split
  · rename_i l o _
    have hgo := hline (l + 1)
    generalize gotoline (l + 1) e = r at hgo ⊢
    obtain ⟨e', status⟩ := r
    dsimp only at hgo ⊢
    split <;> exact hgo
  · rfl

theorem insertwithnl_readonly (hro : e.bfro = true) (t : List Byte) : (insertwithnl t e).1 = e := by
  have hwrite : (!e.checkreadonly) = true := by simp [Ed.checkreadonly, hro]
  have hins : ∀ a, linsert a e = (e, false) := fun a => by
    unfold linsert
    rw [if_pos hwrite]
  have hline : lnewline e = (e, false) := by
    unfold lnewline
    rw [if_pos hwrite]
  unfold insertwithnl
  rw [insertwithnlLoop]
  split
  · rfl
  · dsimp only
    split
    · rw [hins]
    · by_cases hempty : t.takeWhile (· ≠ newline) = []
      · rw [if_pos hempty]
        dsimp only
        rw [Bool.not_true, if_neg Bool.false_ne_true, hline]
        rfl
      · rw [if_neg hempty, hins]
        rfl

theorem ldelete_readonly (hro : e.bfro = true) (m : Int) : (ldelete m e).1 = e := by
  have hwrite : (!e.checkreadonly) = true := by simp [Ed.checkreadonly, hro]
  unfold ldelete
  rw [if_pos hwrite]
  split <;> rfl

/-- Undoing changes no text that is read-only. -/
theorem undo_readonly (hro : e.bfro = true) : (undo e).1.text = e.text := by
  have hstep : ∀ (up : UNDO) (e : Ed), e.bfro = true → (undostep up e).1.text = e.text := by
    intro up e hro
    have hgo := goundo_text_eq up e
    have hro' := (goundo_bfro up e).trans hro
    unfold undostep
    generalize goundo up e = r at hgo hro' ⊢
    obtain ⟨e', status⟩ := r
    dsimp only at hgo hro' ⊢
    split
    · exact hgo
    · split
      · exact hgo
      · rw [insertwithnl_readonly hro']
        exact hgo
      · rw [ldelete_readonly hro']
        exact hgo
  have hplay : ∀ (ups : List UNDO) (e : Ed), e.bfro = true →
      (ups.foldl (fun e up => (undostep up e).1) e).text = e.text ∧
        (ups.foldl (fun e up => (undostep up e).1) e).bfro = true := by
    intro ups
    induction ups with
    | nil => exact fun e hro => ⟨rfl, hro⟩
    | cons up ups ih =>
      intro e hro
      obtain ⟨htext, hro'⟩ := ih _ ((undostep_bfro up e).trans hro)
      exact ⟨htext.trans (hstep up e hro), hro'⟩
  have hback : ∀ (rev later : List UNDO) (e : Ed), e.bfro = true →
      (Journal.playBack (fun up : UNDO => up.pos.isSome) (fun up e => (undostep up e).1)
        rev later e).text = e.text := by
    intro rev
    induction rev with
    | nil => exact fun later e hro => (hplay later e hro).1
    | cons up rev ih =>
      intro later e hro
      rw [Journal.playBack]
      split
      · obtain ⟨htext, hro'⟩ := hplay (up :: later) e hro
        exact (ih [] _ hro').trans htext
      · exact ih _ _ hro
  unfold undo
  split
  · rfl
  · rename_i g gs _
    have hloop := undoLoop_fst g.undos.reverse [] ({ e with undoing := true }, true)
    have htext := hback g.undos.reverse [] { e with undoing := true } hro
    rw [← hloop] at htext
    generalize undoLoop g.undos.reverse [] ({ e with undoing := true }, true) = r at htext ⊢
    exact htext

/-- A kill in a buffer that is read-only changes nothing but the cursor. -/
theorem killcommand_readonly (lastkill f : Bool) (n : Int) (kbuf : List Byte) (hro : e.bfro = true) :
    ∃ pos, killcommand lastkill f n e kbuf = (e.startsaveundo.setDot pos, kdelete lastkill kbuf) := by
  have hkill : ∀ (m : Nat) (e : Ed) (kbuf : List Byte), e.bfro = true →
      (ldeleteKill m e kbuf).1 = e ∧ (ldeleteKill m e kbuf).2.1 = kbuf := by
    intro m e kbuf hro
    have hwrite : (!e.checkreadonly) = true := by simp [Ed.checkreadonly, hro]
    unfold ldeleteKill
    rw [if_pos hwrite]
    split <;> exact ⟨rfl, rfl⟩
  have hback : ∀ (k chunk : Nat) (pos : POS),
      ∃ pos', (killBack k chunk (e.startsaveundo.setDot pos)).1 = e.startsaveundo.setDot pos' := by
    intro k
    induction k with
    | zero => exact fun chunk pos => ⟨pos, rfl⟩
    | succ k ih =>
      intro chunk pos
      rw [killBack]
      split
      · exact ⟨pos, rfl⟩
      · exact ih _ _
  have hstay : e.startsaveundo.setDot e.dot = e.startsaveundo := rfl
  have hro' : e.startsaveundo.bfro = true := hro
  unfold killcommand killline
  dsimp only
  by_cases hf : f = false
  · refine ⟨e.dot, ?_⟩
    rw [if_pos hf, hstay]
    exact Prod.ext (hkill _ _ _ hro').1 (hkill _ _ _ hro').2
  · rw [if_neg hf]
    by_cases hn : n > 0
    · refine ⟨e.dot, ?_⟩
      rw [if_pos hn, hstay]
      split
      · exact Prod.ext (hkill _ _ _ hro').1 (hkill _ _ _ hro').2
      · rfl
    · rw [if_neg hn]
      obtain ⟨pos, hpos⟩ := hback (-n).toNat e.startsaveundo.dot.o { e.startsaveundo.dot with o := 0 }
      refine ⟨pos, ?_⟩
      generalize killBack (-n).toNat e.startsaveundo.dot.o
        (e.startsaveundo.setDot { e.startsaveundo.dot with o := 0 }) = r at hpos ⊢
      obtain ⟨e', chunk⟩ := r
      dsimp only at hpos ⊢
      subst hpos
      have hro'' : (e.startsaveundo.setDot pos).bfro = true := hro
      exact Prod.ext (hkill _ _ _ hro'').1 (hkill _ _ _ hro'').2

end Command

/-! ## The result -/

section Result

variable {lastkill f : Bool} {n : Int} {kbuf : List Byte} {l : List UChar} {s : Ed}

/-- Within a line there is no newline. -/
theorem rest_row (h : Sound e) (hdot : Within e e.dot) : row isBreak e.rest = 0 := by
  refine Journal.row_eq_zero fun a ha => ?_
  rcases hdot.1 with hp | hp
  · have hne : a ≠ nl := fun heq => ((h.chars hp).1.drop _).noBreak (heq ▸ ha)
    simpa [isBreak] using hne
  · rw [(h.on_header hp).2.2.1] at ha
    exact absurd ha List.not_mem_nil

theorem row_eq_zero_iff (cs : List UChar) : row isBreak cs = 0 ↔ nl ∉ cs := by
  rw [Journal.row, List.countP_eq_zero]
  constructor
  · intro hall hmem
    exact absurd (hall nl hmem) (by simp [isBreak])
  · intro hnl a ha
    have hne : a ≠ nl := fun heq => hnl (heq ▸ ha)
    simpa [isBreak] using hne

/-- **A kill backward** from a line. -/
theorem Kills.backward_iff (h : Sound e) (hdot : Within e e.dot) (hp : e.dot.p ∈ e.lines)
    (hne : e.killtext f n ≠ []) (hkills : Kills lastkill f n e kbuf l (e.killtext f n) e.after s)
    (hcol : col isBreak l = 0)
    (hleft : l ++ e.killtext f n = e.above.flatMap e.row ++ (e.chars e.dot.p).take e.dot.o) :
    ((undo (killcommand lastkill f n e kbuf).1).1.text = e.text ∧
      Removes e (killcommand lastkill f n e kbuf).1 (kdelete lastkill kbuf)
        (killcommand lastkill f n e kbuf).2) ↔
      (nl ∉ e.killtext f n ∧ e.rest.length < (e.killtext f n).length ∨
        e.killtext f n <+: e.after ∧ e.killtext f n ≠ e.after) := by
  have hs := h.shows_here hp hdot.2
  have hrest := rest_row h hdot
  have hheader : e.dot.p ≠ e.b_linep := fun heq => h.header (heq ▸ hp)
  have hafter : e.after = e.rest ++ nl :: e.below.flatMap e.row := if_neg hheader
  have hpos := hs.position
  dsimp only at hpos
  rw [← hleft] at hpos
  have hrows : 0 < row isBreak e.after := by
    rw [hafter, Journal.row_break rfl]
    omega
  have hahead : Journal.ahead isBreak e.after = e.rest.length := by
    have hall : ∀ c ∈ e.rest, (!isBreak c) = true := by
      intro c hc
      have := List.countP_eq_zero.mp hrest c hc
      simpa using this
    rw [Journal.ahead, hafter, List.takeWhile_append_of_pos hall,
      List.takeWhile_cons_of_neg (by simp [isBreak]), List.append_nil]
  have hlast : ∀ y, e.after = e.killtext f n ++ y → y ≠ [] → 0 < row isBreak y := by
    intro y hy hyne
    refine row_last (e := e) (a := l ++ (e.killtext f n ++ e.killtext f n)) ?_ hyne
    rw [hkills.text]
    conv_lhs => rw [hy]
    simp only [List.append_assoc]
  rw [and_iff_left (hkills.removes hne hs.right_ne),
    hkills.undo_backward h hne hs.right_ne hcol hpos hlast hrows, hahead, row_eq_zero_iff]
  refine or_congr Iff.rfl ⟨?_, ?_⟩
  · rintro ⟨y, hy, heq⟩
    rw [heq]
    exact ⟨List.prefix_append _ _, fun hself => hy (List.self_eq_append_right.mp hself)⟩
  · rintro ⟨⟨y, heq⟩, hself⟩
    refine ⟨y, ?_, heq.symm⟩
    rintro rfl
    rw [List.append_nil] at heq
    exact hself heq

/-- **Killing lines.**  `undo` restores the text after a kill, and the kill buffer holds
what was removed, in exactly the cases of `KillUndone`. -/
theorem killline_undo_iff (e : Ed) (lastkill f : Bool) (n : Int) (kbuf : List Byte) (h : Sound e)
    (hdot : Within e e.dot) :
    ((undo (killcommand lastkill f n e kbuf).1).1.text = e.text ∧
      Removes e (killcommand lastkill f n e kbuf).1 (kdelete lastkill kbuf)
        (killcommand lastkill f n e kbuf).2) ↔ KillUndone f n e := by
  have hnothing : Removes e e.startsaveundo (kdelete lastkill kbuf) (kdelete lastkill kbuf) :=
    ⟨e.symbols, [], [], by simp, (List.append_nil _).symm, by simp⟩
  by_cases hro : e.bfro = true
  · obtain ⟨pos, hkill⟩ := killcommand_readonly lastkill f n kbuf hro
    have hro' : (e.startsaveundo.setDot pos).bfro = true := hro
    refine iff_of_true ?_ (.inl hro)
    rw [hkill]
    exact ⟨undo_readonly hro', hnothing⟩
  have hwrite : e.bfro = false := Bool.eq_false_iff.mpr hro
  unfold KillUndone
  rw [or_iff_right hro]
  by_cases hfn : f = false ∨ n > 0
  · rcases killcommand_forward lastkill kbuf h hdot hwrite hfn with
      ⟨hnil, hidle⟩ | ⟨hne, hp, x, hx, hkills⟩
    · rw [if_pos hnil, hidle]
      exact ⟨fun hand => hand.1, fun htext => ⟨htext, hnothing⟩⟩
    · rw [if_neg hne, if_pos hfn, hx]
      by_cases hend : x = []
      · subst hend
        rw [List.append_nil]
        exact iff_of_false (fun hand => hkills.at_end h hne hand.2) fun hand => hand rfl
      · have hpos := (h.shows_here hp hdot.2).position
        refine iff_of_true ⟨hkills.undo_forward h hne hend hpos, hkills.removes hne hend⟩ ?_
        exact fun heq => hend (List.self_eq_append_right.mp heq)
  · rcases killcommand_backward lastkill kbuf h hdot hwrite hfn with
      ⟨hnil, hidle⟩ | ⟨hne, l, s, hkills, hcol, hleft⟩
    · rw [if_pos hnil, hidle]
      exact ⟨fun hand => hand.1, fun htext => ⟨htext, hnothing⟩⟩
    · rw [if_neg hne, if_neg hfn]
      rcases hdot.1 with hp | hp
      · exact hkills.backward_iff h hdot hp hne hcol hleft
      · -- from the header line the kill runs to the end of the buffer
        have hafter := (h.on_header hp).2.1
        rw [hafter] at hkills ⊢
        refine iff_of_false (fun hand => hkills.at_end h hne hand.2) ?_
        rintro (⟨hzero, -⟩ | ⟨hpart, -⟩)
        · have htext := hkills.text
          rw [List.append_nil] at htext
          have hpos := row_last htext hne
          rw [(row_eq_zero_iff _).mpr hzero] at hpos
          exact Nat.lt_irrefl _ hpos
        · exact hne (List.prefix_nil.mp hpart)

/-- Two lines, with the cursor in the middle of the first one. -/
def killLines : Ed := Ed.holding [[97, 98, 99, 100, 101], [102]] ⟨2, 2⟩ ⟨2, 0⟩

theorem sound_killLines : Sound killLines := by
  refine Ed.sound_holding fun t ht => ?_
  have hletters : t = ([[97], [98], [99], [100], [101]] : List UChar).flatten ∨
      t = ([[102]] : List UChar).flatten := by
    simpa using ht
  have hin : ∀ cs : List UChar, (∀ c ∈ cs, IsUChar c ∧ c ≠ nl) → Inline cs := fun cs hcs =>
    ⟨fun c hc => (hcs c hc).1, fun hmem => (hcs nl hmem).2 rfl⟩
  rcases hletters with rfl | rfl
  · exact ⟨_, hin _ (by decide), rfl⟩
  · exact ⟨_, hin _ (by decide), rfl⟩

/-- Killing the rest of the line is undone. -/
theorem killline_undo_iff_killLines :
    (undo (killcommand false false 1 killLines []).1).1.text = killLines.text ∧
      Removes killLines (killcommand false false 1 killLines []).1 [] [99, 100, 101] := by
  have hdot : Within killLines killLines.dot := ⟨.inl (by decide), by decide⟩
  exact (killline_undo_iff killLines false false 1 [] sound_killLines hdot).mpr (.inr (by decide))

/-- **A kill back to the start of the line is put back in the wrong place**: `abcde` becomes
`cdabe`. -/
theorem killline_undo_misplaced :
    ¬ ∀ (e : Ed) (f : Bool) (n : Int), Sound e → Within e e.dot →
      (undo (killcommand false f n e []).1).1.text = e.text ∧
        Removes e (killcommand false f n e []).1 [] (killcommand false f n e []).2 := by
  intro hall
  have hdot : Within killLines killLines.dot := ⟨.inl (by decide), by decide⟩
  exact absurd (hall killLines true 0 sound_killLines hdot).1 (by decide)

end Result

end Emacs
