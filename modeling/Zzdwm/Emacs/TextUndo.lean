import Zzdwm.Emacs.TextView

/-!
# Undoing in the text (`undo.c`)

A record with a position is played there, if the text has such a line; on a line
that is too short it is played at its start.  The records of a command that only
deletes are one stretch, so that undoing inserts all of their words at one place.

* `goundo_shows` — **where a record is played**;
* `undostep_plays`, `redostep_plays` — the editor plays a journal;
* `Logged` — the records that a command has saved so far;
* `ldeleteLoop_logged` — a deletion saves what it goes for, in text order;
* `undo_records` — **undoing a stretch**.
-/

namespace Emacs

open Journal (Zipper Act Rec row col)

variable {e e' : Ed} {z : Zipper UChar} {p : LineId} {as bs : List LineId}

/-! ## Going to a position -/

/-- Within a line there is no newline. -/
theorem Inline.row {cs : List UChar} (h : Inline cs) : row isBreak cs = 0 :=
  Journal.row_eq_zero fun a ha => by
    have hne : a ≠ nl := fun heq => h.noBreak (heq ▸ ha)
    simpa [isBreak] using hne

/-- The text of some lines ends at the start of a line. -/
theorem Sound.lines_position (h : Sound e) {qs : List LineId} (hqs : ∀ q ∈ qs, q ∈ e.lines) :
    row isBreak (qs.flatMap e.row) = qs.length ∧ col isBreak (qs.flatMap e.row) = 0 := by
  induction qs using List.reverseRecOn with
  | nil => exact ⟨rfl, rfl⟩
  | append_singleton qs q ih =>
    obtain ⟨ihrow, -⟩ := ih fun r hr => hqs r (List.mem_append_left _ hr)
    have hnone := (h.chars (hqs q (by simp))).1.row
    have hflat : (qs ++ [q]).flatMap e.row = (qs.flatMap e.row ++ e.chars q) ++ nl :: [] := by
      rw [List.flatMap_append, List.flatMap_singleton, Ed.row, List.append_assoc]
    rw [hflat]
    refine ⟨?_, Journal.col_append_break rfl⟩
    rw [Journal.row_break rfl, Journal.row_append, ihrow, hnone, List.length_append]
    rfl

/-- The position of the cursor is that in the text. -/
theorem Shows.position (h : Shows e z) :
    e.lineno e.dot.p = row isBreak z.left ∧ e.dot.o = col isBreak z.left := by
  obtain ⟨hin, -⟩ := h.sound.chars h.mem
  obtain ⟨as, bs, hl, rfl⟩ := h.split
  obtain ⟨has, -, -⟩ := h.sound.around hl
  have hline := (hin.take e.dot.o).row
  have has' : ∀ q ∈ as, q ∈ e.lines := fun q hq => by
    rw [hl]
    exact List.mem_append_left _ hq
  obtain ⟨hrows, hcols⟩ := h.sound.lines_position has'
  dsimp only
  refine ⟨?_, ?_⟩
  · rw [Journal.row_append, hrows, hline, Nat.add_zero]
    have hidx : e.lines.idxOf e.dot.p = as.length := by
      rw [hl, List.idxOf_append_of_notMem has, List.idxOf_cons_self, Nat.add_zero]
    have hlen : e.lines.length = as.length + (bs.length + 1) := by
      rw [hl, List.length_append, List.length_cons]
    show min (e.lines.idxOf e.dot.p) (e.lines.length - 1) = as.length
    rw [hidx, hlen]
    exact Nat.min_eq_left (by omega)
  · rw [Journal.col_append_of_row hline, hcols, List.length_take, Nat.min_eq_left h.offset,
      Nat.zero_add]

/-- The line and the offset of a place in the text of some lines. -/
theorem find_pos {l x : List UChar} {ls : List LineId} (hls : ∀ q ∈ ls, nl ∉ e.chars q)
    (htext : ls.flatMap e.row = l ++ x) (hx : x ≠ []) :
    ∃ as p bs, ls = as ++ p :: bs ∧ row isBreak l = as.length ∧
      col isBreak l ≤ (e.chars p).length ∧
      l = as.flatMap e.row ++ (e.chars p).take (col isBreak l) ∧
      x = (e.chars p).drop (col isBreak l) ++ nl :: bs.flatMap e.row := by
  induction ls generalizing l with
  | nil =>
    rw [List.flatMap_nil] at htext
    exact absurd (List.append_eq_nil_iff.mp htext.symm).2 hx
  | cons q ls ih =>
    rw [List.flatMap_cons] at htext
    by_cases hlen : l.length < (e.row q).length
    · -- on the first of the lines
      have hlen' : l.length ≤ (e.chars q).length := by
        rw [Ed.row, List.length_append, List.length_singleton] at hlen
        omega
      have hl : l = (e.chars q).take l.length := by
        have htake := congrArg (List.take l.length) htext
        rw [List.take_left, Ed.row, List.append_assoc, List.take_append_of_le_length hlen'] at htake
        exact htake.symm
      have hrow : row isBreak l = 0 := Journal.row_eq_zero fun a ha => by
        have hne : a ≠ nl := fun heq => hls q List.mem_cons_self (by
          rw [← heq]
          rw [hl] at ha
          exact List.mem_of_mem_take ha)
        simpa [isBreak] using hne
      have hcol : col isBreak l = l.length := Journal.col_of_row hrow
      have hx' := congrArg (List.drop l.length) htext
      rw [List.drop_left, Ed.row, List.append_assoc, List.drop_append_of_le_length hlen'] at hx'
      refine ⟨[], q, ls, rfl, hrow, hcol ▸ hlen', ?_, ?_⟩
      · rw [hcol, List.flatMap_nil, List.nil_append]
        exact hl
      · rw [hcol, ← hx']
        rfl
    · have hpart : ∃ v, l = e.row q ++ v ∧ ls.flatMap e.row = v ++ x := by
        rcases List.append_eq_append_iff.mp htext with ⟨v, hl, hv⟩ | ⟨v, hl, hv⟩
        · exact ⟨v, hl, hv⟩
        · have hnil : v = [] := List.eq_nil_of_length_eq_zero (by
            rw [hl, List.length_append] at hlen
            omega)
          subst hnil
          rw [List.append_nil] at hl
          rw [List.nil_append] at hv
          exact ⟨[], by rw [List.append_nil, hl], by rw [List.nil_append, hv]⟩
      obtain ⟨v, rfl, hv⟩ := hpart
      obtain ⟨as, p, bs, rfl, hrow, hcol, hl, hx'⟩ :=
        ih (fun r hr => hls r (List.mem_cons_of_mem _ hr)) hv
      have hnone : row isBreak (e.chars q) = 0 := Journal.row_eq_zero fun a ha => by
        have hne : a ≠ nl := fun heq => hls q List.mem_cons_self (heq ▸ ha)
        simpa [isBreak] using hne
      have hflat : e.row q ++ v = e.chars q ++ nl :: v := by
        rw [Ed.row, List.append_assoc, List.singleton_append]
      have hcol' : col isBreak (e.row q ++ v) = col isBreak v := by
        rw [hflat, Journal.col_append_break rfl]
      rw [hcol']
      refine ⟨q :: as, p, bs, rfl, ?_, hcol, ?_, hx'⟩
      · rw [hflat, Journal.row_break rfl, hnone, hrow, List.length_cons]
        omega
      · rw [List.flatMap_cons, List.append_assoc, ← hl]

/-- The cursor may be put anywhere on a line. -/
theorem Sound.shows_at {o : Nat} (h : Sound e) (hl : e.lines = as ++ p :: bs)
    (ho : o ≤ (e.chars p).length) :
    Shows (e.setDot ⟨p, o⟩)
      ⟨as.flatMap e.row ++ (e.chars p).take o, (e.chars p).drop o ++ nl :: bs.flatMap e.row⟩ :=
  ⟨⟨h.nodup, h.header, h.fresh, h.inline, h.empty⟩, ho, as, bs, hl, rfl⟩

/-- The text of lines. -/
theorem Sound.noBreak (h : Sound e) : ∀ q ∈ e.lines, nl ∉ e.chars q :=
  fun _ hq => (h.chars hq).1.noBreak

/-- How many lines a text has. -/
theorem Sound.rows (h : Sound e) : row isBreak e.symbols = e.lines.length :=
  (h.lines_position fun _ hq => hq).1

@[simp] theorem setDot_chars (e : Ed) (pos : POS) : (e.setDot pos).chars = e.chars := rfl

@[simp] theorem setDot_dot (e : Ed) (pos : POS) : (e.setDot pos).dot = pos := rfl

/-- Going to a line that is there. -/
theorem goundo_line {up : UNDO} {o : Nat} (h : Sound e) (hpos : up.pos = some (as.length, o))
    (hl : e.lines = as ++ p :: bs) :
    goundo up e = (e.setDot ⟨p, if o > (e.chars p).length then 0 else o⟩, true) := by
  have hget : e.lines[as.length + 1 - 1]? = some p := by
    rw [Nat.add_sub_cancel, hl, List.getElem?_append_right (Nat.le_refl _), Nat.sub_self]
    rfl
  have hlen := wllength_eq e p (h.inline p (by rw [hl]; simp))
  unfold goundo gotoline
  rw [hpos]
  dsimp only
  rw [if_neg (Nat.succ_ne_zero _), hget]
  show ((if o > (e.line p).wllength then e.setDot ⟨p, 0⟩ else (e.setDot ⟨p, 0⟩).setDot ⟨p, o⟩), true) = _
  rw [hlen]
  split <;> rfl

/-- **Going to a position** that is in the text. -/
theorem goundo_shows {up : UNDO} {l x : List UChar} (h : Sound e) (htext : e.symbols = l ++ x)
    (hx : x ≠ []) (hpos : up.pos = some (row isBreak l, col isBreak l)) :
    Shows (goundo up e).1 ⟨l, x⟩ ∧ (goundo up e).2 = true := by
  rw [Ed.symbols] at htext
  obtain ⟨as, p, bs, hl, hrow, hcol, hleft, hright⟩ := find_pos h.noBreak htext hx
  rw [hrow] at hpos
  have hat := h.shows_at hl hcol
  rw [goundo_line h hpos hl, if_neg (by omega)]
  rw [← hleft, ← hright] at hat
  exact ⟨hat, rfl⟩

/-- **Where a record is played** whatever its position is: at its place, at the start of
its line, or nowhere. -/
theorem goundo_cases {u : UNDO} {l o : Nat} (h : Shows e z) (hpos : u.pos = some (l, o)) :
    (∃ P Q, z.text = P ++ Q ∧ Q ≠ [] ∧ row isBreak P = l ∧
      (col isBreak P = o ∨ col isBreak P = 0 ∧ (Q.takeWhile fun c => !isBreak c).length < o) ∧
      Shows (goundo u e).1 ⟨P, Q⟩ ∧ (goundo u e).2 = true) ∨
    (row isBreak z.text ≤ l ∧ (goundo u e).2 = false ∧
      ∃ z', Shows (goundo u e).1 z' ∧ z'.text = z.text) := by
  by_cases hlt : l < e.lines.length
  · left
    obtain ⟨as, p, bs, hl, rfl⟩ : ∃ as p bs, e.lines = as ++ p :: bs ∧ l = as.length :=
      ⟨e.lines.take l, e.lines[l], e.lines.drop (l + 1), by simp, by
        rw [List.length_take]
        omega⟩
    have hin := (h.sound.chars (p := p) (by rw [hl]; simp)).1
    have hspot : ∀ o' : Nat, o' ≤ (e.chars p).length → ∃ P Q, z.text = P ++ Q ∧ Q ≠ [] ∧
        row isBreak P = as.length ∧ col isBreak P = o' ∧
        Q.takeWhile (fun c => !isBreak c) = (e.chars p).drop o' ∧
        Shows (e.setDot ⟨p, o'⟩) ⟨P, Q⟩ := by
      intro o' ho'
      have hat := h.sound.shows_at hl ho'
      have hposn := hat.position
      have hlineno : (e.setDot ⟨p, o'⟩).lineno p = as.length := by
        obtain ⟨has, -, -⟩ := h.sound.around hl
        have hidx : e.lines.idxOf p = as.length := by
          rw [hl, List.idxOf_append_of_notMem has, List.idxOf_cons_self, Nat.add_zero]
        have hlen : e.lines.length = as.length + (bs.length + 1) := by
          rw [hl, List.length_append, List.length_cons]
        show min (e.lines.idxOf p) (e.lines.length - 1) = as.length
        rw [hidx, hlen]
        exact Nat.min_eq_left (by omega)
      refine ⟨_, _, ?_, hat.right_ne, hposn.1.symm.trans hlineno, hposn.2.symm, ?_, hat⟩
      · rw [h.text]
        exact hat.text.symm
      · have hall : ∀ c ∈ (e.chars p).drop o', (!isBreak c) = true := by
          intro c hc
          have hne : c ≠ nl := fun heq => (hin.drop o').noBreak (heq ▸ hc)
          simpa [isBreak] using hne
        rw [List.takeWhile_append_of_pos hall, List.takeWhile_cons_of_neg (by simp [isBreak]),
          List.append_nil]
    rw [goundo_line h.sound hpos hl]
    by_cases ho : o > (e.chars p).length
    · obtain ⟨P, Q, htext, hQ, hrow, hcol, hline, hs⟩ := hspot 0 (Nat.zero_le _)
      rw [if_pos ho]
      refine ⟨P, Q, htext, hQ, hrow, .inr ⟨hcol, ?_⟩, hs, rfl⟩
      rwa [hline, List.drop_zero]
    · obtain ⟨P, Q, htext, hQ, hrow, hcol, -, hs⟩ := hspot o (by omega)
      rw [if_neg ho]
      exact ⟨P, Q, htext, hQ, hrow, .inl hcol, hs, rfl⟩
  · right
    have hnone : e.lines[l + 1 - 1]? = none := List.getElem?_eq_none (by omega)
    have hlen := wllength_eq e e.dot.p (h.sound.inline _ h.mem)
    have hgo : goundo u e = (if o > (e.chars e.dot.p).length then e
        else e.setDot { e.dot with o := o }, false) := by
      unfold goundo gotoline
      rw [hpos]
      dsimp only
      rw [if_neg (Nat.succ_ne_zero _), hnone]
      dsimp only
      rw [hlen]
    rw [hgo, h.text, h.sound.rows]
    refine ⟨by omega, rfl, ?_⟩
    dsimp only
    split
    · exact ⟨z, h, h.text⟩
    · obtain ⟨as, bs, hl, -⟩ := h.split
      have hat := h.sound.shows_at hl (o := o) (by omega)
      exact ⟨_, hat, hat.text⟩

/-- Going somewhere changes no text. -/
theorem goundo_text (up : UNDO) (h : Shows e z) :
    ∃ z', Shows (goundo up e).1 z' ∧ z'.text = z.text := by
  cases hpos : up.pos with
  | none =>
    have hgo : goundo up e = (e, true) := by
      unfold goundo
      rw [hpos]
    rw [hgo]
    exact ⟨z, h, rfl⟩
  | some pos =>
    rcases goundo_cases h hpos with ⟨P, Q, htext, -, -, -, hs, -⟩ | ⟨-, -, hs⟩
    · exact ⟨_, hs, htext.symm⟩
    · exact hs

/-! ## Playing records -/

@[simp] theorem gotoline_bfro (n : Nat) (e : Ed) : (gotoline n e).1.bfro = e.bfro := by
  unfold gotoline
  split
  · rfl
  · split <;> rfl

@[simp] theorem goundo_bfro (up : UNDO) (e : Ed) : (goundo up e).1.bfro = e.bfro := by
  unfold goundo
  split
  · rename_i l o _
    have hline := gotoline_bfro (l + 1) e
    generalize gotoline (l + 1) e = r at hline ⊢
    obtain ⟨e', status⟩ := r
    dsimp only at hline ⊢
    split
    · exact hline
    · exact hline
  · rfl

@[simp] theorem ldelnewline_bfro (e : Ed) : (ldelnewline e).bfro = e.bfro := by
  unfold ldelnewline
  dsimp only
  split
  · rfl
  · split <;> rfl

@[simp] theorem ldeleteStep_bfro (n : Nat) (e : Ed) : (ldeleteStep n e).1.bfro = e.bfro := by
  unfold ldeleteStep
  dsimp only
  generalize (if unslen _ > n then n else unslen _) = chars
  split
  · exact (saveundo_bfro ..).trans (ldelnewline_bfro _)
  · exact saveundo_bfro ..

@[simp] theorem ldeleteLoop_bfro (f n : Nat) (e : Ed) : (ldeleteLoop f n e).1.bfro = e.bfro := by
  induction f generalizing n e with
  | zero => cases n <;> rfl
  | succ f ih =>
    cases n with
    | zero => rfl
    | succ n =>
      rw [ldeleteLoop]
      split
      · rfl
      · exact (ih ..).trans (ldeleteStep_bfro _ e)

@[simp] theorem ldelete_bfro (n : Int) (e : Ed) : (ldelete n e).1.bfro = e.bfro := by
  unfold ldelete
  split
  · rfl
  · split
    · rfl
    · exact ldeleteLoop_bfro ..

@[simp] theorem insertwithnlLoop_bfro (f : Nat) (s : List Byte) (e : Ed) :
    (insertwithnlLoop f s e).1.bfro = e.bfro := by
  induction f generalizing s e with
  | zero => rfl
  | succ f ih =>
    rw [insertwithnlLoop]
    split
    · rfl
    · dsimp only
      split
      · exact linsert_bfro ..
      · have hfirst : (if s.takeWhile (· ≠ newline) = [] then (e, true)
            else linsert (.str (s.takeWhile (· ≠ newline))) e).1.bfro = e.bfro := by
          split
          · rfl
          · exact linsert_bfro ..
        generalize (if s.takeWhile (· ≠ newline) = [] then (e, true)
          else linsert (.str (s.takeWhile (· ≠ newline))) e) = r at hfirst ⊢
        obtain ⟨e', status⟩ := r
        dsimp only at hfirst ⊢
        split
        · exact hfirst
        · have hline := lnewline_bfro e'
          generalize lnewline e' = r at hline ⊢
          obtain ⟨e'', status'⟩ := r
          dsimp only at hline ⊢
          split
          · exact hline.trans hfirst
          · exact (ih ..).trans (hline.trans hfirst)

@[simp] theorem insertwithnl_bfro (s : List Byte) (e : Ed) :
    (insertwithnl s e).1.bfro = e.bfro := insertwithnlLoop_bfro ..

@[simp] theorem undostep_bfro (up : UNDO) (e : Ed) : (undostep up e).1.bfro = e.bfro := by
  have hgo := goundo_bfro up e
  unfold undostep
  generalize goundo up e = r at hgo ⊢
  obtain ⟨e', status⟩ := r
  dsimp only at hgo ⊢
  split
  · exact hgo
  · split
    · exact hgo
    · exact (insertwithnl_bfro ..).trans hgo
    · exact (ldelete_bfro ..).trans hgo

@[simp] theorem redostep_bfro (up : UNDO) (e : Ed) : (redostep up e).1.bfro = e.bfro := by
  have hgo := goundo_bfro up e
  unfold redostep
  generalize goundo up e = r at hgo ⊢
  obtain ⟨e', status⟩ := r
  dsimp only at hgo ⊢
  split
  · exact hgo
  · split
    · exact hgo
    · exact (ldelete_bfro ..).trans hgo
    · exact (insertwithnl_bfro ..).trans hgo

/-- What a record of the undo list says, in characters. -/
inductive Reads : UNDO → Rec UChar → Prop
  | move (pos : Option (Nat × Nat)) : Reads ⟨pos, .UMOVE⟩ ⟨pos, .move⟩
  | del (pos : Option (Nat × Nat)) (n : Nat) {ws : List UChar} (hws : AllUChars ws) :
      Reads ⟨pos, .UDELETE n ws.flatten⟩ ⟨pos, .del n ws⟩
  | ins (pos : Option (Nat × Nat)) (n : Nat) {ws : List UChar} (hws : AllUChars ws) :
      Reads ⟨pos, .UINSERT n ws.flatten⟩ ⟨pos, .ins n ws⟩

theorem Reads.pos {u : UNDO} {r : Rec UChar} (h : Reads u r) : u.pos = r.pos := by
  cases h <;> rfl

/-- A buffer that may be changed, and the text that it shows. -/
structure Writable (e : Ed) (z : Zipper UChar) : Prop where
  shows_ : Shows e z
  bfro : e.bfro = false

/-- Once the cursor is there, undoing a record takes its act back. -/
theorem undostep_here {u : UNDO} {r : Rec UChar} {z' : Zipper UChar} (hur : Reads u r)
    (hgo : Shows (goundo u e).1 z' ∧ (goundo u e).2 = true) (hro : e.bfro = false) :
    Shows (undostep u e).1 (r.act.undo z') ∧ (undostep u e).2 = true := by
  have hro' := (goundo_bfro u e).trans hro
  unfold undostep
  generalize goundo u e = s at hgo hro' ⊢
  obtain ⟨e', status⟩ := s
  obtain ⟨hs, htrue⟩ := hgo
  dsimp only at hs htrue hro' ⊢
  rw [htrue, Bool.not_true, if_neg Bool.false_ne_true]
  cases hur with
  | move => exact ⟨hs, rfl⟩
  | del _ n hws => exact insertwithnl_shows hws hs hro'
  | ins _ n hws => exact ldelete_shows hs hro' n

/-- And redoing it does the act again. -/
theorem redostep_here {u : UNDO} {r : Rec UChar} {z' : Zipper UChar} (hur : Reads u r)
    (hgo : Shows (goundo u e).1 z' ∧ (goundo u e).2 = true) (hro : e.bfro = false) :
    Shows (redostep u e).1 (r.act.redo z') ∧ (redostep u e).2 = true := by
  have hro' := (goundo_bfro u e).trans hro
  unfold redostep
  generalize goundo u e = s at hgo hro' ⊢
  obtain ⟨e', status⟩ := s
  obtain ⟨hs, htrue⟩ := hgo
  dsimp only at hs htrue hro' ⊢
  rw [htrue, Bool.not_true, if_neg Bool.false_ne_true]
  cases hur with
  | move => exact ⟨hs, rfl⟩
  | del _ n hws => exact ldelete_shows hs hro' n
  | ins _ n hws => exact insertwithnl_shows hws hs hro'

/-- Without a position the cursor stays where it is. -/
theorem goundo_none {u : UNDO} (h : u.pos = none) (e : Ed) : goundo u e = (e, true) := by
  unfold goundo
  rw [h]

/-- Playing a record that only moves the cursor goes there. -/
theorem step_move {u : UNDO} {r : Rec UChar} (hur : Reads u r) (hact : r.act = .move) :
    (undostep u e).1 = (goundo u e).1 ∧ (redostep u e).1 = (goundo u e).1 := by
  cases hur with
  | move pos =>
    unfold undostep redostep
    generalize goundo ⟨pos, .UMOVE⟩ e = s
    obtain ⟨e', status⟩ := s
    dsimp only
    refine ⟨?_, ?_⟩ <;> split <;> rfl
  | del => cases hact
  | ins => cases hact

/-- **`undostep`** plays a journal backwards. -/
theorem undostep_plays :
    Journal.Plays isBreak Writable Reads (fun _ => True) Act.undo (fun u e => (undostep u e).1) where
  seek hs hur _ hpos htext hx :=
    ⟨(undostep_here hur (goundo_shows hs.shows_.sound (hs.shows_.text.symm.trans htext) hx (hur.pos.trans hpos)) hs.bfro).1,
      (undostep_bfro ..).trans hs.bfro⟩
  here hs hur _ hpos _ := by
    have hgo := goundo_none (hur.pos.trans hpos)
    exact ⟨(undostep_here hur (by rw [hgo]; exact ⟨hs.shows_, rfl⟩) hs.bfro).1,
      (undostep_bfro ..).trans hs.bfro⟩
  idle {s _ u _} hs hur hact := by
    obtain ⟨z', hz', htext⟩ := goundo_text u hs.shows_
    refine ⟨z', ⟨?_, (undostep_bfro ..).trans hs.bfro⟩, htext⟩
    rwa [(step_move hur hact).1]

/-- **`redostep`** plays it forwards. -/
theorem redostep_plays :
    Journal.Plays isBreak Writable Reads (fun _ => True) Act.redo (fun u e => (redostep u e).1) where
  seek hs hur _ hpos htext hx :=
    ⟨(redostep_here hur (goundo_shows hs.shows_.sound (hs.shows_.text.symm.trans htext) hx (hur.pos.trans hpos)) hs.bfro).1,
      (redostep_bfro ..).trans hs.bfro⟩
  here hs hur _ hpos _ := by
    have hgo := goundo_none (hur.pos.trans hpos)
    exact ⟨(redostep_here hur (by rw [hgo]; exact ⟨hs.shows_, rfl⟩) hs.bfro).1,
      (redostep_bfro ..).trans hs.bfro⟩
  idle {s _ u _} hs hur hact := by
    obtain ⟨z', hz', htext⟩ := goundo_text u hs.shows_
    refine ⟨z', ⟨?_, (redostep_bfro ..).trans hs.bfro⟩, htext⟩
    rwa [(step_move hur hact).2]

/-- The records of a group, played in a row. -/
theorem playSteps_fst (step : UNDO → Ed → Ed × Bool) (ups : List UNDO) (r : Ed × Bool) :
    (playSteps step ups r).1 = ups.foldl (fun e up => (step up e).1) r.1 := by
  induction ups generalizing r with
  | nil => rfl
  | cons up ups ih => exact ih _

/-- **The loop of `undo`** plays the stretches of a journal last first. -/
theorem undoLoop_fst (rev later : List UNDO) (r : Ed × Bool) :
    (undoLoop rev later r).1 = Journal.playBack (fun up : UNDO => up.pos.isSome)
      (fun up e => (undostep up e).1) rev later r.1 := by
  induction rev generalizing later r with
  | nil => exact playSteps_fst undostep later r
  | cons up rev ih =>
    rw [undoLoop, Journal.playBack]
    split
    · rw [ih, playSteps_fst]
    · exact ih _ _

/-! ## What a command saves -/

/-- What is saved of an act. -/
def saved : Act UChar → UStep
  | .move => .UMOVE
  | .del n w => .UDELETE n w.flatten
  | .ins n w => .UINSERT n w.flatten

/-- The records of a stretch of acts. -/
def records (pos : Option (Nat × Nat)) : List (Act UChar) → List UNDO
  | [] => []
  | a :: as => ⟨pos, saved a⟩ :: records none as

theorem records_snoc (pos : Option (Nat × Nat)) (acts : List (Act UChar)) (a : Act UChar) :
    records pos (acts ++ [a]) = records pos acts ++ [⟨if acts = [] then pos else none, saved a⟩] := by
  induction acts generalizing pos with
  | nil => rfl
  | cons b acts ih =>
    rw [List.cons_append, records, ih, records, if_neg (List.cons_ne_nil _ _), List.cons_append]
    cases acts with
    | nil => rfl
    | cons c acts => rw [if_neg (List.cons_ne_nil _ _)]

/-- The words of an act are whole characters. -/
def WholeAct : Act UChar → Prop
  | .move => True
  | .del _ w | .ins _ w => AllUChars w

theorem reads_saved {a : Act UChar} (h : WholeAct a) (pos : Option (Nat × Nat)) :
    Reads ⟨pos, saved a⟩ ⟨pos, a⟩ := by
  cases a with
  | move => exact .move pos
  | del n w => exact .del pos n h
  | ins n w => exact .ins pos n h

/-- The command has saved the records of these acts so far, `pos` being where it started
and `st` the stack at that time. -/
structure Logged (st : UNDOSTACK) (pos : Nat × Nat) (acts : List (Act UChar)) (e : Ed) : Prop where
  undoing : e.undoing = false
  none : acts = [] → e.start = some pos ∧ e.b_undo = st
  some : acts ≠ [] → e.start = Option.none ∧
    ∃ flag gs, e.b_undo.undolist = ⟨records (some pos) acts, flag⟩ :: gs

section Logging

variable {st : UNDOSTACK} {pos : Nat × Nat} {acts : List (Act UChar)}

theorem Logged.congr (h : Logged st pos acts e) (hundo : e'.undoing = e.undoing)
    (hstart : e'.start = e.start) (hstack : e'.b_undo = e.b_undo) : Logged st pos acts e' := by
  obtain ⟨h1, h2, h3⟩ := h
  refine ⟨?_, ?_, ?_⟩
  · rwa [hundo]
  · rwa [hstart, hstack]
  · rwa [hstart, hstack]

/-- At the start of a command. -/
theorem startsaveundo_logged (e : Ed) :
    Logged e.b_undo (e.lineno e.dot.p, e.dot.o) [] e.startsaveundo :=
  ⟨rfl, fun _ => ⟨rfl, rfl⟩, fun hne => absurd rfl hne⟩

/-- A new group is the newest one. -/
theorem newgroup_freeredo (st : UNDOSTACK) (g : UNDOGROUP) :
    ∃ gs, (st.freeredo.newgroup g).undolist = g :: gs := by
  unfold UNDOSTACK.newgroup
  split
  · rename_i hfull
    have hcount := st.freeredo.count
    have hlen : 0 < st.freeredo.undolist.length := by
      have hnil : st.freeredo.redolist.length = 0 := rfl
      have hmax : 0 < N_UNDO := by decide
      omega
    obtain ⟨g', gs, heq⟩ := List.exists_cons_of_ne_nil (List.length_pos_iff.mp hlen)
    dsimp only
    rw [heq, List.dropLast_cons_cons]
    exact ⟨_, rfl⟩
  · exact ⟨_, rfl⟩

/-- **Saving a record** that joins no other one. -/
theorem Logged.saveundo (h : Logged st pos acts e) {k : Saved} {a : Act UChar} (hka : k.step = saved a)
    (hk : ∀ copies chars s, k = .UINSERT copies chars s → e.joinsLast (e.savepos Option.none) = false) :
    Logged st pos (acts ++ [a]) (e.saveundo k Option.none) := by
  have hstack : e.savestack k Option.none =
      e.b_undo.freeredo.newundo e.start.isSome e.b_flag ⟨e.start, saved a⟩ := by
    unfold Ed.savestack
    rw [← hka]
    cases k with
    | UINSERT copies chars s =>
      dsimp only
      rw [hk copies chars s rfl, if_neg Bool.false_ne_true]
      rfl
    | _ => rfl
  have hsave : e.saveundo k Option.none =
      { e with b_undo := e.savestack k Option.none, start := Option.none } := by
    unfold Ed.saveundo
    rw [h.undoing, if_neg Bool.false_ne_true]
  rw [hsave]
  refine ⟨h.undoing, fun hnil => absurd hnil (by simp), fun _ => ⟨rfl, ?_⟩⟩
  dsimp only
  rw [hstack, records_snoc]
  by_cases hacts : acts = []
  · obtain ⟨hstart, -⟩ := h.none hacts
    rw [if_pos hacts, hacts, hstart, Option.isSome_some, UNDOSTACK.newundo, if_pos rfl]
    obtain ⟨gs, hgs⟩ := newgroup_freeredo e.b_undo ⟨[⟨Option.some pos, saved a⟩], e.b_flag⟩
    exact ⟨_, gs, hgs⟩
  · obtain ⟨hstart, flag, gs, hgs⟩ := h.some hacts
    rw [if_neg hacts, hstart, Option.isSome_none, UNDOSTACK.newundo, if_neg Bool.false_ne_true]
    refine ⟨flag, gs, ?_⟩
    show (e.b_undo.undolist.modifyHead fun g => { g with undos := g.undos ++ [⟨Option.none, saved a⟩] }) = _
    rw [hgs]
    rfl

@[simp] theorem ldelnewline_undo (e : Ed) : (ldelnewline e).undoing = e.undoing ∧
    (ldelnewline e).start = e.start ∧ (ldelnewline e).b_undo = e.b_undo := by
  unfold ldelnewline
  dsimp only
  split
  · exact ⟨rfl, rfl, rfl⟩
  · split <;> exact ⟨rfl, rfl, rfl⟩

/-- The deletion of some words, as an act. -/
def deletion (w : List UChar) : Act UChar := .del w.length w

/-- What is saved of an insertion. -/
theorem Insertion.Spells.step {i : Insertion} {ws : List UChar} (h : i.Spells ws) :
    i.saved.step = Emacs.saved (.ins ws.length ws) := by
  have hchars := h.chars
  have hbytes := h.bytes
  cases i with
  | copies n c =>
      show UStep.UINSERT (1 * n) (List.replicate n (uputc c)).flatten = _
      rw [Nat.one_mul, Emacs.saved, ← hbytes, ← hchars]
      rfl
  | str s =>
      show UStep.UINSERT (unslen s * 1) (List.replicate 1 s).flatten = _
      rw [Nat.mul_one, List.replicate_one, List.flatten_singleton, Emacs.saved, ← hbytes, ← hchars]
      rfl

/-- A round of the loop of `ldelete` saves what it deletes. -/
theorem ldeleteStep_logged (h : Shows e z) {n : Nat} (hn : 0 < n) (hlog : Logged st pos acts e) :
    Logged st pos (acts ++ [deletion (e.deleted n)]) (ldeleteStep n e).1 := by
  rw [ldeleteStep_eq h hn]
  dsimp only
  have hkind : ∀ copies chars s, Saved.UDELETE (e.deleted n).length (e.deleted n).flatten ≠
      .UINSERT copies chars s := fun _ _ _ heq => by cases heq
  by_cases hnil : e.rest = []
  · obtain ⟨h1, h2, h3⟩ := ldelnewline_undo e.lchange
    have hlog' : Logged st pos acts (ldelnewline e.lchange) := hlog.congr h1 h2 h3
    rw [if_pos hnil]
    exact hlog'.saveundo rfl fun _ _ _ heq => absurd heq (hkind _ _ _)
  · have hlog' : Logged st pos acts e.lchange := hlog.congr rfl rfl rfl
    have hsaved := hlog'.saveundo (k := .UDELETE (e.deleted n).length (e.deleted n).flatten)
      (a := deletion (e.deleted n)) rfl fun _ _ _ heq => absurd heq (hkind _ _ _)
    rw [if_neg hnil]
    exact hsaved.congr rfl rfl rfl

/-- What a round deletes is what follows the cursor. -/
theorem deleted_eq (h : Shows e z) (n : Nat) :
    e.deleted n = z.right.take (e.deleted n).length := by
  obtain ⟨as, bs, -, rfl⟩ := h.split
  show e.deleted n = (e.rest ++ nl :: bs.flatMap e.row).take (e.deleted n).length
  unfold Ed.deleted
  split
  · rename_i hnil
    rw [hnil]
    rfl
  · rw [List.take_append_of_le_length (List.length_take_le' ..), List.length_take]
    rcases Nat.le_total n e.rest.length with hle | hle
    · rw [Nat.min_eq_left hle]
    · rw [Nat.min_eq_right hle, List.take_length, List.take_of_length_le hle]

/-- Going on after a part of the text has been deleted, the last newline staying. -/
theorem take_delete {d : List UChar} {n : Nat} (hd : d = z.right.take d.length)
    (hle : d.length ≤ n) (hn : n ≤ z.right.length) :
    d ++ (z.delete d.length).right.take (n - d.length) = z.right.take n ∧
      n - d.length ≤ (z.delete d.length).right.length := by
  have hright : (z.delete d.length).right = z.right.drop (min d.length (z.right.length - 1)) := rfl
  rw [hright, List.length_drop]
  refine ⟨?_, by omega⟩
  by_cases hend : d.length < z.right.length
  · have hsum : d.length + (n - d.length) = n := by omega
    rw [show min d.length (z.right.length - 1) = d.length by omega]
    conv_rhs => rw [← hsum, List.take_add]
    rw [← hd]
  · have hzero : n - d.length = 0 := by omega
    have hsame : n = d.length := by omega
    rw [hzero, List.take_zero, List.append_nil, hsame]
    exact hd

/-- **A deletion** saves what it goes for, in text order, be it there or not. -/
theorem ldeleteLoop_logged (f n : Nat) (h : Shows e z) (hf : n ≤ f) (hn : n ≤ z.right.length)
    (hlog : Logged st pos acts e) :
    ∃ vss : List (List UChar), vss.flatten = z.right.take n ∧ [] ∉ vss ∧
      Logged st pos (acts ++ vss.map deletion) (ldeleteLoop f n e).1 := by
  induction f generalizing n e z acts with
  | zero =>
    obtain rfl : n = 0 := Nat.le_zero.mp hf
    rw [ldeleteLoop]
    exact ⟨[], rfl, List.not_mem_nil, by rwa [List.map_nil, List.append_nil]⟩
  | succ f ih =>
    cases n with
    | zero =>
      rw [ldeleteLoop]
      exact ⟨[], rfl, List.not_mem_nil, by rwa [List.map_nil, List.append_nil]⟩
    | succ n =>
      obtain ⟨hshows, hchars⟩ := ldeleteStep_shows (n := n + 1) h (by omega)
      obtain ⟨hpos, hle⟩ := deleted_pos e (n := n + 1) (by omega)
      have hlog' := ldeleteStep_logged h (Nat.succ_pos n) hlog
      obtain ⟨htake, hlen⟩ := take_delete (deleted_eq h (n + 1)) hle hn
      have hne : e.deleted (n + 1) ≠ [] := List.length_pos_iff.mp hpos
      generalize e.deleted (n + 1) = d at *
      rw [ldeleteLoop, if_neg h.ne_header]
      generalize ldeleteStep (n + 1) e = r at hshows hchars hlog' ⊢
      obtain ⟨e', chars⟩ := r
      dsimp only at hshows hchars hlog' ⊢
      subst hchars
      obtain ⟨vss, hflat, hnil, hlast⟩ := ih (n + 1 - d.length) hshows (by omega) hlen hlog'
      refine ⟨d :: vss, ?_, ?_, ?_⟩
      · rw [List.flatten_cons, hflat, htake]
      · intro hmem
        rcases List.mem_cons.mp hmem with hd | hmem
        · exact hne hd.symm
        · exact hnil hmem
      · rwa [List.append_assoc, List.singleton_append] at hlast

theorem insertLine_undo (dot : POS) (offset : Nat) (text : List Byte) (e : Ed) :
    (insertLine dot offset text e).1.undoing = e.undoing ∧
      (insertLine dot offset text e).1.start = e.start ∧
      (insertLine dot offset text e).1.b_undo = e.b_undo := by
  unfold insertLine
  dsimp only
  split
  · exact ⟨rfl, rfl, rfl⟩
  · split <;> exact ⟨rfl, rfl, rfl⟩

/-- An insertion does not join a deletion. -/
theorem Logged.joinsLast {w : List UChar} (h : Logged st pos (acts ++ [deletion w]) e)
    (p : Option (Nat × Nat)) : e.joinsLast p = false := by
  obtain ⟨-, flag, gs, hgs⟩ := h.some (by simp)
  have hlast : e.b_undo.lastundo = Option.some ⟨if acts = [] then Option.some pos else Option.none,
      saved (deletion w)⟩ := by
    rw [UNDOSTACK.lastundo, hgs, records_snoc]
    simp
  unfold Ed.joinsLast
  rw [hlast]
  rfl

/-- **An insertion** after a deletion saves what it inserts. -/
theorem linsert_logged {w ws : List UChar} (h : Shows e z) (hro : e.bfro = false) (hws : Inline ws)
    (hlog : Logged st pos (acts ++ [deletion w]) e) :
    Logged st pos (acts ++ [deletion w] ++ [.ins ws.length ws]) (linsert (.str ws.flatten) e).1 := by
  have hlog' : Logged st pos (acts ++ [deletion w]) e.lchange := hlog.congr rfl rfl rfl
  have hsaved := hlog'.saveundo (k := (Insertion.str ws.flatten).saved) (spells_str hws).step
    fun _ _ _ _ => hlog'.joinsLast _
  rw [linsert_eq h hro]
  obtain ⟨h1, h2, h3⟩ := insertLine_undo (e.lchange.saveundo (Insertion.str ws.flatten).saved Option.none).dot
    (uoffset ((e.lchange.saveundo (Insertion.str ws.flatten).saved Option.none).line
      (e.lchange.saveundo (Insertion.str ws.flatten).saved Option.none).dot.p).l_text
      (e.lchange.saveundo (Insertion.str ws.flatten).saved Option.none).dot.o)
    (Insertion.str ws.flatten).bytes (e.lchange.saveundo (Insertion.str ws.flatten).saved Option.none)
  exact hsaved.congr h1 h2 h3

/-! ## Undoing a stretch -/

/-- The records after the first one are played where the cursor is. -/
theorem undo_rest (hacts : ∀ a ∈ acts, WholeAct a) (h : Writable e z) :
    Writable ((records none acts).foldl (fun e up => (undostep up e).1) e)
      (acts.foldl (fun z a => a.undo z) z) := by
  induction acts generalizing e z with
  | nil => exact h
  | cons a acts ih =>
    have hread : Reads ⟨none, saved a⟩ ⟨none, a⟩ := reads_saved (hacts a List.mem_cons_self) none
    have hgo : Shows (goundo ⟨none, saved a⟩ e).1 z ∧ (goundo ⟨none, saved a⟩ e).2 = true := by
      rw [goundo_none rfl]
      exact ⟨h.shows_, rfl⟩
    exact ih (fun b hb => hacts b (List.mem_cons_of_mem _ hb))
      ⟨(undostep_here hread hgo h.bfro).1, (undostep_bfro ..).trans h.bfro⟩

/-- The group of a command that saves no position of its own is one stretch. -/
theorem undo_records_eq {a : Act UChar} {flag : Bool} {gs : List UNDOGROUP} {p : Nat × Nat}
    (hgroup : e.b_undo.undolist = ⟨records (some p) (a :: acts), flag⟩ :: gs) :
    ∃ e', (undo e).1 = e' ∧
      ∀ z, Shows ((records (some p) (a :: acts)).foldl (fun e up => (undostep up e).1)
        { e with undoing := true }) z → Shows e' z := by
  refine ⟨_, rfl, fun z hz => ?_⟩
  have hnone : ∀ acts : List (Act UChar), ∀ u ∈ records none acts, u.pos.isSome = false := by
    intro acts
    induction acts with
    | nil => exact fun u hu => absurd hu List.not_mem_nil
    | cons a acts ih =>
      intro u hu
      rcases List.mem_cons.mp hu with rfl | hu
      · rfl
      · exact ih u hu
  have hplay := undoLoop_fst (records (some p) (a :: acts)).reverse []
    ({ e with undoing := true }, true)
  rw [records] at hplay hz hgroup
  have hone : Journal.playBack (fun up : UNDO => up.pos.isSome) (fun up e => (undostep up e).1)
      ([] ++ (⟨some p, saved a⟩ : UNDO) :: records none acts).reverse [] { e with undoing := true } =
      Journal.playBack (fun up : UNDO => up.pos.isSome) (fun up e => (undostep up e).1)
        ([] : List UNDO).reverse [] (((⟨some p, saved a⟩ : UNDO) :: records none acts).foldl
          (fun e up => (undostep up e).1) { e with undoing := true }) :=
    Journal.playBack_append _ rfl (hnone acts) _
  rw [List.nil_append, List.reverse_nil, Journal.playBack, List.foldl_nil] at hone
  rw [hone] at hplay
  unfold undo
  rw [hgroup]
  dsimp only
  generalize undoLoop _ [] ({ e with undoing := true }, true) = r at hplay ⊢
  obtain ⟨e', status⟩ := r
  dsimp only at hplay ⊢
  rw [← hplay] at hz
  exact hz.congr rfl rfl rfl rfl rfl

section Records

variable {a : Act UChar} {flag : Bool} {gs : List UNDOGROUP} {l o : Nat}

/-- All acts are taken back where the first record is played. -/
theorem undo_records_found {z' : Zipper UChar} (hacts : ∀ b ∈ a :: acts, WholeAct b)
    (hro : e.bfro = false)
    (hgroup : e.b_undo.undolist = ⟨records (some (l, o)) (a :: acts), flag⟩ :: gs)
    (hgo : Shows (goundo ⟨some (l, o), saved a⟩ { e with undoing := true }).1 z' ∧
      (goundo ⟨some (l, o), saved a⟩ { e with undoing := true }).2 = true) :
    Shows (undo e).1 ((a :: acts).foldl (fun z a => a.undo z) z') := by
  obtain ⟨e', hundo, hshows⟩ := undo_records_eq hgroup
  have hread : Reads ⟨some (l, o), saved a⟩ ⟨some (l, o), a⟩ :=
    reads_saved (hacts a List.mem_cons_self) _
  have hstep := undostep_here hread hgo hro
  have hall := undo_rest (fun b hb => hacts b (List.mem_cons_of_mem _ hb))
    ⟨hstep.1, (undostep_bfro ..).trans hro⟩
  rw [hundo]
  exact hshows _ hall.shows_

/-- **Undoing a stretch** at a position that is in the text. -/
theorem undo_records_at {l x : List UChar} (hacts : ∀ b ∈ a :: acts, WholeAct b) (h : Sound e)
    (hro : e.bfro = false) (htext : e.symbols = l ++ x) (hx : x ≠ [])
    (hgroup : e.b_undo.undolist =
      ⟨records (some (row isBreak l, col isBreak l)) (a :: acts), flag⟩ :: gs) :
    Shows (undo e).1 ((a :: acts).foldl (fun z a => a.undo z) ⟨l, x⟩) := by
  have hbegin : Sound { e with undoing := true } := ⟨h.nodup, h.header, h.fresh, h.inline, h.empty⟩
  exact undo_records_found hacts hro hgroup (goundo_shows hbegin htext hx rfl)

/-- **Undoing a stretch**: all acts are taken back where the position is, or at the start
of its line; without such a line all but the first are taken back where the cursor is. -/
theorem undo_records (hacts : ∀ b ∈ a :: acts, WholeAct b) (h : Writable e z)
    (hgroup : e.b_undo.undolist = ⟨records (some (l, o)) (a :: acts), flag⟩ :: gs) :
    (∃ P Q, z.text = P ++ Q ∧ Q ≠ [] ∧ row isBreak P = l ∧
      (col isBreak P = o ∨ col isBreak P = 0 ∧ (Q.takeWhile fun c => !isBreak c).length < o) ∧
      Shows (undo e).1 ((a :: acts).foldl (fun z a => a.undo z) ⟨P, Q⟩)) ∨
    (row isBreak z.text ≤ l ∧ ∃ z' : Zipper UChar,
      Shows (undo e).1 (acts.foldl (fun z a => a.undo z) z') ∧ z'.text = z.text) := by
  have hbegin : Shows { e with undoing := true } z := h.shows_.congr rfl rfl rfl rfl rfl
  rcases goundo_cases hbegin (u := ⟨some (l, o), saved a⟩) rfl with
    ⟨P, Q, htext, hQ, hrow, hcol, hgo⟩ | ⟨hrow, hfail, z', hgo, htext⟩
  · exact .inl ⟨P, Q, htext, hQ, hrow, hcol, undo_records_found hacts h.bfro hgroup hgo⟩
  · right
    obtain ⟨e', hundo, hshows⟩ := undo_records_eq hgroup
    have hstep : (undostep ⟨some (l, o), saved a⟩ { e with undoing := true }).1 =
        (goundo ⟨some (l, o), saved a⟩ { e with undoing := true }).1 := by
      unfold undostep
      generalize goundo ⟨some (l, o), saved a⟩ { e with undoing := true } = r at hfail ⊢
      obtain ⟨e', status⟩ := r
      dsimp only at hfail ⊢
      rw [hfail, Bool.not_false, if_pos rfl]
    have hall := undo_rest (fun b hb => hacts b (List.mem_cons_of_mem _ hb))
      ⟨hgo, (goundo_bfro ..).trans h.bfro⟩
    rw [hundo]
    refine ⟨hrow, z', hshows _ ?_, htext⟩
    rw [records, List.foldl_cons, hstep]
    exact hall.shows_

end Records

end Logging

/-- The acts of a deletion. -/
theorem deletions_acts (vss : List (List UChar)) :
    Journal.dels (vss.map deletion) = vss.flatten ∧ Journal.taken (vss.map deletion) = 0 := by
  induction vss with
  | nil => exact ⟨rfl, rfl⟩
  | cons w vss ih =>
    rw [List.map_cons, Journal.dels_cons, Journal.taken_cons, ih.1, ih.2]
    exact ⟨rfl, rfl⟩

/-- Taking back deletions inserts their words. -/
theorem undo_deletions (vss : List (List UChar)) (z : Zipper UChar) :
    (vss.map deletion).foldl (fun z a => a.undo z) z = z.insert vss.flatten := by
  obtain ⟨hdels, htaken⟩ := deletions_acts vss
  rw [Journal.foldl_undo, hdels, htaken, Zipper.delete_zero]

/-! ## Texts -/

/-- Two buffers have the same text if they show the same one. -/
theorem text_eq_iff (h : Sound e) (h' : Sound e') : e.text = e'.text ↔ e.symbols = e'.symbols := by
  have hflat : ∀ {e : Ed}, e.symbols = e.text.flatMap fun t => uchars t ++ [nl] := by
    intro e
    rw [Ed.text, List.flatMap_map]
    rfl
  have htext : ∀ {e : Ed}, Sound e → e.text = (e.lines.map e.chars).map List.flatten := by
    intro e he
    rw [Ed.text, List.map_map]
    exact List.map_congr_left fun q hq => (he.chars hq).2
  refine ⟨fun heq => by rw [hflat, hflat, heq], fun heq => ?_⟩
  rw [htext h, htext h', (h.symbols_eq_iff h'.lines_noBreak).mp (heq.trans (symbols_eq e'))]

/-- The lines around are the same ones. -/
theorem Sound.texts_eq (h : Sound e) (h' : Sound e') {as as' : List LineId}
    (has : ∀ p ∈ as, p ∈ e.lines) (has' : ∀ p ∈ as', p ∈ e'.lines)
    (heq : as.flatMap e.row = as'.flatMap e'.row) :
    (as.map fun p => (e.line p).l_text) = as'.map fun p => (e'.line p).l_text := by
  have htexts : ∀ {e : Ed} {as : List LineId}, Sound e → (∀ p ∈ as, p ∈ e.lines) →
      (as.map fun p => (e.line p).l_text) = (as.map e.chars).map List.flatten := by
    intro e as h has
    rw [List.map_map]
    exact List.map_congr_left fun p hp => (h.chars (has p hp)).2
  have hrows : ∀ {e : Ed} {as : List LineId},
      as.flatMap e.row = (as.map e.chars).flatMap (· ++ [nl]) := by
    intro e as
    rw [List.flatMap_map]
    rfl
  have hnone : ∀ {e : Ed} {as : List LineId}, Sound e → (∀ p ∈ as, p ∈ e.lines) →
      ∀ cs ∈ as.map e.chars, nl ∉ cs := by
    intro e as h has cs hcs
    obtain ⟨p, hp, rfl⟩ := List.mem_map.mp hcs
    exact (h.chars (has p hp)).1.noBreak
  rw [hrows, hrows, flatMap_nl_inj (hnone h has) (hnone h' has')] at heq
  rw [htexts h has, htexts h' has', heq]

/-- A line between the text above and the text below, and a text that has another one
there. -/
theorem Sound.text_set {A B cs ds : List UChar} (h : Sound e) (h' : Sound e')
    (hsym : e.symbols = A ++ (cs ++ nl :: B)) (hsym' : e'.symbols = A ++ (ds ++ nl :: B))
    (hA : col isBreak A = 0) (hcs : nl ∉ cs) (hds : nl ∉ ds) :
    e.text[row isBreak A]? = some cs.flatten ∧
      e'.text = e.text.set (row isBreak A) ds.flatten := by
  have hparts : ∀ {e : Ed} {cs : List UChar}, Sound e → e.symbols = A ++ (cs ++ nl :: B) → nl ∉ cs →
      ∃ as p bs, e.lines = as ++ p :: bs ∧ row isBreak A = as.length ∧ (e.line p).l_text = cs.flatten ∧
        A = as.flatMap e.row ∧ B = bs.flatMap e.row := by
    intro e cs h hsym hcs
    obtain ⟨as, p, bs, hl, hrow, -, hleft, hright⟩ := find_pos h.noBreak hsym (by simp)
    obtain ⟨hin, htext⟩ := h.chars (p := p) (by rw [hl]; simp)
    rw [hA, List.take_zero, List.append_nil] at hleft
    rw [hA, List.drop_zero, append_nl_inj hcs hin.noBreak] at hright
    exact ⟨as, p, bs, hl, hrow, by rw [htext, hright.1], hleft, hright.2⟩
  obtain ⟨as, p, bs, hl, hrow, htext, habove, hbelow⟩ := hparts h hsym hcs
  obtain ⟨as', p', bs', hl', -, htext', habove', hbelow'⟩ := hparts h' hsym' hds
  have hfront := h.texts_eq h' (fun q hq => by rw [hl]; simp [hq]) (fun q hq => by rw [hl']; simp [hq])
    (habove.symm.trans habove')
  have hback := h.texts_eq h' (fun q hq => by rw [hl]; simp [hq]) (fun q hq => by rw [hl']; simp [hq])
    (hbelow.symm.trans hbelow')
  have he : e.text = (as.map fun q => (e.line q).l_text) ++ cs.flatten ::
      bs.map fun q => (e.line q).l_text := by
    rw [Ed.text, hl, List.map_append, List.map_cons, htext]
  have he' : e'.text = (as.map fun q => (e.line q).l_text) ++ ds.flatten ::
      bs.map fun q => (e.line q).l_text := by
    rw [Ed.text, hl', List.map_append, List.map_cons, htext', hfront, hback]
  have hlen : row isBreak A = (as.map fun q => (e.line q).l_text).length := by
    rw [hrow, List.length_map]
  rw [he, he', hlen]
  refine ⟨?_, ?_⟩
  · rw [List.getElem?_append_right (Nat.le_refl _), Nat.sub_self]
    rfl
  · rw [List.set_append_right _ _ (Nat.le_refl _), Nat.sub_self]
    rfl

end Emacs
