import Zzdwm.Emacs.Region
import Zzdwm.Emacs.Replay
import Zzdwm.Lib.Circular
import Zzdwm.Lib.Journal

/-!
# The buffer as a text with a cursor

A buffer shows a text: the characters of its lines, with a newline after each of
them.  The cursor divides it.  The primitives edit the text at the cursor, whichever
line is allocated anew for it.

* `Sound`, `Shows` — a buffer of whole lines, and the text that it shows;
* `linsert_shows`, `lnewline_shows`, `ldelete_shows` — **the primitives** insert at
  the cursor and delete after it;
* `insertwithnl_shows` — a string with newlines in it;
* `gotoline_shows` — a position in the text is found again.
-/

namespace Emacs

open Journal (Zipper row col)

/-- The bytes of one character. -/
abbrev UChar := List Byte

/-- The newline, as a character. -/
def nl : UChar := [newline]

/-- Is it the newline? -/
def isBreak (c : UChar) : Bool := c = nl

/-- Whole characters, and no newline among them. -/
structure Inline (cs : List UChar) : Prop where
  whole : AllUChars cs
  noBreak : nl ∉ cs

/-- The characters of a line. -/
def Ed.chars (e : Ed) (p : LineId) : List UChar := uchars (e.line p).l_text

/-- The characters of a line, and its newline. -/
def Ed.row (e : Ed) (p : LineId) : List UChar := e.chars p ++ [nl]

/-- All characters of a buffer. -/
def Ed.symbols (e : Ed) : List UChar := e.lines.flatMap e.row

/-- A circle of lines that have been allocated, with whole characters in them. -/
structure Sound (e : Ed) : Prop where
  nodup : e.lines.Nodup
  header : e.b_linep ∉ e.lines
  fresh : ∀ p ∈ e.b_linep :: e.lines, p < e.nextline
  inline : ∀ p ∈ e.lines, ∃ cs, Inline cs ∧ (e.line p).l_text = cs.flatten
  empty : (e.line e.b_linep).l_text = []

/-- The buffer shows a text, and the cursor is on one of its lines. -/
structure Shows (e : Ed) (z : Zipper UChar) : Prop where
  sound : Sound e
  offset : e.dot.o ≤ (e.chars e.dot.p).length
  split : ∃ as bs, e.lines = as ++ e.dot.p :: bs ∧
    z = ⟨as.flatMap e.row ++ (e.chars e.dot.p).take e.dot.o,
      (e.chars e.dot.p).drop e.dot.o ++ nl :: bs.flatMap e.row⟩

variable {e e' : Ed} {z : Zipper UChar} {p q : LineId} {cs ds ws : List UChar}
  {as bs : List LineId}

/-! ## Characters -/

theorem Inline.nil : Inline [] := ⟨fun _ hc => absurd hc List.not_mem_nil, List.not_mem_nil⟩

theorem Inline.append (h : Inline cs) (h' : Inline ds) : Inline (cs ++ ds) :=
  ⟨h.whole.append h'.whole, fun hmem => (List.mem_append.mp hmem).elim h.noBreak h'.noBreak⟩

theorem Inline.take (h : Inline cs) (n : Nat) : Inline (cs.take n) :=
  ⟨h.whole.take n, fun hmem => h.noBreak (List.mem_of_mem_take hmem)⟩

theorem Inline.drop (h : Inline cs) (n : Nat) : Inline (cs.drop n) :=
  ⟨h.whole.drop n, fun hmem => h.noBreak (List.mem_of_mem_drop hmem)⟩

theorem Ed.chars_eq (h : (e.line p).l_text = cs.flatten) (hcs : Inline cs) : e.chars p = cs := by
  rw [Ed.chars, h, uchars_flatten hcs.whole]

theorem Sound.chars (h : Sound e) (hp : p ∈ e.lines) :
    Inline (e.chars p) ∧ (e.line p).l_text = (e.chars p).flatten := by
  obtain ⟨cs, hcs, htext⟩ := h.inline p hp
  rw [Ed.chars_eq htext hcs]
  exact ⟨hcs, htext⟩

theorem Shows.mem (h : Shows e z) : e.dot.p ∈ e.lines := by
  obtain ⟨as, bs, hl, -⟩ := h.split
  rw [hl]
  simp

theorem Shows.ne_header (h : Shows e z) : e.dot.p ≠ e.b_linep := fun heq =>
  h.sound.header (heq ▸ h.mem)

/-- The text of the line of the cursor, cut at the cursor. -/
theorem Shows.cut (h : Shows e z) :
    let l := (e.line e.dot.p).l_text
    let offset := uoffset l e.dot.o
    l.take offset = ((e.chars e.dot.p).take e.dot.o).flatten ∧
      l.drop offset = ((e.chars e.dot.p).drop e.dot.o).flatten := by
  obtain ⟨hin, htext⟩ := h.sound.chars h.mem
  dsimp only
  rw [htext]
  exact ⟨take_uoffset hin.whole _, drop_uoffset hin.whole _⟩

theorem Shows.text (h : Shows e z) : z.text = e.symbols := by
  obtain ⟨as, bs, hl, rfl⟩ := h.split
  rw [Ed.symbols, hl, Zipper.text, List.flatMap_append, List.flatMap_cons, Ed.row]
  simp only [List.append_assoc, List.nil_append, List.cons_append]
  rw [← List.append_assoc ((e.chars e.dot.p).take e.dot.o), List.take_append_drop]

theorem Shows.right_ne (h : Shows e z) : z.right ≠ [] := by
  obtain ⟨as, bs, -, rfl⟩ := h.split
  simp

theorem symbols_eq (e : Ed) : e.symbols = (e.lines.map e.chars).flatMap (· ++ [nl]) := by
  rw [Ed.symbols, List.flatMap_map]
  rfl

theorem Sound.lines_noBreak (h : Sound e) : ∀ l ∈ e.lines.map e.chars, nl ∉ l := by
  intro l hl
  obtain ⟨p, hp, rfl⟩ := List.mem_map.mp hl
  exact (h.chars hp).1.noBreak

/-- Where the first newline is. -/
theorem append_nl_inj {a b x y : List UChar} (ha : nl ∉ a) (hb : nl ∉ b) :
    a ++ nl :: x = b ++ nl :: y ↔ a = b ∧ x = y := by
  refine ⟨fun h => ?_, fun h => by rw [h.1, h.2]⟩
  induction a generalizing b with
  | nil =>
    cases b with
    | nil => exact ⟨rfl, (List.cons.inj h).2⟩
    | cons d b =>
      obtain ⟨rfl, -⟩ := List.cons.inj h
      exact absurd List.mem_cons_self hb
  | cons c a ih =>
    cases b with
    | nil =>
      obtain ⟨rfl, -⟩ := List.cons.inj h
      exact absurd List.mem_cons_self ha
    | cons d b =>
      obtain ⟨rfl, htail⟩ := List.cons.inj h
      obtain ⟨rfl, hxy⟩ := ih (fun hm => ha (List.mem_cons_of_mem _ hm))
        (fun hm => hb (List.mem_cons_of_mem _ hm)) htail
      exact ⟨rfl, hxy⟩

/-- A text says what its lines are. -/
theorem flatMap_nl_inj {as bs : List (List UChar)} (ha : ∀ l ∈ as, nl ∉ l) (hb : ∀ l ∈ bs, nl ∉ l) :
    as.flatMap (· ++ [nl]) = bs.flatMap (· ++ [nl]) ↔ as = bs := by
  refine ⟨fun h => ?_, fun h => by rw [h]⟩
  induction as generalizing bs with
  | nil =>
    cases bs with
    | nil => rfl
    | cons b bs => simp at h
  | cons a as ih =>
    cases bs with
    | nil => simp at h
    | cons b bs =>
      rw [List.flatMap_cons, List.flatMap_cons, List.append_assoc, List.append_assoc] at h
      obtain ⟨rfl, htail⟩ := (append_nl_inj (ha a List.mem_cons_self) (hb b List.mem_cons_self)).mp h
      rw [ih (fun l hl => ha l (List.mem_cons_of_mem _ hl))
        (fun l hl => hb l (List.mem_cons_of_mem _ hl)) htail]

theorem Sound.symbols_eq_iff {ls : List (List UChar)} (h : Sound e) (hls : ∀ l ∈ ls, nl ∉ l) :
    e.symbols = ls.flatMap (· ++ [nl]) ↔ e.lines.map e.chars = ls := by
  rw [symbols_eq e]
  exact flatMap_nl_inj h.lines_noBreak hls

/-- The lines around a line are other ones, and none of them is new. -/
theorem Sound.around (h : Sound e) (hl : e.lines = as ++ p :: bs) :
    p ∉ as ∧ p ∉ bs ∧ ∀ q ∈ as ++ bs, q ≠ p ∧ q ≠ e.nextline := by
  have hnd := h.nodup
  rw [hl] at hnd
  have hp := (List.nodup_cons.mp (List.perm_middle.nodup_iff.mp hnd)).1
  refine ⟨fun hmem => hp (List.mem_append_left _ hmem), fun hmem => hp (List.mem_append_right _ hmem),
    fun q hq => ⟨fun heq => hp (heq ▸ hq), ?_⟩⟩
  have hin : q ∈ e.lines := by
    rw [hl]
    exact List.perm_middle.mem_iff.mpr (List.mem_cons_of_mem _ hq)
  exact Nat.ne_of_lt (h.fresh q (List.mem_cons_of_mem _ hin))

theorem Sound.header_ne (h : Sound e) : e.b_linep ≠ e.nextline :=
  Nat.ne_of_lt (h.fresh _ List.mem_cons_self)

theorem flatMap_row_congr (h : ∀ q ∈ as, e'.line q = e.line q) :
    as.flatMap e'.row = as.flatMap e.row := by
  refine List.flatMap_congr fun q hq => ?_
  rw [Ed.row, Ed.row, Ed.chars, Ed.chars, h q hq]

/-! ## One line in place of another one -/

/-- What an edit within a line does: the line `p` is replaced by the line `q`, whose
characters are `cs`, and the cursor is put on it. -/
structure Replaces (e e' : Ed) (as bs : List LineId) (q : LineId) (cs : List UChar) (o : Nat) :
    Prop where
  lines : e'.lines = as ++ q :: bs
  others : ∀ p ∈ as ++ bs, e'.line p = e.line p
  header : e'.b_linep = e.b_linep ∧ e'.line e.b_linep = e.line e.b_linep
  text : (e'.line q).l_text = cs.flatten
  dot : e'.dot = ⟨q, o⟩

/-- The buffer after an edit within a line. -/
theorem Replaces.shows {o : Nat} (h : Replaces e e' as bs q cs o) (hs : Sound e)
    (hsub : ∀ p ∈ as ++ bs, p ∈ e.lines) (hnd : (as ++ q :: bs).Nodup) (hq : q ≠ e.b_linep)
    (hfresh : ∀ p ∈ e.b_linep :: (as ++ q :: bs), p < e'.nextline) (hcs : Inline cs)
    (ho : o ≤ cs.length) :
    Shows e' ⟨as.flatMap e.row ++ cs.take o, cs.drop o ++ nl :: bs.flatMap e.row⟩ := by
  have hchars : e'.chars q = cs := Ed.chars_eq h.text hcs
  have hlines := h.lines
  have hdot := h.dot
  refine ⟨⟨?_, ?_, ?_, ?_, ?_⟩, ?_, as, bs, ?_, ?_⟩
  · rwa [hlines]
  · rw [hlines, h.header.1]
    intro hmem
    rcases List.mem_append.mp hmem with hmem | hmem
    · exact hs.header (hsub _ (List.mem_append_left _ hmem))
    · rcases List.mem_cons.mp hmem with heq | hmem
      · exact hq heq.symm
      · exact hs.header (hsub _ (List.mem_append_right _ hmem))
  · rwa [hlines, h.header.1]
  · intro p hp
    rw [hlines] at hp
    by_cases hpq : p = q
    · exact ⟨cs, hcs, hpq ▸ h.text⟩
    · have hmem : p ∈ as ++ bs := by
        rcases List.mem_append.mp hp with hp | hp
        · exact List.mem_append_left _ hp
        · exact List.mem_append_right _ ((List.mem_cons.mp hp).resolve_left hpq)
      rw [h.others p hmem]
      exact hs.inline p (hsub p hmem)
  · rw [h.header.1, h.header.2]
    exact hs.empty
  · rw [hdot, hchars]
    exact ho
  · rw [hlines, hdot]
  · rw [hdot, hchars, flatMap_row_congr fun p hp => h.others p (List.mem_append_left _ hp),
      flatMap_row_congr fun p hp => h.others p (List.mem_append_right _ hp)]

/-- In a line that is there already. -/
theorem Replaces.shows_same {o : Nat} (h : Replaces e e' as bs p cs o) (hs : Sound e)
    (hsub : (as ++ p :: bs).Sublist e.lines) (hnext : e'.nextline = e.nextline)
    (hcs : Inline cs) (ho : o ≤ cs.length) :
    Shows e' ⟨as.flatMap e.row ++ cs.take o, cs.drop o ++ nl :: bs.flatMap e.row⟩ := by
  have hp : p ≠ e.b_linep := fun heq => hs.header (heq ▸ hsub.subset (by simp))
  have hmem : ∀ q ∈ as ++ bs, q ∈ e.lines := fun q hq =>
    hsub.subset (List.perm_middle.mem_iff.mpr (List.mem_cons_of_mem _ hq))
  refine h.shows hs hmem (hs.nodup.sublist hsub) hp (fun q hq => ?_) hcs ho
  rw [hnext]
  rcases List.mem_cons.mp hq with rfl | hq
  · exact hs.fresh _ List.mem_cons_self
  · exact hs.fresh q (List.mem_cons_of_mem _ (hsub.subset hq))

/-- In a new line. -/
theorem Replaces.shows_new {o : Nat} (h : Replaces e e' as bs e.nextline cs o) (hs : Sound e)
    (hsub : (as ++ bs).Sublist e.lines) (hnext : e'.nextline = e.nextline + 1) (hcs : Inline cs)
    (ho : o ≤ cs.length) :
    Shows e' ⟨as.flatMap e.row ++ cs.take o, cs.drop o ++ nl :: bs.flatMap e.row⟩ := by
  have hlt : ∀ q ∈ as ++ bs, q < e.nextline := fun q hq =>
    hs.fresh q (List.mem_cons_of_mem _ (hsub.subset hq))
  have hhead : e.b_linep < e.nextline := hs.fresh _ List.mem_cons_self
  have hnew : e.nextline ∉ as ++ bs := fun hmem => Nat.lt_irrefl _ (hlt _ hmem)
  have hnd : (as ++ e.nextline :: bs).Nodup :=
    List.perm_middle.nodup_iff.mpr (List.nodup_cons.mpr ⟨hnew, hs.nodup.sublist hsub⟩)
  refine h.shows hs (fun q hq => hsub.subset hq) hnd (Nat.ne_of_gt hhead) ?_ hcs ho
  intro q hq
  rw [hnext]
  rcases List.mem_cons.mp hq with rfl | hq
  · exact Nat.lt_succ_of_lt hhead
  · rcases List.mem_cons.mp (List.perm_middle.mem_iff.mp hq) with rfl | hq
    · exact Nat.lt_succ_self _
    · exact Nat.lt_succ_of_lt (hlt q hq)

/-- The text depends on the lines, the heap and the cursor only. -/
theorem Shows.congr (h : Shows e z) (hline : e'.line = e.line) (hnext : e'.nextline = e.nextline)
    (hhead : e'.b_linep = e.b_linep) (hlines : e'.lines = e.lines) (hdot : e'.dot = e.dot) :
    Shows e' z := by
  have hchars : e'.chars = e.chars := by
    funext p
    rw [Ed.chars, Ed.chars, hline]
  have hrow : e'.row = e.row := by
    funext p
    rw [Ed.row, Ed.row, hchars]
  obtain ⟨⟨h1, h2, h3, h4, h5⟩, ho, hsplit⟩ := h
  refine ⟨⟨?_, ?_, ?_, ?_, ?_⟩, ?_, ?_⟩
  · rwa [hlines]
  · rwa [hlines, hhead]
  · rwa [hlines, hhead, hnext]
  · rwa [hlines, hline]
  · rwa [hhead, hline]
  · rwa [hdot, hchars]
  · rwa [hlines, hdot, hchars, hrow]

/-! ## The primitives -/

section Saving

variable (e : Ed) (k : Saved) (pos : Option POS)

/-- Saving a record changes nothing but the undo stack and what `startsaveundo` has
noted. -/
theorem saveundo_eq : e.saveundo k pos = e ∨
    e.saveundo k pos = { e with b_undo := e.savestack k pos, start := none } := by
  unfold Ed.saveundo
  split
  · exact .inl rfl
  · exact .inr rfl

@[simp] theorem saveundo_line : (e.saveundo k pos).line = e.line := by
  rcases saveundo_eq e k pos with h | h <;> rw [h]

@[simp] theorem saveundo_nextline : (e.saveundo k pos).nextline = e.nextline := by
  rcases saveundo_eq e k pos with h | h <;> rw [h]

@[simp] theorem saveundo_b_linep : (e.saveundo k pos).b_linep = e.b_linep := by
  rcases saveundo_eq e k pos with h | h <;> rw [h]

@[simp] theorem saveundo_lines : (e.saveundo k pos).lines = e.lines := by
  rcases saveundo_eq e k pos with h | h <;> rw [h]

@[simp] theorem saveundo_curwp : (e.saveundo k pos).curwp = e.curwp := by
  rcases saveundo_eq e k pos with h | h <;> rw [h]

@[simp] theorem saveundo_dot : (e.saveundo k pos).dot = e.dot :=
  congrArg EWINDOW.w_dot (saveundo_curwp e k pos)

@[simp] theorem saveundo_bfro : (e.saveundo k pos).bfro = e.bfro := by
  rcases saveundo_eq e k pos with h | h <;> rw [h]

@[simp] theorem saveundo_undoing : (e.saveundo k pos).undoing = e.undoing := by
  rcases saveundo_eq e k pos with h | h <;> rw [h]

@[simp] theorem saveundo_chars : (e.saveundo k pos).chars = e.chars := by
  funext p
  rw [Ed.chars, Ed.chars, saveundo_line]

end Saving

/-- Saving a record leaves the text alone. -/
theorem Shows.saveundo (h : Shows e z) (k : Saved) (pos : Option POS) : Shows (e.saveundo k pos) z :=
  h.congr (saveundo_line ..) (saveundo_nextline ..) (saveundo_b_linep ..) (saveundo_lines ..)
    (saveundo_dot ..)

theorem Shows.lchange (h : Shows e z) : Shows e.lchange z := h.congr rfl rfl rfl rfl rfl

theorem saved_lines (hl : e.lines = as ++ e.dot.p :: bs) (k : Saved) (pos : Option POS) :
    (e.lchange.saveundo k pos).lines = as ++ (e.lchange.saveundo k pos).dot.p :: bs := by
  rw [saveundo_lines, saveundo_dot]
  exact hl

/-- What is inserted, as characters. -/
structure Insertion.Spells (a : Insertion) (ws : List UChar) : Prop where
  bytes : a.bytes = ws.flatten
  chars : a.chars = ws.length
  inline : Inline ws

theorem spells_str (hws : Inline ws) : (Insertion.str ws.flatten).Spells ws :=
  ⟨rfl, unslen_flatten hws.whole, hws⟩

theorem spells_copies (n : Nat) {c : Nat} (hc : c ≤ 0x7fffffff) (hnl : uputc c ≠ nl) :
    (Insertion.copies n c).Spells (List.replicate n (uputc c)) := by
  refine ⟨rfl, List.length_replicate.symm, AllUChars.replicate (uputc_isUChar hc) n, fun hmem => ?_⟩
  exact hnl (List.eq_of_mem_replicate hmem).symm

theorem map_replace (hp : p ∉ as) (hp' : p ∉ bs) (q : LineId) :
    (as ++ p :: bs).map (fun r => if r = p then q else r) = as ++ q :: bs := by
  have hkeep : ∀ rs : List LineId, p ∉ rs → rs.map (fun r => if r = p then q else r) = rs := by
    intro rs hrs
    refine (List.map_congr_left fun r hr => ?_).trans (List.map_id rs)
    have hne : r ≠ p := fun heq => hrs (heq ▸ hr)
    exact if_neg hne
  rw [List.map_append, List.map_cons, if_pos rfl, hkeep as hp, hkeep bs hp']

/-- The line that takes the place of the line of the cursor is that line, or a new one. -/
def Placed (e e' : Ed) (q : LineId) : Prop :=
  q = e.dot.p ∧ e'.nextline = e.nextline ∨ q = e.nextline ∧ e'.nextline = e.nextline + 1

/-- The buffer after an edit within the line of the cursor. -/
theorem Replaces.shows_placed {o : Nat} (h : Replaces e e' as bs q cs o) (hs : Sound e)
    (hl : e.lines = as ++ e.dot.p :: bs) (hq : Placed e e' q) (hcs : Inline cs)
    (ho : o ≤ cs.length) :
    Shows e' ⟨as.flatMap e.row ++ cs.take o, cs.drop o ++ nl :: bs.flatMap e.row⟩ := by
  rcases hq with ⟨rfl, hnext⟩ | ⟨rfl, hnext⟩
  · exact h.shows_same hs (hl ▸ List.Sublist.refl _) hnext hcs ho
  · refine h.shows_new hs ?_ hnext hcs ho
    rw [hl]
    exact (List.Sublist.refl as).append (List.sublist_cons_self _ bs)

/-- The characters of the line of the cursor with some inserted at the cursor. -/
def Ed.inserted (e : Ed) (ws : List UChar) : List UChar :=
  (e.chars e.dot.p).take e.dot.o ++ ws ++ (e.chars e.dot.p).drop e.dot.o

theorem Shows.inserted (h : Shows e z) (hws : Inline ws) :
    Inline (e.inserted ws) ∧ e.dot.o + ws.length ≤ (e.inserted ws).length ∧
      (e.inserted ws).take (e.dot.o + ws.length) = (e.chars e.dot.p).take e.dot.o ++ ws ∧
      (e.inserted ws).drop (e.dot.o + ws.length) = (e.chars e.dot.p).drop e.dot.o := by
  obtain ⟨hin, -⟩ := h.sound.chars h.mem
  have hlen : ((e.chars e.dot.p).take e.dot.o ++ ws).length = e.dot.o + ws.length := by
    rw [List.length_append, List.length_take, Nat.min_eq_left h.offset]
  refine ⟨((hin.take _).append hws).append (hin.drop _), ?_, ?_, ?_⟩
  · rw [Ed.inserted, List.length_append, hlen]
    exact Nat.le_add_right _ _
  · rw [Ed.inserted, ← hlen, List.take_left]
  · rw [Ed.inserted, ← hlen, List.drop_left]

/-- Making room in the line of the cursor, and moving the cursor. -/
theorem insertLine_replaces (h : Shows e z) (hl : e.lines = as ++ e.dot.p :: bs) {a : Insertion}
    (ha : a.Spells ws) :
    let r := insertLine e.dot (uoffset (e.line e.dot.p).l_text e.dot.o) a.bytes e
    let e' := r.1.allwind (insertWindow e.dot r.2 a.chars)
    ∃ q, Replaces e e' as bs q (e.inserted ws) (e.dot.o + ws.length) ∧ Placed e e' q := by
  obtain ⟨htake, hdrop⟩ := h.cut
  obtain ⟨has, hbs, hmem⟩ := h.sound.around hl
  have htext : (e.line e.dot.p).l_text.take (uoffset (e.line e.dot.p).l_text e.dot.o) ++ a.bytes ++
      (e.line e.dot.p).l_text.drop (uoffset (e.line e.dot.p).l_text e.dot.o) =
      (e.inserted ws).flatten := by
    rw [htake, hdrop, ha.bytes, Ed.inserted, List.flatten_append, List.flatten_append]
  have hdot : ∀ q, (insertWindow e.dot q a.chars true e.curwp).w_dot = ⟨q, e.dot.o + ws.length⟩ := by
    intro q
    show (if e.dot.p = e.dot.p then (⟨q, if true || e.dot.o > e.dot.o then e.dot.o + a.chars
      else e.dot.o⟩ : POS) else e.dot) = _
    rw [if_pos rfl, Bool.true_or, if_pos rfl, ha.chars]
  dsimp only
  unfold insertLine
  dsimp only
  rw [if_neg h.ne_header]
  split
  · -- the line is too short: a new one takes its place
    refine ⟨e.nextline, ⟨?_, fun q hq => ?_, ⟨rfl, ?_⟩, ?_, hdot _⟩, .inr ⟨rfl, rfl⟩⟩
    · show e.lines.map (fun r => if r = e.dot.p then e.nextline else r) = _
      rw [hl, map_replace has hbs]
    · exact Function.update_of_ne (hmem q hq).2 _ _
    · exact Function.update_of_ne h.sound.header_ne _ _
    · exact (congrArg LINE.l_text (Function.update_self e.nextline _ e.line)).trans htext
  · refine ⟨e.dot.p, ⟨hl, fun q hq => ?_, ⟨rfl, ?_⟩, ?_, hdot _⟩, .inl ⟨rfl, rfl⟩⟩
    · exact Function.update_of_ne (hmem q hq).1 _ _
    · exact Function.update_of_ne h.ne_header.symm _ _
    · exact (congrArg LINE.l_text (Function.update_self e.dot.p _ e.line)).trans htext

theorem insertLine_shows (h : Shows e z) {a : Insertion} (ha : a.Spells ws) :
    let r := insertLine e.dot (uoffset (e.line e.dot.p).l_text e.dot.o) a.bytes e
    Shows (r.1.allwind (insertWindow e.dot r.2 a.chars)) (z.insert ws) := by
  obtain ⟨as, bs, hl, hz⟩ := h.split
  obtain ⟨q, hrep, hq⟩ := insertLine_replaces h hl ha
  obtain ⟨hin, ho, htake, hdrop⟩ := h.inserted ha.inline
  have hshows := hrep.shows_placed h.sound hl hq hin ho
  rw [htake, hdrop, ← List.append_assoc] at hshows
  rwa [hz, Zipper.insert]

/-- What `linsert` does to a buffer that may be changed. -/
theorem linsert_eq (h : Shows e z) (hro : e.bfro = false) (a : Insertion) :
    linsert a e =
      let s := e.lchange.saveundo a.saved none
      let r := insertLine s.dot (uoffset (s.line s.dot.p).l_text s.dot.o) a.bytes s
      (r.1.allwind (insertWindow s.dot r.2 a.chars), true) := by
  have hne : e.dot.p ≠ e.lchange.b_linep := h.ne_header
  have hwrite : (!e.checkreadonly) = false := by simp [Ed.checkreadonly, hro]
  unfold linsert
  rw [hwrite, if_neg Bool.false_ne_true]
  dsimp only
  rw [saveundo_b_linep, if_neg fun hand => hne hand.1, saveundo_dot, saveundo_line]
  rfl

/-- **`linsert`** inserts at the cursor. -/
theorem linsert_shows (h : Shows e z) (hro : e.bfro = false) {a : Insertion} (ha : a.Spells ws) :
    Shows (linsert a e).1 (z.insert ws) ∧ (linsert a e).2 = true := by
  rw [linsert_eq h hro]
  exact ⟨insertLine_shows (h.lchange.saveundo _ _) ha, rfl⟩

/-- What an edit does is seen from the state before its record was saved, too. -/
theorem Replaces.saved {o : Nat} {k : Saved} {pos : Option POS}
    (h : Replaces (e.lchange.saveundo k pos) e' as bs q cs o) : Replaces e e' as bs q cs o := by
  obtain ⟨h1, h2, h3, h4, h5⟩ := h
  rw [saveundo_line] at h2 h3
  rw [saveundo_b_linep] at h3
  exact ⟨h1, h2, h3, h4, h5⟩

theorem Placed.saved {k : Saved} {pos : Option POS} (h : Placed (e.lchange.saveundo k pos) e' q) :
    Placed e e' q := by
  unfold Placed at h
  rwa [saveundo_nextline, saveundo_dot] at h

/-- **`linsert`** touches the line of the cursor only. -/
theorem linsert_replaces (h : Shows e z) (hro : e.bfro = false) (hl : e.lines = as ++ e.dot.p :: bs)
    {a : Insertion} (ha : a.Spells ws) :
    ∃ q, Replaces e (linsert a e).1 as bs q (e.inserted ws) (e.dot.o + ws.length) ∧
      Placed e (linsert a e).1 q := by
  rw [linsert_eq h hro]
  dsimp only
  have hs := h.lchange.saveundo a.saved none
  obtain ⟨q, hrep, hq⟩ := insertLine_replaces hs (saved_lines hl _ _) ha
  refine ⟨q, ?_, hq.saved⟩
  have hsame : (e.lchange.saveundo a.saved none).inserted ws = e.inserted ws := by
    rw [Ed.inserted, Ed.inserted, saveundo_chars, saveundo_dot]
    rfl
  have hrep := hrep.saved
  rw [hsame, saveundo_dot] at hrep
  rw [saveundo_dot]
  exact hrep

/-- Adding a line in front of the line of the cursor. -/
theorem linkBefore_lines (h : Sound e) (hl : e.lines = as ++ p :: bs) (q : LineId) :
    (e.linkBefore p q).lines = as ++ q :: p :: bs := by
  obtain ⟨has, -, -⟩ := h.around hl
  have hp : p ≠ e.b_linep := fun heq => h.header (by rw [← heq, hl]; simp)
  show (if p = e.b_linep then e.lines ++ [q]
    else e.lines.takeWhile (· ≠ p) ++ q :: e.lines.dropWhile (· ≠ p)) = _
  rw [if_neg hp, hl, Circular.takeWhile_ne_append has, Circular.dropWhile_ne_append has]

/-- Splitting the line of the cursor, and moving the cursor. -/
theorem splitLine_shows (h : Shows e z) :
    Shows ((splitLine e.dot (uoffset (e.line e.dot.p).l_text e.dot.o) e).allwind
      fun _ => newlineWindow e.dot e.nextline) (z.insert [nl]) := by
  obtain ⟨htake, hdrop⟩ := h.cut
  obtain ⟨hin, -⟩ := h.sound.chars h.mem
  obtain ⟨as, bs, hl, hz⟩ := h.split
  obtain ⟨has, hbs, hmem⟩ := h.sound.around hl
  have hp : e.dot.p ≠ e.nextline :=
    Nat.ne_of_lt (h.sound.fresh _ (List.mem_cons_of_mem _ h.mem))
  generalize he' : (splitLine e.dot (uoffset (e.line e.dot.p).l_text e.dot.o) e).allwind
    (fun _ => newlineWindow e.dot e.nextline) = e'
  have hlines : e'.lines = as ++ e.nextline :: e.dot.p :: bs := by
    rw [← he', ← linkBefore_lines h.sound hl]
    rfl
  have hline : e'.line = Function.update (Function.update e.line e.nextline
      (lalloc ((e.chars e.dot.p).take e.dot.o).flatten)) e.dot.p
      { e.line e.dot.p with l_text := ((e.chars e.dot.p).drop e.dot.o).flatten } := by
    rw [← he', ← htake, ← hdrop]
    rfl
  have hnext : e'.nextline = e.nextline + 1 := by
    rw [← he']
    rfl
  have hhead : e'.b_linep = e.b_linep := by
    rw [← he']
    rfl
  have hdot : e'.dot = ⟨e.dot.p, 0⟩ := by
    rw [← he']
    show adjustfornewline e.dot e.nextline e.dot = _
    unfold adjustfornewline
    rw [if_pos rfl, if_neg (Nat.lt_irrefl _), Nat.sub_self]
  have hnewtext : (e'.line e.nextline).l_text = ((e.chars e.dot.p).take e.dot.o).flatten := by
    rw [hline, Function.update_of_ne hp.symm, Function.update_self]
    rfl
  have holdtext : (e'.line e.dot.p).l_text = ((e.chars e.dot.p).drop e.dot.o).flatten := by
    rw [hline, Function.update_self]
  have hother : ∀ q, q ≠ e.nextline → q ≠ e.dot.p → e'.line q = e.line q := by
    intro q hq hq'
    rw [hline, Function.update_of_ne hq', Function.update_of_ne hq]
  have hrow : ∀ rs : List LineId, (∀ q ∈ rs, q ∈ as ++ bs) → rs.flatMap e'.row = rs.flatMap e.row :=
    fun rs hrs => flatMap_row_congr fun q hq => hother q (hmem q (hrs q hq)).2 (hmem q (hrs q hq)).1
  have hnew : e.nextline ∉ e.lines := fun hmem =>
    Nat.lt_irrefl _ (h.sound.fresh _ (List.mem_cons_of_mem _ hmem))
  have hperm : (as ++ e.nextline :: e.dot.p :: bs).Perm (e.nextline :: e.lines) := by
    rw [hl]
    exact List.perm_middle
  refine ⟨⟨?_, ?_, ?_, ?_, ?_⟩, ?_, as ++ [e.nextline], bs, ?_, ?_⟩
  · rw [hlines]
    exact hperm.nodup_iff.mpr (List.nodup_cons.mpr ⟨hnew, h.sound.nodup⟩)
  · rw [hlines, hhead]
    intro hmem'
    rcases List.mem_cons.mp (hperm.mem_iff.mp hmem') with heq | hmem'
    · exact h.sound.header_ne heq
    · exact h.sound.header hmem'
  · intro q hq
    rw [hlines, hhead] at hq
    rw [hnext]
    rcases List.mem_cons.mp hq with rfl | hq
    · exact Nat.lt_succ_of_lt (h.sound.fresh _ List.mem_cons_self)
    · rcases List.mem_cons.mp (hperm.mem_iff.mp hq) with rfl | hq
      · exact Nat.lt_succ_self _
      · exact Nat.lt_succ_of_lt (h.sound.fresh q (List.mem_cons_of_mem _ hq))
  · intro q hq
    rw [hlines] at hq
    by_cases hqn : q = e.nextline
    · exact ⟨_, hin.take _, hqn ▸ hnewtext⟩
    · by_cases hqp : q = e.dot.p
      · rw [hqp]
        exact ⟨_, hin.drop _, holdtext⟩
      · rw [hother q hqn hqp]
        exact h.sound.inline q ((List.mem_cons.mp (hperm.mem_iff.mp hq)).resolve_left hqn)
  · rw [hhead, hother _ h.sound.header_ne h.ne_header.symm]
    exact h.sound.empty
  · rw [hdot]
    exact Nat.zero_le _
  · rw [hlines, hdot, List.append_assoc, List.singleton_append]
  · rw [hdot, List.flatMap_append, List.flatMap_singleton, List.take_zero, List.drop_zero,
      Ed.chars_eq holdtext (hin.drop _), Ed.row, Ed.chars_eq hnewtext (hin.take _), hz, Zipper.insert,
      hrow as fun q hq => List.mem_append_left _ hq, hrow bs fun q hq => List.mem_append_right _ hq]
    simp only [List.append_nil, List.append_assoc]

/-- **`lnewline`** inserts a newline at the cursor. -/
theorem lnewline_shows (h : Shows e z) (hro : e.bfro = false) :
    Shows (lnewline e).1 (z.insert [nl]) ∧ (lnewline e).2 = true := by
  have hwrite : (!e.checkreadonly) = false := by simp [Ed.checkreadonly, hro]
  have hs := splitLine_shows (h.lchange.saveundo (.UINSERT 1 1 [newline]) none)
  unfold lnewline
  rw [hwrite, if_neg Bool.false_ne_true]
  dsimp only
  rw [saveundo_dot, saveundo_line, saveundo_nextline] at hs
  rw [saveundo_nextline]
  exact ⟨hs, rfl⟩

/-- The characters after the cursor in its line. -/
def Ed.rest (e : Ed) : List UChar := (e.chars e.dot.p).drop e.dot.o

theorem Shows.rest_lt (h : Shows e z) : e.rest.length < z.right.length := by
  obtain ⟨as, bs, -, rfl⟩ := h.split
  show e.rest.length < (e.rest ++ nl :: bs.flatMap e.row).length
  rw [List.length_append, List.length_cons]
  omega

@[simp] theorem saveundo_rest (e : Ed) (k : Saved) (pos : Option POS) :
    (e.saveundo k pos).rest = e.rest := by
  rw [Ed.rest, Ed.rest, saveundo_chars, saveundo_dot]

/-- Deleting characters of the line of the cursor, and keeping the cursor there. -/
theorem deleteLine_replaces (h : Shows e z) (hl : e.lines = as ++ e.dot.p :: bs) (k : Nat) :
    let e' := (e.setLine e.dot.p { e.line e.dot.p with
        l_text := ((e.chars e.dot.p).take e.dot.o).flatten ++ (e.rest.drop k).flatten }).allwind
      fun _ => deleteWindow e.dot k
    Replaces e e' as bs e.dot.p ((e.chars e.dot.p).take e.dot.o ++ e.rest.drop k) e.dot.o ∧
      Placed e e' e.dot.p := by
  obtain ⟨-, -, hmem⟩ := h.sound.around hl
  have hdot : (deleteWindow e.dot k e.curwp).w_dot = ⟨e.dot.p, e.dot.o⟩ := by
    show adjustfordelete e.dot k e.dot = e.dot
    unfold adjustfordelete
    rw [if_pos ⟨rfl, Nat.le_refl _⟩, Nat.max_eq_right (Nat.sub_le _ _)]
  refine ⟨⟨hl, fun q hq => ?_, ⟨rfl, ?_⟩, ?_, hdot⟩, .inl ⟨rfl, rfl⟩⟩
  · exact Function.update_of_ne (hmem q hq).1 _ _
  · exact Function.update_of_ne h.ne_header.symm _ _
  · refine (congrArg LINE.l_text (Function.update_self e.dot.p _ e.line)).trans ?_
    rw [List.flatten_append]

theorem Shows.remaining (h : Shows e z) (k : Nat) :
    Inline ((e.chars e.dot.p).take e.dot.o ++ e.rest.drop k) ∧
      ((e.chars e.dot.p).take e.dot.o).length = e.dot.o := by
  obtain ⟨hin, -⟩ := h.sound.chars h.mem
  refine ⟨(hin.take _).append ((hin.drop _).drop _), ?_⟩
  rw [List.length_take, Nat.min_eq_left h.offset]

theorem deleteLine_shows (h : Shows e z) {k : Nat} (hk : k ≤ e.rest.length) :
    Shows ((e.setLine e.dot.p { e.line e.dot.p with
        l_text := ((e.chars e.dot.p).take e.dot.o).flatten ++ (e.rest.drop k).flatten }).allwind
      fun _ => deleteWindow e.dot k) (z.delete k) := by
  have hlt := h.rest_lt
  obtain ⟨as, bs, hl, hz⟩ := h.split
  obtain ⟨hrep, hplaced⟩ := deleteLine_replaces h hl k
  obtain ⟨hcs, hlen⟩ := h.remaining k
  have hshows := hrep.shows_placed h.sound hl hplaced hcs (by
    rw [List.length_append, hlen]
    exact Nat.le_add_right _ _)
  rw [List.take_left' hlen, List.drop_left' hlen] at hshows
  rw [hz] at hlt ⊢
  rw [Zipper.delete_of_lt (Nat.lt_of_le_of_lt hk hlt)]
  have hdrop : (e.rest ++ nl :: bs.flatMap e.row).drop k = e.rest.drop k ++ nl :: bs.flatMap e.row :=
    List.drop_append_of_le_length hk
  rw [Ed.rest] at hdrop
  rw [hdrop]
  exact hshows

/-- The line after the line of the cursor. -/
theorem Shows.lforw (h : Shows e z) (hl : e.lines = as ++ e.dot.p :: bs) :
    e.lforw e.dot.p = bs.headD e.b_linep := by
  obtain ⟨has, -, -⟩ := h.sound.around hl
  show Circular.next e.b_linep e.lines e.dot.p = _
  rw [hl, Circular.next_append has h.ne_header]

/-- On the last line `ldelnewline` does nothing. -/
theorem ldelnewline_last (h : Shows e z) (hl : e.lines = as ++ [e.dot.p]) : ldelnewline e = e := by
  have hforw : e.lforw e.dot.p = e.b_linep := h.lforw hl
  unfold ldelnewline
  dsimp only
  rw [if_pos hforw]

/-- Joining the line of the cursor with the next one: both go into the first one, or into a
new one. -/
theorem ldelnewline_replaces (h : Shows e z) (hl : e.lines = as ++ e.dot.p :: q :: bs) :
    ∃ r, Placed e (ldelnewline e) r ∧
      Replaces e (ldelnewline e) as bs r (e.chars e.dot.p ++ e.chars q) e.dot.o := by
  have hforw := h.lforw hl
  rw [List.headD_cons] at hforw
  have hq : q ∈ e.lines := by
    rw [hl]
    simp
  obtain ⟨-, htext⟩ := h.sound.chars h.mem
  obtain ⟨-, htext'⟩ := h.sound.chars hq
  have hne : q ≠ e.b_linep := fun heq => h.sound.header (heq ▸ hq)
  obtain ⟨has, hbs, hmem⟩ := h.sound.around hl
  have hl' : e.lines = (as ++ [e.dot.p]) ++ q :: bs := by
    rw [hl]
    simp
  obtain ⟨hqas, -, -⟩ := h.sound.around hl'
  have hqp : e.dot.p ≠ q := fun heq => hqas (by rw [← heq]; simp)
  have herase : e.lines.erase q = as ++ e.dot.p :: bs := by
    rw [hl', List.erase_append_right _ hqas, List.erase_cons_head, List.append_assoc]
    rfl
  have hother : ∀ r ∈ as ++ bs, r ≠ e.dot.p ∧ r ≠ e.nextline := by
    intro r hr
    refine hmem r ?_
    rcases List.mem_append.mp hr with hr | hr
    · exact List.mem_append_left _ hr
    · exact List.mem_append_right _ (List.mem_cons_of_mem _ hr)
  have hflat : (e.line e.dot.p).l_text ++ (e.line q).l_text =
      (e.chars e.dot.p ++ e.chars q).flatten := by
    rw [htext, htext', List.flatten_append]
  unfold ldelnewline
  dsimp only
  rw [hforw, if_neg hne]
  split
  · -- the next line fits into the room of this one
    refine ⟨e.dot.p, .inl ⟨rfl, rfl⟩, herase, fun r hr => ?_, ⟨rfl, ?_⟩, ?_, ?_⟩
    · exact Function.update_of_ne (hother r hr).1 _ _
    · exact Function.update_of_ne h.ne_header.symm _ _
    · exact (congrArg LINE.l_text (Function.update_self e.dot.p _ e.line)).trans hflat
    · show (if e.dot.p = q then _ else e.dot) = _
      rw [if_neg hqp]
  · refine ⟨e.nextline, .inr ⟨rfl, rfl⟩, ?_, fun r hr => ?_, ⟨rfl, ?_⟩, ?_, ?_⟩
    · show (e.lines.erase q).map (fun r => if r = e.dot.p then e.nextline else r) = _
      rw [herase, map_replace has fun hmem => hbs (List.mem_cons_of_mem _ hmem)]
    · exact Function.update_of_ne (hother r hr).2 _ _
    · exact Function.update_of_ne h.sound.header_ne _ _
    · exact (congrArg LINE.l_text (Function.update_self e.nextline _ e.line)).trans hflat
    · show adjustfordelnewline e.dot.p q e.nextline (e.line e.dot.p).l_used e.dot = _
      unfold adjustfordelnewline
      rw [if_pos rfl]

/-- Joining the line of the cursor with the next one. -/
theorem ldelnewline_shows (h : Shows e z) (hend : e.rest = []) :
    Shows (ldelnewline e) (z.delete 1) := by
  obtain ⟨as, bs, hl, hz⟩ := h.split
  have hrest : (e.chars e.dot.p).drop e.dot.o = [] := hend
  have hoff : e.dot.o = (e.chars e.dot.p).length :=
    Nat.le_antisymm h.offset (List.drop_eq_nil_iff.mp hrest)
  cases bs with
  | nil =>
    have hdel : z.delete 1 = z := by
      rw [hz, hrest]
      rfl
    rw [ldelnewline_last h hl, hdel]
    exact h
  | cons q bs =>
    have hcs : Inline (e.chars e.dot.p ++ e.chars q) :=
      (h.sound.chars h.mem).1.append (h.sound.chars (by rw [hl]; simp)).1
    have hresult : z.delete 1 = ⟨as.flatMap e.row ++
        (e.chars e.dot.p ++ e.chars q).take e.dot.o,
        (e.chars e.dot.p ++ e.chars q).drop e.dot.o ++ nl :: bs.flatMap e.row⟩ := by
      rw [hz, hrest, List.nil_append, List.flatMap_cons, Ed.row, hoff, List.take_length,
        List.take_left, List.drop_left, Zipper.delete_of_lt (by
          rw [List.length_cons, List.length_append, List.length_append, List.length_singleton]
          omega)]
      simp
    have ho : e.dot.o ≤ (e.chars e.dot.p ++ e.chars q).length := by
      rw [List.length_append]
      exact Nat.le_trans h.offset (Nat.le_add_right _ _)
    have hsub : (as ++ e.dot.p :: bs).Sublist e.lines := by
      rw [hl]
      exact (List.Sublist.refl as).append ((List.sublist_cons_self q bs).cons_cons _)
    obtain ⟨r, hplaced, hrep⟩ := ldelnewline_replaces h hl
    rw [hresult]
    rcases hplaced with ⟨rfl, hnext⟩ | ⟨rfl, hnext⟩
    · exact hrep.shows_same h.sound hsub hnext hcs ho
    · refine hrep.shows_new h.sound ?_ hnext hcs ho
      exact ((List.Sublist.refl as).append (List.sublist_cons_self _ bs)).trans hsub

theorem wllength_eq (e : Ed) (p : LineId) (h : ∃ cs, Inline cs ∧ (e.line p).l_text = cs.flatten) :
    (e.line p).wllength = (e.chars p).length := by
  obtain ⟨cs, hcs, htext⟩ := h
  rw [Ed.chars_eq htext hcs, LINE.wllength, htext, unslen_flatten hcs.whole]

/-- The lines above the cursor. -/
def Ed.above (e : Ed) : List LineId := e.lines.takeWhile (· ≠ e.dot.p)

/-- The lines below the cursor. -/
def Ed.below (e : Ed) : List LineId := (e.lines.dropWhile (· ≠ e.dot.p)).tail

/-- The text after the cursor.  There is none on the header line. -/
def Ed.after (e : Ed) : List UChar :=
  if e.dot.p = e.b_linep then [] else e.rest ++ nl :: e.below.flatMap e.row

theorem Sound.lines_eq (h : Sound e) (hp : e.dot.p ∈ e.lines) :
    e.lines = e.above ++ e.dot.p :: e.below := by
  obtain ⟨as, bs, hl, has, -⟩ := Circular.split_of_mem hp h.nodup
  have habove : e.above = as := by
    rw [Ed.above, hl, Circular.takeWhile_ne_append has]
  have hbelow : e.below = bs := by
    rw [Ed.below, hl, Circular.dropWhile_ne_append has, List.tail_cons]
  rw [habove, hbelow]
  exact hl

/-- On a line the text is what is above the cursor, in front of it and after it. -/
theorem Sound.shows_here (h : Sound e) (hp : e.dot.p ∈ e.lines)
    (ho : e.dot.o ≤ (e.line e.dot.p).wllength) :
    Shows e ⟨e.above.flatMap e.row ++ (e.chars e.dot.p).take e.dot.o, e.after⟩ := by
  rw [wllength_eq e e.dot.p (h.inline _ hp)] at ho
  refine ⟨h, ho, e.above, e.below, h.lines_eq hp, ?_⟩
  have hne : e.dot.p ≠ e.b_linep := fun heq => h.header (heq ▸ hp)
  rw [Ed.after, if_neg hne]
  rfl

/-- What a round of the loop of `ldelete` deletes, for `n` characters that are still to
be deleted: as many of the line as are there, or the newline. -/
def Ed.deleted (e : Ed) (n : Nat) : List UChar := if e.rest = [] then [nl] else e.rest.take n

theorem deleted_pos (e : Ed) {n : Nat} (hn : 0 < n) :
    0 < (e.deleted n).length ∧ (e.deleted n).length ≤ n := by
  unfold Ed.deleted
  split
  · exact ⟨Nat.one_pos, hn⟩
  · rename_i hne
    have hpos := List.length_pos_iff.mpr hne
    rw [List.length_take]
    omega

/-- How a round of the loop of `ldelete` cuts the rest of the line, in characters. -/
theorem rest_cut (h : Shows e z) {n : Nat} (hn : 0 < n) :
    let cp1 := (e.line e.dot.p).l_text.drop (uoffset (e.line e.dot.p).l_text e.dot.o)
    let chars := if unslen cp1 > n then n else unslen cp1
    let bytes := if unslen cp1 > n then unblen cp1 n else cp1.length
    (chars = 0 ↔ e.rest = []) ∧ (e.rest ≠ [] → chars = (e.deleted n).length) ∧
      (e.rest ≠ [] → cp1.take bytes = (e.deleted n).flatten) ∧
      cp1.drop bytes = (e.rest.drop (e.rest.take n).length).flatten := by
  obtain ⟨hin, -⟩ := h.sound.chars h.mem
  obtain ⟨-, hdrop⟩ := h.cut
  have hrest : Inline e.rest := hin.drop _
  have hcp : (e.line e.dot.p).l_text.drop (uoffset (e.line e.dot.p).l_text e.dot.o) =
      e.rest.flatten := hdrop
  have hbytes : (if e.rest.length > n then unblen e.rest.flatten n else e.rest.flatten.length) =
      (e.rest.take n).flatten.length := by
    split
    · exact uoffset_flatten hrest.whole n
    · rw [List.take_of_length_le (by omega)]
  have hflat : e.rest.flatten = (e.rest.take n).flatten ++ (e.rest.drop n).flatten := by
    rw [← List.flatten_append, List.take_append_drop]
  have hsame : e.rest.drop (e.rest.take n).length = e.rest.drop n := by
    rw [List.length_take]
    rcases Nat.le_total n e.rest.length with hle | hle
    · rw [Nat.min_eq_left hle]
    · rw [Nat.min_eq_right hle, List.drop_length, List.drop_eq_nil_of_le hle]
  have hdeleted : e.rest ≠ [] → e.deleted n = e.rest.take n := fun hne => if_neg hne
  dsimp only
  rw [hcp, unslen_flatten hrest.whole, hbytes]
  refine ⟨?_, fun hne => ?_, fun hne => ?_, ?_⟩
  · rw [← List.length_eq_zero_iff]
    split <;> omega
  · rw [hdeleted hne, List.length_take]
    split <;> omega
  · rw [hdeleted hne, hflat, List.take_left]
  · rw [hsame, hflat, List.drop_left]

/-- A round of the loop of `ldelete` in characters: the newline goes, or some of the
line. -/
theorem ldeleteStep_eq (h : Shows e z) {n : Nat} (hn : 0 < n) :
    ldeleteStep n e =
      let k := Saved.UDELETE (e.deleted n).length (e.deleted n).flatten
      let s := e.lchange.saveundo k none
      (if e.rest = [] then (ldelnewline e.lchange).saveundo k none
        else (s.setLine s.dot.p { s.line s.dot.p with
          l_text := ((s.chars s.dot.p).take s.dot.o).flatten ++
            (s.rest.drop (e.deleted n).length).flatten }).allwind
              fun _ => deleteWindow s.dot (e.deleted n).length, (e.deleted n).length) := by
  obtain ⟨htake, -⟩ := h.cut
  obtain ⟨hzero, hchars, hwords, hcut⟩ := rest_cut h hn
  unfold ldeleteStep
  dsimp only at hzero hchars hwords hcut ⊢
  by_cases hnil : e.rest = []
  · have hdel : e.deleted n = [nl] := if_pos hnil
    rw [if_pos (hzero.mpr hnil), if_pos hnil, hdel]
    rfl
  · have hdel : e.deleted n = e.rest.take n := if_neg hnil
    rw [if_neg fun hz => hnil (hzero.mp hz), if_neg hnil, hwords hnil, hcut, hchars hnil, htake, hdel,
      saveundo_dot, saveundo_line, saveundo_chars, saveundo_rest]
    rfl

/-- A round of the loop of `ldelete`, as an edit of the text. -/
theorem ldeleteStep_shows (h : Shows e z) {n : Nat} (hn : 0 < n) :
    Shows (ldeleteStep n e).1 (z.delete (e.deleted n).length) ∧
      (ldeleteStep n e).2 = (e.deleted n).length := by
  rw [ldeleteStep_eq h hn]
  refine ⟨?_, rfl⟩
  dsimp only
  split
  · rename_i hnil
    have hdel : e.deleted n = [nl] := if_pos hnil
    rw [hdel]
    exact (ldelnewline_shows h.lchange hnil).saveundo _ _
  · rename_i hnil
    have hdel : e.deleted n = e.rest.take n := if_neg hnil
    refine deleteLine_shows (h.lchange.saveundo _ _) ?_
    rw [saveundo_rest, hdel]
    exact List.length_take_le' ..

/-- The loop of `ldelete`. -/
theorem ldeleteLoop_shows (h : Shows e z) (f n : Nat) (hf : n ≤ f) :
    Shows (ldeleteLoop f n e).1 (z.delete n) ∧ (ldeleteLoop f n e).2 = true := by
  induction f generalizing n e z with
  | zero =>
    obtain rfl : n = 0 := Nat.le_zero.mp hf
    rw [ldeleteLoop, Zipper.delete_zero]
    exact ⟨h, rfl⟩
  | succ f ih =>
    cases n with
    | zero =>
      rw [ldeleteLoop, Zipper.delete_zero]
      exact ⟨h, rfl⟩
    | succ n =>
      obtain ⟨hshows, hchars⟩ := ldeleteStep_shows (n := n + 1) h (by omega)
      obtain ⟨hpos, hle⟩ := deleted_pos e (n := n + 1) (by omega)
      rw [ldeleteLoop, if_neg h.ne_header]
      generalize ldeleteStep (n + 1) e = r at hshows hchars ⊢
      obtain ⟨e', chars⟩ := r
      dsimp only at hshows hchars ⊢
      have hrest := ih hshows (n + 1 - chars) (by omega)
      rw [Zipper.delete_delete, hchars, Nat.add_sub_cancel' hle] at hrest
      rwa [hchars]

/-- **`ldelete`** deletes after the cursor, up to the last newline. -/
theorem ldelete_shows (h : Shows e z) (hro : e.bfro = false) (n : Nat) :
    Shows (ldelete n e).1 (z.delete n) ∧ (ldelete n e).2 = true := by
  have hwrite : (!e.checkreadonly) = false := by simp [Ed.checkreadonly, hro]
  unfold ldelete
  rw [if_neg (by omega), hwrite, if_neg Bool.false_ne_true, Int.toNat_natCast]
  exact ldeleteLoop_shows h n n (Nat.le_refl n)

/-- **`ldelete`** of no more than the rest of the line is one round of its loop. -/
theorem ldelete_step (h : Shows e z) (hro : e.bfro = false) {k : Nat} (hk : 0 < k)
    (hle : k ≤ e.rest.length) :
    (e.deleted k).length = k ∧ e.deleted k = e.rest.take k ∧ e.rest ≠ [] ∧
      ldelete k e = ((ldeleteStep k e).1, true) := by
  have hwrite : (!e.checkreadonly) = false := by simp [Ed.checkreadonly, hro]
  have hne : e.rest ≠ [] := fun hnil => by
    rw [hnil, List.length_nil] at hle
    omega
  have hdel : e.deleted k = e.rest.take k := if_neg hne
  have hlen : (e.deleted k).length = k := by
    rw [hdel, List.length_take, Nat.min_eq_left hle]
  refine ⟨hlen, hdel, hne, ?_⟩
  have hstep := (ldeleteStep_shows h hk).2.trans hlen
  obtain ⟨k, rfl⟩ : ∃ m, k = m + 1 := ⟨k - 1, by omega⟩
  unfold ldelete
  rw [if_neg (by omega), hwrite, if_neg Bool.false_ne_true, Int.toNat_natCast, ldeleteLoop,
    if_neg h.ne_header]
  generalize ldeleteStep (k + 1) e = r at hstep ⊢
  obtain ⟨e', chars⟩ := r
  dsimp only at hstep ⊢
  rw [hstep, Nat.sub_self]
  cases k <;> rfl

/-- **`ldelete`** of no more than the rest of the line touches that line only. -/
theorem ldelete_replaces (h : Shows e z) (hro : e.bfro = false) (hl : e.lines = as ++ e.dot.p :: bs)
    {k : Nat} (hk : k ≤ e.rest.length) :
    Replaces e (ldelete k e).1 as bs e.dot.p ((e.chars e.dot.p).take e.dot.o ++ e.rest.drop k)
      e.dot.o ∧ Placed e (ldelete k e).1 e.dot.p := by
  cases k with
  | zero =>
    have hwrite : (!e.checkreadonly) = false := by simp [Ed.checkreadonly, hro]
    unfold ldelete
    rw [if_neg (by omega), hwrite, if_neg Bool.false_ne_true, Int.toNat_natCast]
    refine ⟨⟨hl, fun _ _ => rfl, ⟨rfl, rfl⟩, ?_, rfl⟩, .inl ⟨rfl, rfl⟩⟩
    rw [List.drop_zero, Ed.rest, List.take_append_drop]
    exact (h.sound.chars h.mem).2
  | succ k =>
    obtain ⟨hlen, -, hne, hone⟩ := ldelete_step h hro (Nat.succ_pos k) hk
    have hs := h.lchange.saveundo (.UDELETE (e.deleted (k + 1)).length (e.deleted (k + 1)).flatten) none
    obtain ⟨hrep, hplaced⟩ := deleteLine_replaces hs (saved_lines hl _ _) (k + 1)
    have hstate := congrArg Prod.fst (ldeleteStep_eq (n := k + 1) h (Nat.succ_pos k))
    dsimp only at hstate
    rw [if_neg hne, hlen] at hstate
    rw [hlen] at hrep hplaced
    have hrep := hrep.saved
    have hplaced := hplaced.saved
    rw [← hstate] at hrep hplaced
    rw [saveundo_dot, saveundo_chars, saveundo_rest] at hrep
    rw [saveundo_dot] at hplaced
    rw [hone]
    exact ⟨hrep, hplaced⟩

/-! ## Strings with newlines -/

/-- A string of whole characters is cut at the first newline among them. -/
theorem takeWhile_newline (hws : AllUChars ws) :
    ws.flatten.takeWhile (· ≠ newline) = (ws.takeWhile (· ≠ nl)).flatten ∧
      ws.flatten.dropWhile (· ≠ newline) = (ws.dropWhile (· ≠ nl)).flatten := by
  induction ws with
  | nil => exact ⟨rfl, rfl⟩
  | cons c ws ih =>
    have hc := hws c List.mem_cons_self
    obtain ⟨ihtake, ihdrop⟩ := ih fun d hd => hws d (List.mem_cons_of_mem _ hd)
    cases c with
    | nil => exact absurd hc id
    | cons b t =>
      by_cases hb : b = newline
      · have ht : t = [] := by
          have hlen := hc.1
          rw [hb] at hlen
          exact List.eq_nil_of_length_eq_zero (by simpa [uclen, newline] using hlen.symm)
        subst hb ht
        refine ⟨?_, ?_⟩
        · rw [List.takeWhile_cons_of_neg (by simp [nl]), List.flatten_cons, List.cons_append,
            List.takeWhile_cons_of_neg (by simp)]
          rfl
        · rw [List.dropWhile_cons_of_neg (by simp [nl]), List.flatten_cons, List.cons_append,
            List.dropWhile_cons_of_neg (by simp)]
      · have hne : (b :: t : UChar) ≠ nl := fun heq => hb (List.cons.inj heq).1
        have hall : ∀ x ∈ (b :: t : List Byte), decide (x ≠ newline) = true := by
          intro x hx
          refine decide_eq_true ?_
          rcases List.mem_cons.mp hx with rfl | hx
          · exact hb
          · exact fun heq => hc.2 (heq ▸ hx)
        rw [List.flatten_cons, List.takeWhile_append_of_pos hall, List.dropWhile_append_of_pos hall,
          List.takeWhile_cons_of_pos (by simpa using hne), List.dropWhile_cons_of_pos (by simpa using hne),
          List.flatten_cons, ihtake, ihdrop]
        exact ⟨rfl, rfl⟩

@[simp] theorem linsert_bfro (a : Insertion) (e : Ed) : (linsert a e).1.bfro = e.bfro := by
  unfold linsert
  split
  · rfl
  · dsimp only
    split
    · exact saveundo_bfro ..
    · unfold insertLine
      dsimp only
      split
      · exact saveundo_bfro ..
      · split <;> exact saveundo_bfro ..

@[simp] theorem lnewline_bfro (e : Ed) : (lnewline e).1.bfro = e.bfro := by
  unfold lnewline
  split
  · rfl
  · exact saveundo_bfro ..

/-- The loop of `insertwithnl`. -/
theorem insertwithnlLoop_shows (f : Nat) (hws : AllUChars ws) (hf : ws.flatten.length < f)
    (h : Shows e z) (hro : e.bfro = false) :
    Shows (insertwithnlLoop f ws.flatten e).1 (z.insert ws) ∧
      (insertwithnlLoop f ws.flatten e).2 = true := by
  induction f generalizing ws e z with
  | zero => omega
  | succ f ih =>
    rw [insertwithnlLoop]
    by_cases hnil : ws = []
    · subst hnil
      rw [List.flatten_nil, if_pos rfl, Zipper.insert, List.append_nil]
      exact ⟨h, rfl⟩
    · have hne : ws.flatten ≠ [] := by
        obtain ⟨c, cs, rfl⟩ := List.exists_cons_of_ne_nil hnil
        have hc := (hws c List.mem_cons_self).ne_nil
        simp [hc]
      obtain ⟨htake, hdrop⟩ := takeWhile_newline hws
      have hline : Inline (ws.takeWhile (· ≠ nl)) := by
        refine ⟨fun c hc => hws c (List.takeWhile_subset _ hc), fun hmem => ?_⟩
        have := List.mem_takeWhile_imp hmem
        simp at this
      have hsplit := List.takeWhile_append_dropWhile (p := fun c => decide (c ≠ nl)) (l := ws)
      rw [if_neg hne, htake, hdrop]
      dsimp only
      cases hd : ws.dropWhile (· ≠ nl) with
      | nil =>
        rw [hd, List.append_nil] at hsplit
        rw [List.flatten_nil, hsplit]
        rw [hsplit] at hline
        exact linsert_shows h hro (spells_str hline)
      | cons c rest =>
        have hc : c = nl := by
          have hhead := List.head?_dropWhile_not (fun c => decide (c ≠ nl)) ws
          rw [hd] at hhead
          simpa using hhead
        subst hc
        rw [hd] at hsplit
        have hlen : ws.flatten.length = (ws.takeWhile (· ≠ nl)).flatten.length + 1 + rest.flatten.length := by
          conv_lhs => rw [← hsplit]
          simp [nl]
          omega
        have hall : AllUChars rest := fun d hd' => hws d (by
          rw [← hsplit]
          exact List.mem_append_right _ (List.mem_cons_of_mem _ hd'))
        have hfirst : ∃ e', (if (ws.takeWhile (· ≠ nl)).flatten = [] then (e, true)
            else linsert (.str (ws.takeWhile (· ≠ nl)).flatten) e) = (e', true) ∧
            Shows e' (z.insert (ws.takeWhile (· ≠ nl))) ∧ e'.bfro = false := by
          split
          · rename_i hempty
            refine ⟨e, rfl, ?_, hro⟩
            have hnone : ws.takeWhile (· ≠ nl) = [] := by
              refine List.eq_nil_iff_forall_not_mem.mpr fun d hd' => ?_
              exact (hline.whole d hd').ne_nil (List.flatten_eq_nil_iff.mp hempty d hd')
            rw [hnone, Zipper.insert, List.append_nil]
            exact h
          · obtain ⟨hs, htrue⟩ := linsert_shows h hro (spells_str hline)
            exact ⟨_, Prod.ext rfl htrue, hs, (linsert_bfro ..).trans hro⟩
        obtain ⟨e', heq, hs', hro'⟩ := hfirst
        obtain ⟨hs'', htrue⟩ := lnewline_shows hs' hro'
        have hrest := ih hall (by omega) hs'' ((lnewline_bfro e').trans hro')
        have hcons : (nl :: rest : List UChar).flatten = newline :: rest.flatten := rfl
        have hzip : ((z.insert (ws.takeWhile (· ≠ nl))).insert [nl]).insert rest = z.insert ws := by
          conv_rhs => rw [← hsplit]
          simp [Zipper.insert]
        rw [hzip] at hrest
        rw [hcons]
        dsimp only
        rw [heq]
        dsimp only
        rw [Bool.not_true, if_neg Bool.false_ne_true]
        generalize lnewline e' = r at htrue hrest ⊢
        obtain ⟨e'', status⟩ := r
        dsimp only at htrue hrest ⊢
        rw [htrue, Bool.not_true, if_neg Bool.false_ne_true]
        exact hrest

/-- **`insertwithnl`** inserts a string of whole characters. -/
theorem insertwithnl_shows (hws : AllUChars ws) (h : Shows e z) (hro : e.bfro = false) :
    Shows (insertwithnl ws.flatten e).1 (z.insert ws) ∧ (insertwithnl ws.flatten e).2 = true :=
  insertwithnlLoop_shows _ hws (Nat.lt_succ_self _) h hro

/-- The buffer of some lines is a sound one. -/
theorem Ed.sound_holding {texts : List (List Byte)} {dot mark : POS}
    (hin : ∀ s ∈ texts, ∃ cs, Inline cs ∧ s = cs.flatten) : Sound (Ed.holding texts dot mark) where
  nodup := List.nodup_range'
  header := by
    intro hmem
    have hle := List.mem_range'_1.mp hmem
    simp [Ed.holding] at hle
  fresh := by
    intro p hp
    show p < texts.length + 2
    rcases List.mem_cons.mp hp with rfl | hp
    · exact Nat.succ_lt_succ (Nat.succ_pos _)
    · exact Nat.lt_of_lt_of_eq (List.mem_range'_1.mp hp).2 (Nat.add_comm _ _)
  inline := by
    intro p hp
    have hle := List.mem_range'_1.mp hp
    have htext : ((Ed.holding texts dot mark).line p).l_text = texts.getD (p - 2) [] := by
      show (if p < 2 then lallocx [] else lallocx (texts.getD (p - 2) [])).l_text = _
      rw [if_neg (Nat.not_lt.mpr hle.1)]
      rfl
    have hlt : p - 2 < texts.length := Nat.sub_lt_left_of_lt_add hle.1 hle.2
    rw [htext, List.getD_eq_getElem?_getD, List.getElem?_eq_getElem hlt]
    exact hin _ (List.getElem_mem _)
  empty := rfl

/-- So is the buffer of some lines of ASCII characters. -/
theorem Ed.sound_ascii {texts : List (List Byte)} {dot mark : POS}
    (hascii : ∀ t ∈ texts, ∀ b ∈ t, b < 0x80 ∧ b ≠ newline) : Sound (Ed.holding texts dot mark) := by
  refine Ed.sound_holding fun t ht => ⟨t.map ([·]), ⟨?_, ?_⟩, ?_⟩
  · intro c hc
    obtain ⟨b, hb, rfl⟩ := List.mem_map.mp hc
    exact ⟨if_pos (hascii t ht b hb).1, List.not_mem_nil⟩
  · intro hmem
    obtain ⟨b, hb, heq⟩ := List.mem_map.mp hmem
    exact (hascii t ht b hb).2 (List.cons.inj heq).1
  · rw [← List.flatMap_def, List.flatMap_singleton']

end Emacs
