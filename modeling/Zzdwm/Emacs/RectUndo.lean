import Zzdwm.Emacs.BackSearch
import Zzdwm.Emacs.Killing
import Zzdwm.Emacs.RectangleOps

/-!
# Undoing a command on a rectangle (`rectangle.c`)

Every edit of such a command saves its place first, so that all of them are one group of
records, each stretch of which says where it belongs.  One `undo` plays them back, whatever
tabs were expanded and whatever lines padded.  What fails is the count of `rectcutline`:
characters of several bytes make it delete more than it cuts.

* `Undoable` — the records carry the old text to the text, wherever the cursor is;
* `Recording.ldeleteLoop` — a deletion that may run past the end;
* `Undoable.rectcutline` — the records of a cut;
* `rectLines_reach` — the loop over the lines, up to the last one;
* `rect_undo_iff` — **one `undo` restores the text** exactly if no cut goes past its line,
  or past the text in the last one.
-/

namespace Emacs

open Journal (Zipper Act Rec Carries Writing Performs Stretch row col)

variable {e e' : Ed} {z : Zipper UChar} {us : List (Rec UChar)} {b : List UChar}
  {as bs : List LineId} {p q r : LineId} {ws : List UChar} {o : Nat}

/-- The records carry the text `b` to the text, wherever the cursor is. -/
structure Undoable (us : List (Rec UChar)) (b : List UChar) (e : Ed) : Prop where
  sound : Sound e
  bfro : e.bfro = false
  grouped : Grouped us e
  carries : Carries isBreak us b e.symbols

theorem Recorded.undoable (h : Recorded us b z e) : Undoable us b e :=
  ⟨h.writable.shows_.sound, h.writable.bfro, h.grouped, h.writable.shows_.text ▸ h.carries⟩

theorem Undoable.setDot (h : Undoable us b e) (pos : POS) : Undoable us b (e.setDot pos) :=
  ⟨h.sound.setDot pos, h.bfro, h.grouped.congr rfl rfl rfl, h.carries⟩

/-- The last record is not one that an insertion joins. -/
def EndsClosed (us : List (Rec UChar)) : Prop := ∃ us₀ r, us = us₀ ++ [r] ∧ Closed r.act

/-- The cursor is put somewhere, and that is saved: a stretch begins. -/
theorem Undoable.moved (h : Undoable us b e) (hl : e.lines = as ++ p :: bs)
    (ho : o ≤ (e.chars p).length) :
    ∃ us', EndsClosed us' ∧ Recording us' b
      ⟨as.flatMap e.row ++ (e.chars p).take o, (e.chars p).drop o ++ nl :: bs.flatMap e.row⟩
      (e.moved ⟨p, o⟩) := by
  have hat := h.sound.shows_at hl ho
  have hrec : Recorded us b _ (e.setDot ⟨p, o⟩) :=
    ⟨⟨hat, h.bfro⟩, h.grouped.congr rfl rfl rfl, hat.text ▸ h.carries⟩
  exact ⟨_, ⟨us, _, rfl, closed_move⟩, hrec.saveundo⟩

/-- An insertion. -/
theorem Recording.insert (h : Recording us b z e) (hus : EndsClosed us) {a : Insertion}
    (ha : a.Spells ws) : (Emacs.linsert a e).2 = true ∧
      ∃ us' z', us' ≠ [] ∧ Recorded us' b z' (Emacs.linsert a e).1 := by
  obtain ⟨us₀, r, rfl, hr⟩ := hus
  have hins := h.linsert hr ha
  exact ⟨(linsert_shows h.writable.shows_ h.writable.bfro ha).2, _, _, hins.some, hins.recorded⟩

/-- An insertion at a place of a line. -/
theorem Undoable.linsert (h : Undoable us b e) (hl : e.lines = as ++ p :: bs)
    (ho : o ≤ (e.chars p).length) {a : Insertion} (ha : a.Spells ws) :
    (Emacs.linsert a (e.moved ⟨p, o⟩)).2 = true ∧
      ∃ us' z, us' ≠ [] ∧ Recorded us' b z (Emacs.linsert a (e.moved ⟨p, o⟩)).1 := by
  obtain ⟨us', hus', hrec⟩ := h.moved hl ho
  exact hrec.insert hus' ha

/-- A round of the loop of `ldelete`.  At the last newline it saves a deletion that does
not take place. -/
theorem Recording.ldeleteStep {n : Nat} (h : Recording us b z e) (hn : 0 < n) :
    Recording (us ++ [⟨none, deletion (e.deleted n)⟩])
      (b ++ if (e.deleted n).length < z.right.length then [] else [nl])
      (z.delete (e.deleted n).length) (Emacs.ldeleteStep n e).1 := by
  obtain ⟨⟨hs, hro⟩, hgrouped, hwriting, hus⟩ := h
  have hdel := deleted_eq hs n
  have hwhole : WholeAct (deletion (e.deleted n)) := by
    intro c hc
    rw [hdel] at hc
    refine hs.sound.whole c ?_
    rw [← hs.text]
    exact List.mem_append_right _ (List.mem_of_mem_take hc)
  have hgroup : Grouped (us ++ [⟨none, deletion (e.deleted n)⟩]) (Emacs.ldeleteStep n e).1 := by
    have hsaved : ∀ {s : Ed}, Grouped us s → Grouped (us ++ [⟨none, deletion (e.deleted n)⟩])
        (s.saveundo (.UDELETE (e.deleted n).length (e.deleted n).flatten) none) := by
      intro s hs
      have hsave := hs.saveundo (q := none) (k := .UDELETE (e.deleted n).length
        (e.deleted n).flatten) (a := deletion (e.deleted n)) rfl hwhole
        fun _ _ _ heq => by cases heq
      rwa [hs.savepos_none hus] at hsave
    rw [ldeleteStep_eq hs hn]
    dsimp only
    split
    · obtain ⟨h₁, h₂, h₃⟩ := ldelnewline_undo e.lchange
      exact hsaved (hgrouped.congr h₁ h₂ h₃)
    · exact (hsaved (hgrouped.congr rfl rfl rfl : Grouped us e.lchange)).congr rfl rfl rfl
  have hbfro : (Emacs.ldeleteStep n e).1.bfro = false := by
    rw [ldeleteStep_bfro]
    exact hro
  have hshows := (ldeleteStep_shows hs hn).1
  obtain ⟨l, x⟩ := z
  dsimp only at hdel ⊢
  by_cases hlt : (e.deleted n).length < x.length
  · have hperf := Performs.del (e.deleted n) l (x := x.drop (e.deleted n).length)
      (List.length_pos_iff.mp (by rw [List.length_drop]; omega))
    have hx : e.deleted n ++ x.drop (e.deleted n).length = x := by
      have hall := List.take_append_drop (e.deleted n).length x
      rwa [← hdel] at hall
    rw [hx] at hperf
    have hnext := hwriting.next (r := ⟨none, deletion (e.deleted n)⟩) rfl hperf
    rw [if_pos hlt]
    rw [Zipper.delete_of_lt hlt] at hshows ⊢
    exact ⟨⟨hshows, hbfro⟩, hgroup, hnext, by simp⟩
  · -- the cursor is at the last newline
    have hrest := hs.rest_lt
    have hnil : e.rest = [] := by
      by_contra hne
      rw [Ed.deleted, if_neg hne, List.length_take] at hlt
      exact hlt (by change e.rest.length < x.length at hrest; omega)
    have hone : e.deleted n = [nl] := if_pos hnil
    rw [hone] at hdel hlt hgroup hshows ⊢
    have hx : x = [nl] := by
      have hle : x.length ≤ 1 := Nat.le_of_not_lt hlt
      rw [hdel, List.length_singleton, List.take_of_length_le hle]
    subst hx
    have hnext := hwriting.next (r := ⟨none, deletion [nl]⟩) rfl (Performs.past l nl)
    rw [if_neg hlt]
    exact ⟨⟨hshows, hbfro⟩, hgroup, hnext, by simp⟩

/-- **A deletion** from the cursor on.  For each character that it is asked to delete and
that is not there, undoing it adds a newline. -/
theorem Recording.ldeleteLoop (f n : Nat) (h : Recording us b z e) (hf : n ≤ f)
    (hus : EndsClosed us) :
    ∃ us', EndsClosed us' ∧ Recording us' (b ++ List.replicate (n - (z.right.length - 1)) nl)
      (z.delete n) (Emacs.ldeleteLoop f n e).1 := by
  induction f generalizing n e z us b with
  | zero =>
    obtain rfl : n = 0 := Nat.le_zero.mp hf
    rw [Emacs.ldeleteLoop, Zipper.delete_zero, Nat.zero_sub, List.replicate_zero, List.append_nil]
    exact ⟨us, hus, h⟩
  | succ f ih =>
    cases n with
    | zero =>
      rw [Emacs.ldeleteLoop, Zipper.delete_zero, Nat.zero_sub, List.replicate_zero, List.append_nil]
      exact ⟨us, hus, h⟩
    | succ n =>
      have hs := h.writable.shows_
      have hstep := h.ldeleteStep (Nat.succ_pos n)
      have hcount := (ldeleteStep_shows hs (Nat.succ_pos n)).2
      obtain ⟨hpos, hle⟩ := deleted_pos e (Nat.succ_pos n)
      have hlen : (e.deleted (n + 1)).length ≤ z.right.length := by
        have htake := congrArg List.length (deleted_eq hs (n + 1))
        rw [List.length_take] at htake
        omega
      have hright : (z.delete (e.deleted (n + 1)).length).right.length =
          z.right.length - min (e.deleted (n + 1)).length (z.right.length - 1) := List.length_drop
      rw [Emacs.ldeleteLoop, if_neg hs.ne_header]
      generalize hd : e.deleted (n + 1) = d at *
      generalize Emacs.ldeleteStep (n + 1) e = result at hstep hcount ⊢
      obtain ⟨e', chars⟩ := result
      dsimp only at hstep hcount ⊢
      obtain ⟨us', hus', hrec⟩ := ih (n + 1 - chars) hstep (by omega)
        ⟨us, _, rfl, closed_deletion d⟩
      rw [hcount, Zipper.delete_delete, Nat.add_sub_cancel' hle, List.append_assoc, hright] at hrec
      have hphantom : (if d.length < z.right.length then [] else [nl]) ++
          List.replicate
            (n + 1 - d.length - (z.right.length - min d.length (z.right.length - 1) - 1)) nl =
          List.replicate (n + 1 - (z.right.length - 1)) nl := by
        split
        · rw [List.nil_append]
          congr 1
          omega
        · rw [show ([nl] : List UChar) = List.replicate 1 nl from rfl, ← List.replicate_add]
          congr 1
          omega
      rw [hphantom] at hrec
      rw [hcount]
      exact ⟨us', hus', hrec⟩

/-- A deletion from a place of a line on. -/
theorem Undoable.ldelete (h : Undoable us b e) (hl : e.lines = as ++ p :: bs)
    (ho : o ≤ (e.chars p).length) (n : Nat) :
    (Emacs.ldelete n (e.moved ⟨p, o⟩)).2 = true ∧ ∃ us' z, EndsClosed us' ∧
      Recording us' (b ++ List.replicate
        (n - (((e.chars p).drop o).length + (bs.flatMap e.row).length)) nl) z
        (Emacs.ldelete n (e.moved ⟨p, o⟩)).1 := by
  obtain ⟨us', hus', hrec⟩ := h.moved hl ho
  have hro := hrec.writable.bfro
  have hwrite : (!(e.moved ⟨p, o⟩).checkreadonly) = false := by
    rw [Ed.checkreadonly, hro]
    rfl
  refine ⟨(ldelete_shows hrec.writable.shows_ hro n).2, ?_⟩
  obtain ⟨us'', hus'', hdel⟩ := hrec.ldeleteLoop n n (Nat.le_refl n) hus'
  rw [List.length_append, List.length_cons, ← Nat.add_assoc, Nat.add_sub_cancel] at hdel
  unfold Emacs.ldelete
  rw [if_neg (by omega), hwrite, if_neg Bool.false_ne_true, Int.toNat_natCast]
  exact ⟨us'', _, hus'', hdel⟩

/-! ## The lines above -/

/-- A line, with certain lines above it. -/
structure Beneath (as : List LineId) (header q : LineId) (e : Ed) : Prop where
  header : e.b_linep = header
  lines : ∃ bs, e.lines = as ++ q :: bs

theorem Edited.beneath {cs : List UChar} (h : Edited e e' as bs q cs) : Beneath as e.b_linep q e' :=
  ⟨h.header, bs, h.lines⟩

theorem Replaces.beneath {cs : List UChar} (h : Replaces e e' as bs q cs o) :
    Beneath as e.b_linep e'.dot.p e' :=
  ⟨h.header.1, bs, by rw [h.lines, h.dot]⟩

theorem ldeleteStep_beneath {n : Nat} (hs : Shows e z) (hn : 0 < n)
    (h : Beneath as r e.dot.p e) : Beneath as r (ldeleteStep n e).1.dot.p (ldeleteStep n e).1 := by
  obtain ⟨rfl, bs, hl⟩ := h
  rw [ldeleteStep_eq hs hn]
  dsimp only
  split
  · have hjoin : Beneath as e.b_linep (ldelnewline e.lchange).dot.p (ldelnewline e.lchange) := by
      cases bs with
      | nil =>
        rw [ldelnewline_last hs.lchange hl]
        exact ⟨rfl, [], hl⟩
      | cons q bs =>
        obtain ⟨p, -, hrep⟩ := ldelnewline_replaces hs.lchange hl
        exact hrep.beneath
    refine ⟨(saveundo_b_linep _ _ _).trans hjoin.header, ?_⟩
    rw [saveundo_lines, saveundo_dot]
    exact hjoin.lines
  · have hlines := saved_lines hl (.UDELETE (e.deleted n).length (e.deleted n).flatten) none
    have hshows := hs.lchange.saveundo (.UDELETE (e.deleted n).length (e.deleted n).flatten) none
    obtain ⟨hrep, -⟩ := deleteLine_replaces hshows hlines (e.deleted n).length
    have hbeneath := hrep.beneath
    rwa [saveundo_b_linep] at hbeneath

theorem ldeleteLoop_beneath {f n : Nat} (hs : Shows e z) (h : Beneath as r e.dot.p e) :
    Beneath as r (ldeleteLoop f n e).1.dot.p (ldeleteLoop f n e).1 := by
  induction f generalizing n e z with
  | zero => cases n <;> exact h
  | succ f ih =>
    cases n with
    | zero => exact h
    | succ n =>
      rw [ldeleteLoop, if_neg hs.ne_header]
      exact ih (ldeleteStep_shows hs (Nat.succ_pos n)).1 (ldeleteStep_beneath hs (Nat.succ_pos n) h)

theorem ldelete_beneath (n : Int) (hs : Shows e z) (h : Beneath as r e.dot.p e) :
    Beneath as r (ldelete n e).1.dot.p (ldelete n e).1 := by
  unfold ldelete
  split_ifs
  · exact h
  · exact h
  · exact ldeleteLoop_beneath hs h

theorem linsert_beneath {a : Insertion} (ha : a.Spells ws) (hs : Shows e z) (hro : e.bfro = false)
    (h : Beneath as r e.dot.p e) : Beneath as r (linsert a e).1.dot.p (linsert a e).1 := by
  obtain ⟨rfl, bs, hl⟩ := h
  obtain ⟨q, hrep, -⟩ := linsert_replaces hs hro hl ha
  exact hrep.beneath

/-! ## The records of a cut -/

/-- Records are added, unless nothing is done. -/
structure Advances (idle : Prop) (us us' : List (Rec UChar)) (e e' : Ed) : Prop where
  stays : idle → e' = e ∧ us' = us
  records : us ≠ [] ∨ ¬ idle → us' ≠ []

theorem Advances.refl {i : Prop} (hi : i) : Advances i us us e e :=
  ⟨fun _ => ⟨rfl, rfl⟩, fun h => h.resolve_right fun hnot => hnot hi⟩

theorem Advances.of_some {i : Prop} {us' : List (Rec UChar)} (hi : ¬ i) (hus : us' ≠ []) :
    Advances i us us' e e' :=
  ⟨fun h => absurd h hi, fun _ => hus⟩

theorem Advances.trans {i i' : Prop} {us₁ us₂ : List (Rec UChar)} {e₁ e₂ : Ed}
    (h : Advances i us us₁ e e₁) (h' : Advances i' us₁ us₂ e₁ e₂) :
    Advances (i ∧ i') us us₂ e e₂ := by
  refine ⟨fun ⟨hi, hi'⟩ => ?_, fun hsome => h'.records ?_⟩
  · obtain ⟨he, hus⟩ := h.stays hi
    obtain ⟨he', hus'⟩ := h'.stays hi'
    exact ⟨he'.trans he, hus'.trans hus⟩
  · by_cases hi' : i'
    · refine .inl (h.records (hsome.imp_right fun hnot hi => hnot ⟨hi, hi'⟩))
    · exact .inr hi'

theorem Advances.congr {i i' : Prop} {us' : List (Rec UChar)} (h : Advances i us us' e e')
    (hiff : i ↔ i') : Advances i' us us' e e' := by
  rwa [← propext hiff]

variable {w : Wcwidth} {tabsize : Nat} {goal s t : Int} {cs ds es : List UChar} {c : UChar}

variable (w tabsize) in
/-- The records of an expanded tab. -/
theorem Undoable.rectexpandtab (h : Undoable us b e) (hl : e.lines = as ++ p :: bs)
    (hcs : e.chars p = ds ++ c :: es) :
    ∃ us', us' ≠ [] ∧ Undoable us' b (Emacs.rectexpandtab w tabsize p ds.length e).1 := by
  have ho : ds.length ≤ (e.chars p).length := by
    rw [hcs, List.length_append]
    exact Nat.le_add_right _ _
  obtain ⟨htrue, us', z, hus', hrec⟩ := h.ldelete hl ho 1
  have hone : 1 - (((e.chars p).drop ds.length).length + (bs.flatMap e.row).length) = 0 := by
    rw [hcs, List.drop_left, List.length_cons]
    omega
  rw [hone, List.replicate_zero, List.append_nil] at hrec
  obtain ⟨-, us'', z', hne, hins⟩ := hrec.insert hus' (spells_spaces
    (tabWidth tabsize (wlcolumn w tabsize (e.lineText p) ds.length)).toNat)
  refine ⟨us'', hne, ?_⟩
  have hgo : ¬ (!(Emacs.ldelete (1 : Nat) (e.moved ⟨p, ds.length⟩)).2) = true := by
    rw [htrue]
    exact Bool.false_ne_true
  have hrun : Emacs.rectexpandtab w tabsize p ds.length e = Emacs.linsert (.copies
      (tabWidth tabsize (wlcolumn w tabsize (e.lineText p) ds.length)).toNat 0x20)
        (Emacs.ldelete (1 : Nat) (e.moved ⟨p, ds.length⟩)).1 := if_neg hgo
  rw [hrun]
  exact hins.undoable

variable (w tabsize goal) in
/-- The records of an edge. -/
theorem Undoable.expandEdge (h : Undoable us b e) (hl : e.lines = as ++ p :: bs) :
    ∃ us', Undoable us' b (Emacs.expandEdge w tabsize goal p e).1 ∧
      Advances (expandAt w tabsize goal 0 (e.chars p) = e.chars p) us us' e
        (Emacs.expandEdge w tabsize goal p e).1 := by
  rcases expandEdge_cases w tabsize h.sound (p := p) (by rw [hl]; simp) goal
    with
    ⟨hrun, hsame⟩ | ⟨ds, c, es, hcs, htab, hexpand, hrun⟩
  · rw [hrun]
    exact ⟨us, h, .refl hsame⟩
  · obtain ⟨us', hne, htabbed⟩ := h.rectexpandtab w tabsize hl hcs
    have hchanged : expandAt w tabsize goal 0 (e.chars p) ≠ e.chars p := by
      rw [hexpand, hcs]
      intro heq
      have htail := List.append_cancel_left heq
      have hone := congrArg List.length htail
      rw [List.length_append, List.length_replicate, List.length_cons] at hone
      have hwidth : (tabWidth tabsize (Cells.column (charCells w tabsize) 0 ds)).toNat = 1 := by
        omega
      rw [hwidth, List.replicate_one, List.singleton_append] at htail
      rw [← (List.cons.inj htail).1] at htab
      exact absurd htab (by decide)
    refine ⟨us', ?_, .of_some hchanged hne⟩
    rw [hrun]
    generalize Emacs.rectexpandtab w tabsize p ds.length e = result at htabbed ⊢
    obtain ⟨e', status⟩ := result
    cases status <;> exact htabbed

variable (w tabsize s t) in
/-- The records of the part of `rectcutline` behind the loop.  Undoing them adds a newline
for each byte that is counted beyond the text. -/
theorem Undoable.cutCells (blank : Bool) (h : Undoable us b e) (hl : e.lines = as ++ p :: bs)
    (hst : s ≤ t) :
    (Emacs.cutCells w tabsize p s t blank e).2 = true ∧ ∃ us',
      Undoable us' (b ++ List.replicate (cutBytes w tabsize s t (e.chars p) -
        ((fromEdge w tabsize s (e.chars p)).length + (bs.flatMap e.row).length)) nl)
        (Emacs.cutCells w tabsize p s t blank e).1 ∧
      Advances (cutCount w tabsize s t (e.chars p) = 0) us us' e
        (Emacs.cutCells w tabsize p s t blank e).1 := by
  rw [cutCells_eq w tabsize s t h.sound (by rw [hl]; simp) hst]
  by_cases hcount : cutCount w tabsize s t (e.chars p) = 0
  · rw [if_pos hcount, (cutBytes_zero hcount).1, Nat.zero_sub, List.replicate_zero, List.append_nil]
    exact ⟨rfl, us, h, .refl hcount⟩
  · have ho : (kept w tabsize s (e.chars p)).length ≤ (e.chars p).length := by
      rw [length_kept]
      exact Cells.offset_le
    have hdrop : (e.chars p).drop (kept w tabsize s (e.chars p)).length =
        fromEdge w tabsize s (e.chars p) := by
      rw [length_kept]
      rfl
    obtain ⟨htrue, us', z, hus', hrec⟩ := h.ldelete hl ho (cutBytes w tabsize s t (e.chars p))
    rw [hdrop] at hrec
    obtain ⟨hdone, us'', z', hne, hins⟩ := hrec.insert hus' (spells_spaces
      (cutWidth w tabsize s t (e.chars p)).toNat)
    rw [if_neg hcount]
    generalize Emacs.ldelete _ _ = result at htrue hrec hdone hins ⊢
    obtain ⟨e₁, status⟩ := result
    obtain rfl : status = true := htrue
    cases blank with
    | false => exact ⟨rfl, us', hrec.recorded.undoable, .of_some hcount hrec.some⟩
    | true => exact ⟨hdone, us'', hins.undoable, .of_some hcount hne⟩

/-- No tab is at an edge of a line, and nothing is between the edges. -/
def LeftAlone (w : Wcwidth) (tabsize : Nat) (s t : Int) (cs : List UChar) : Prop :=
  expandAt w tabsize s 0 cs = cs ∧ expandAt w tabsize t 0 cs = cs ∧ cutCount w tabsize s t cs = 0

/-- How many characters beyond the text a cut goes that has so many behind its line. -/
def overrun (w : Wcwidth) (tabsize : Nat) (s t : Int) (cs : List UChar) (below : Nat) : Nat :=
  cutBytes w tabsize s t (expanded w tabsize s t cs) -
    ((fromEdge w tabsize s (expanded w tabsize s t cs)).length + below)

variable (w tabsize s t) in
/-- **The records of `rectcutline`.** -/
theorem Undoable.rectcutline (blank : Bool) (h : Undoable us b e) (hl : e.lines = as ++ p :: bs)
    (hst : s ≤ t) :
    (Emacs.rectcutline w tabsize p s t blank e).2 = true ∧ ∃ us',
      Undoable us' (b ++ List.replicate
        (overrun w tabsize s t (e.chars p) (bs.flatMap e.row).length) nl)
        (Emacs.rectcutline w tabsize p s t blank e).1 ∧
      Advances (LeftAlone w tabsize s t (e.chars p)) us us' e
        (Emacs.rectcutline w tabsize p s t blank e).1 := by
  obtain ⟨e₁, q₁, hrun₁, -, hedit₁⟩ := expandEdge_edits w tabsize h.sound h.bfro hl s
  obtain ⟨us₁, hundo₁, hadv₁⟩ := h.expandEdge w tabsize s hl
  rw [hrun₁] at hundo₁ hadv₁
  dsimp only at hundo₁ hadv₁
  obtain ⟨e₂, q₂, hrun₂, -, hedit₂⟩ := expandEdge_edits w tabsize hundo₁.sound hundo₁.bfro
    hedit₁.lines t
  obtain ⟨us₂, hundo₂, hadv₂⟩ := hundo₁.expandEdge w tabsize t hedit₁.lines
  rw [hrun₂] at hundo₂ hadv₂
  dsimp only at hundo₂ hadv₂
  obtain ⟨htrue, us₃, hundo₃, hadv₃⟩ := hundo₂.cutCells w tabsize s t blank hedit₂.lines hst
  have hall := hedit₁.trans hedit₂
  have hchars : e₂.chars q₂ = expanded w tabsize s t (e.chars p) := by
    rw [hedit₂.chars, hedit₁.chars]
    rfl
  rw [hchars, hall.row_congr.2] at hundo₃
  have hrun : Emacs.rectcutline w tabsize p s t blank e =
      Emacs.cutCells w tabsize q₂ s t blank e₂ := by
    unfold Emacs.rectcutline
    rw [hrun₁]
    dsimp only
    rw [hrun₂]
  rw [hrun]
  refine ⟨htrue, us₃, hundo₃, ((hadv₁.trans hadv₂).trans hadv₃).congr ?_⟩
  rw [hchars, hedit₁.chars, expanded, and_assoc]
  refine and_congr_right fun hs => ?_
  rw [hs]
  exact and_congr_right fun ht => by rw [ht]

variable (w tabsize s t) in
/-- Whatever is cut, the lines above stay. -/
theorem rectcutline_beneath (blank : Bool) (h : Sound e) (hro : e.bfro = false)
    (hl : e.lines = as ++ p :: bs) (hst : s ≤ t) :
    ∃ q, Beneath as e.b_linep q (rectcutline w tabsize p s t blank e).1 ∧
      (e.dot.p = p → (rectcutline w tabsize p s t blank e).1.dot.p = q) := by
  obtain ⟨e₁, q₁, hrun, hdot, hedit⟩ := rectcutline_run w tabsize s t h hro hl
  rw [hrun, cutCells_eq w tabsize s t hedit.sound (by rw [hedit.lines]; simp) hst]
  split
  · exact ⟨q₁, hedit.beneath, hdot⟩
  · obtain ⟨hshows, hdot₁, hmoved⟩ := hedit.sound.moved
      (o := (kept w tabsize s (e₁.chars q₁)).length) hedit.lines (by
        rw [length_kept]
        exact Cells.offset_le)
    have hro₁ := hmoved.bfro.trans (hedit.bfro.trans hro)
    have hat : Beneath as e.b_linep (e₁.moved ⟨q₁, (kept w tabsize s (e₁.chars q₁)).length⟩).dot.p
        (e₁.moved ⟨q₁, (kept w tabsize s (e₁.chars q₁)).length⟩) := by
      rw [hdot₁]
      exact (hedit.trans hmoved).beneath
    have hcut := ldelete_beneath (cutBytes w tabsize s t (e₁.chars q₁)) hshows hat
    obtain ⟨hshows', -⟩ := ldelete_shows hshows hro₁ (cutBytes w tabsize s t (e₁.chars q₁))
    have hro₂ := (ldelete_bfro (cutBytes w tabsize s t (e₁.chars q₁)) _).trans hro₁
    generalize ldelete _ _ = result at hcut hshows' hro₂ ⊢
    obtain ⟨e₂, status⟩ := result
    dsimp only at hcut hshows' hro₂ ⊢
    split_ifs
    · exact ⟨_, hcut, fun _ => rfl⟩
    · exact ⟨_, linsert_beneath (spells_spaces _) hshows' hro₂ hcut, fun _ => rfl⟩
    · exact ⟨_, hcut, fun _ => rfl⟩

variable (w tabsize) in
/-- A cut that goes beyond its line frees the next one. -/
theorem rectcutline_gone (blank : Bool) (h : Sound e) (hro : e.bfro = false)
    (hl : e.lines = as ++ p :: r :: bs) (hst : s ≤ t)
    (hbig : overrun w tabsize s t (e.chars p) 0 ≠ 0) :
    Gone r (rectcutline w tabsize p s t blank e).1 := by
  obtain ⟨e₁, q₁, hrun, -, hedit⟩ := rectcutline_run w tabsize s t h hro hl
  rw [hrun]
  refine cutCells_gone hedit.sound (hedit.bfro.trans hro) hedit.lines hst blank ?_
  rw [hedit.chars]
  unfold overrun at hbig
  omega

/-! ## The lines of a rectangle -/

variable {edit : LineId → Ed → Ed × Bool} {bd : Bounds} {ms : List LineId} {n : Nat}

/-- `rectkill` has the loop of the other commands. -/
theorem rectkillLoop_eq (n : Nat) (lp : LineId) (e : Ed) :
    rectkillLoop w tabsize bd n lp e =
      (rectLines (fun lp => rectcutline w tabsize lp bd.s_col bd.e_col false) bd n lp e).map
        fun result => (result.1, result.2.2) := by
  induction n generalizing lp e with
  | zero => rfl
  | succ n ih =>
    rw [rectkillLoop, rectLines]
    split
    · rfl
    · dsimp only
      generalize rectcutline w tabsize lp bd.s_col bd.e_col false e = result
      obtain ⟨e', _ | _⟩ := result
      · rfl
      · dsimp only
        rw [if_neg (by decide)]
        split
        · rfl
        · rw [ih, Option.map_map]
          rfl

/-- The records and the lines when the loop gets to the last line of the rectangle. -/
structure AtLast (edit : LineId → Ed → Ed × Bool) (bd : Bounds) (b : List UChar)
    (as bs : List LineId) (n : Nat) (p : LineId) (idle : Prop) (us us' : List (Rec UChar))
    (e e' : Ed) : Prop where
  undoable : Undoable us' b e'
  lines : ∃ cs, e'.lines = (as ++ cs) ++ bd.last :: bs
  same : ∀ q ∈ bd.last :: bs, e'.line q = e.line q
  header : e'.b_linep = e.b_linep
  run : (rectLines edit bd n p e).map (fun result => (result.1, result.2.2)) =
    some (edit bd.last e')
  advances : Advances idle us us' e e'

/-- What an edit of a line does that may go some characters in `excess` beyond a line with
so many characters behind it.  Of an `Idle` line it does nothing. -/
structure EditsLines (edit : LineId → Ed → Ed × Bool) (b : List UChar)
    (excess : List UChar → Nat → Nat) (Idle : List UChar → Prop) : Prop where
  records : ∀ {us : List (Rec UChar)} {e : Ed} {as bs : List LineId} {p : LineId},
    Undoable us b e → e.lines = as ++ p :: bs → (edit p e).2 = true ∧ ∃ us',
      Undoable us' (b ++ List.replicate (excess (e.chars p) (bs.flatMap e.row).length) nl)
        (edit p e).1 ∧ Advances (Idle (e.chars p)) us us' e (edit p e).1
  within : ∀ {us : List (Rec UChar)} {e : Ed} {as bs : List LineId} {p : LineId},
    Undoable us b e → e.lines = as ++ p :: bs → excess (e.chars p) 0 = 0 →
      ∃ q cs, Edited e (edit p e).1 as bs q cs
  gone : ∀ {us : List (Rec UChar)} {e : Ed} {as bs : List LineId} {p r : LineId},
    Undoable us b e → e.lines = as ++ p :: r :: bs → excess (e.chars p) 0 ≠ 0 →
      r ∉ (edit p e).1.lines
  beneath : ∀ {us : List (Rec UChar)} {e : Ed} {as bs : List LineId} {p : LineId},
    Undoable us b e → e.lines = as ++ p :: bs → ∃ q, Beneath as e.b_linep q (edit p e).1
  less : ∀ cs n, excess cs n ≤ excess cs 0
  idle : ∀ cs, Idle cs → excess cs 0 = 0

/-- **The loop over the lines** gets to the last line, unless the edit of an earlier one
frees the next one. -/
theorem rectLines_reach {excess : List UChar → Nat → Nat} {Idle : List UChar → Prop}
    (hedit : EditsLines edit b excess Idle) (h : Undoable us b e)
    (hl : e.lines = as ++ p :: (ms ++ bs))
    (hlast : (p :: ms).getLast (List.cons_ne_nil p ms) = bd.last) (hn : ms.length < n) :
    ¬ (∀ q ∈ (p :: ms).dropLast, excess (e.chars q) 0 = 0) ∧ rectLines edit bd n p e = none ∨
    (∀ q ∈ (p :: ms).dropLast, excess (e.chars q) 0 = 0) ∧ ∃ us' e',
      AtLast edit bd b as bs n p (∀ q ∈ (p :: ms).dropLast, Idle (e.chars q)) us us' e e' := by
  obtain ⟨n, rfl⟩ : ∃ m, n = m + 1 := ⟨n - 1, by omega⟩
  induction ms generalizing us e as p n with
  | nil =>
    obtain rfl : p = bd.last := hlast
    have hnone : ∀ {P : LineId → Prop}, ∀ q ∈ [bd.last].dropLast, P q := fun q hq => by cases hq
    refine .inr ⟨hnone, us, e, h, ⟨[], by rw [List.append_nil]; exact hl⟩, fun _ _ => rfl, rfl, ?_,
      .refl hnone⟩
    rw [rectLines, if_neg (not_not.mpr (by rw [hl]; simp))]
    dsimp only
    generalize edit bd.last e = result
    obtain ⟨e', _ | _⟩ := result
    · rfl
    · dsimp only
      rw [if_pos rfl]
      rfl
  | cons r ms ih =>
    have hlast : (r :: ms).getLast (List.cons_ne_nil r ms) = bd.last := hlast
    have hmem : bd.last ∈ r :: ms := hlast ▸ List.getLast_mem _
    obtain ⟨-, hp, -⟩ := h.sound.around hl
    have hne : p ≠ bd.last := fun heq => hp (heq ▸ List.mem_append_left _ hmem)
    have hround : (edit p e).2 = true → rectLines edit bd (n + 1) p e =
        (rectLines edit bd n r (edit p e).1).map fun out => (out.1, out.2.1 + 1, out.2.2) := by
      intro htrue
      have hnext : e.lforw p = r := h.sound.lforw_of hl
      rw [rectLines, if_neg (not_not.mpr (by rw [hl]; simp)), hnext]
      generalize edit p e = result at htrue ⊢
      obtain ⟨e', status⟩ := result
      obtain rfl : status = true := htrue
      dsimp only
      rw [if_neg hne]
    rw [List.dropLast_cons_of_ne_nil (List.cons_ne_nil r ms), List.forall_mem_cons,
      List.forall_mem_cons]
    obtain ⟨htrue, us₁, hundo, hadv⟩ := hedit.records h hl
    by_cases hfits : excess (e.chars p) 0 = 0
    · obtain ⟨q, cs, hed⟩ := hedit.within h hl hfits
      have hnone : excess (e.chars p) ((r :: ms ++ bs).flatMap e.row).length = 0 :=
        Nat.le_zero.mp (hfits ▸ hedit.less _ _)
      rw [hnone, List.replicate_zero, List.append_nil] at hundo
      obtain ⟨m, rfl⟩ : ∃ m, n = m + 1 := ⟨n - 1, by simp at hn; omega⟩
      have hlines : (edit p e).1.lines = (as ++ [q]) ++ r :: (ms ++ bs) := by
        rw [hed.lines, List.append_assoc]
        rfl
      have hsame : ∀ x ∈ r :: (ms ++ bs), (edit p e).1.line x = e.line x := fun x hx =>
        hed.others x (List.mem_append_right _ hx)
      have hchars : ∀ x ∈ (r :: ms).dropLast, (edit p e).1.chars x = e.chars x := by
        intro x hx
        rw [Ed.chars, Ed.chars, hsame x]
        exact List.mem_append_left bs (List.dropLast_subset _ hx)
      have hall : ∀ P : List UChar → Prop, (∀ x ∈ (r :: ms).dropLast, P ((edit p e).1.chars x)) ↔
          ∀ x ∈ (r :: ms).dropLast, P (e.chars x) := fun P =>
        forall₂_congr fun x hx => by rw [hchars x hx]
      rcases ih hundo hlines hlast m (by simp at hn; omega) with
        ⟨hnot, hnone⟩ | ⟨hyes, us', e', hat⟩
      · refine .inl ⟨fun hand => hnot ((hall fun cs => excess cs 0 = 0).mpr hand.2), ?_⟩
        rw [hround htrue, hnone]
        rfl
      · obtain ⟨hundo', ⟨cs', hcs⟩, hsame', hheader, hrun, hadv'⟩ := hat
        refine .inr ⟨⟨hfits, (hall fun cs => excess cs 0 = 0).mp hyes⟩, us', e', hundo',
          ⟨q :: cs', ?_⟩, fun x hx => ?_, hheader.trans hed.header, ?_,
          (hadv.trans hadv').congr (and_congr_right fun _ => hall Idle)⟩
        · rw [hcs]
          simp
        · rw [hsame' x hx, hsame x]
          rcases List.mem_cons.mp hx with rfl | hx
          · exact List.mem_append_left bs hmem
          · exact List.mem_cons_of_mem _ (List.mem_append_right _ hx)
        · rw [hround htrue, Option.map_map, ← hrun]
          rfl
    · have hgone := hedit.gone h hl hfits
      refine .inl ⟨fun hand => hfits hand.1, ?_⟩
      have hnone : rectLines edit bd n r (edit p e).1 = none := by
        cases n with
        | zero => rfl
        | succ n => rw [rectLines, if_pos hgone]
      rw [hround htrue, hnone]
      rfl

/-! ## The edits of the commands -/

theorem overrun_le (cs : List UChar) (n : Nat) :
    overrun w tabsize s t cs n ≤ overrun w tabsize s t cs 0 := by
  unfold overrun
  omega

theorem overrun_leftAlone (h : LeftAlone w tabsize s t cs) : overrun w tabsize s t cs 0 = 0 := by
  obtain ⟨hs, ht, hcount⟩ := h
  have hsame : expanded w tabsize s t cs = cs := by rw [expanded, hs, ht]
  rw [overrun, hsame, (cutBytes_zero hcount).1, Nat.zero_sub]

variable (w tabsize b) in
/-- The edit of `rectkill` and `rectclear`. -/
theorem rectcutline_editsLines (blank : Bool) (hst : s ≤ t) :
    EditsLines (fun lp => rectcutline w tabsize lp s t blank) b (overrun w tabsize s t)
      (LeftAlone w tabsize s t) where
  records := fun h hl => h.rectcutline w tabsize s t blank hl hst
  within := by
    intro us e as bs p h hl hfits
    obtain ⟨e', q, hrun, -, hedit⟩ := rectcutline_edits w tabsize s t blank h.sound h.bfro hl hst
      (by unfold overrun at hfits; omega)
    rw [hrun]
    exact ⟨q, _, hedit⟩
  gone := fun h hl hbig => (rectcutline_gone w tabsize blank h.sound h.bfro hl hst hbig).1
  beneath := by
    intro us e as bs p h hl
    obtain ⟨q, hq, -⟩ := rectcutline_beneath w tabsize s t blank h.sound h.bfro hl hst
    exact ⟨q, hq⟩
  less := overrun_le
  idle := fun cs h => overrun_leftAlone h

variable (w tabsize goal) in
/-- The records of the padding of a line. -/
theorem Undoable.padLine (h : Undoable us b e) (hl : e.lines = as ++ p :: bs) :
    ∃ us', Undoable us' b (Emacs.padLine w tabsize goal p e).1 := by
  have hp : p ∈ e.lines := by
    rw [hl]
    simp
  unfold Emacs.padLine
  dsimp only
  rw [wllength_eq e p (h.sound.inline p hp)]
  split
  · obtain ⟨htrue, us', z, -, hins⟩ := h.linsert hl (Nat.le_refl _) (spells_spaces
      (goal - wlcolumn w tabsize (e.lineText p) (e.chars p).length).toNat)
    refine ⟨us', ?_⟩
    split
    · exact hins.undoable
    · exact hins.undoable
  · exact ⟨us, h.setDot _⟩

variable (w tabsize goal) in
/-- The records of an insertion at a column. -/
theorem Undoable.insertAt (h : Undoable us b e) (hl : e.lines = as ++ e.dot.p :: bs)
    {a : Insertion} (ha : a.Spells ws) :
    (Emacs.insertAt w tabsize goal a e).2 = true ∧
      ∃ us' z, us' ≠ [] ∧ Recorded us' b z (Emacs.insertAt w tabsize goal a e).1 := by
  have hchars := h.sound.lineText_chars (p := e.dot.p) (by rw [hl]; simp)
  unfold Emacs.insertAt
  rw [wlcoloffset_cells hchars]
  exact h.linsert hl Cells.offset_le ha

variable (w tabsize goal) in
/-- The records of a round of `rectopen`, and of `rectyank`. -/
theorem Undoable.rectinsert (h : Undoable us b e) (hl : e.lines = as ++ p :: bs) {a : Insertion}
    (ha : a.Spells ws) :
    ∃ us' z, us' ≠ [] ∧ Recorded us' b z (Emacs.rectinsert w tabsize goal a p e).1 := by
  obtain ⟨e₁, q₁, hpad, hdot, hedit⟩ := padLine_edits w tabsize goal h.sound h.bfro hl
  obtain ⟨us₁, hundo⟩ := h.padLine w tabsize goal hl
  unfold Emacs.rectinsert
  rw [hpad] at hundo ⊢
  exact (hundo.insertAt w tabsize goal (by rw [hdot]; exact hedit.lines) ha).2

variable (w tabsize b goal) in
/-- The edit of `rectopen`. -/
theorem rectinsert_editsLines {a : Insertion} (ha : a.Spells ws) :
    EditsLines (rectinsert w tabsize goal a) b (fun _ _ => 0) fun _ => False where
  records := by
    intro us e as bs p h hl
    obtain ⟨e', q, hrun, -⟩ := rectinsert_edits w tabsize goal h.sound h.bfro hl ha
    obtain ⟨us', z, hne, hrec⟩ := h.rectinsert w tabsize goal hl ha
    rw [List.replicate_zero, List.append_nil]
    exact ⟨by rw [hrun], us', hrec.undoable, .of_some id hne⟩
  within := by
    intro us e as bs p h hl _
    obtain ⟨e', q, hrun, hedit⟩ := rectinsert_edits w tabsize goal h.sound h.bfro hl ha
    rw [hrun]
    exact ⟨q, _, hedit⟩
  gone := fun _ _ hne => absurd rfl hne
  beneath := by
    intro us e as bs p h hl
    obtain ⟨e', q, hrun, hedit⟩ := rectinsert_edits w tabsize goal h.sound h.bfro hl ha
    rw [hrun]
    exact ⟨q, hedit.beneath⟩
  less := fun _ _ => Nat.le_refl _
  idle := fun _ h => h.elim

theorem insertAt_gone (a : Insertion) (h : Gone r e) : Gone r (insertAt w tabsize goal a e).1 := by
  have hset : ∀ pos, Gone r (e.setDot pos) := fun _ => h
  unfold insertAt
  exact linsert_gone a ((hset _).saveundo _ _)

variable (w tabsize b) in
/-- The edit of `rectstring`. -/
theorem rectreplace_editsLines (hst : bd.s_col ≤ bd.e_col) (hws : Inline ws) :
    EditsLines (rectreplace w tabsize bd ws.flatten) b
      (fun cs => overrun w tabsize bd.s_col bd.e_col (widened w tabsize bd.s_col cs))
      fun _ => False := by
  -- the line is padded, then cut, and then the string is put in
  have hpadded : ∀ {us : List (Rec UChar)} {e : Ed} {as bs : List LineId} {p : LineId},
      Undoable us b e → e.lines = as ++ p :: bs → ∃ e₁ q₁ us₁, Undoable us₁ b e₁ ∧
        e₁.dot.p = q₁ ∧ Edited e e₁ as bs q₁ (widened w tabsize bd.s_col (e.chars p)) ∧
        ∀ e₂, rectcutline w tabsize q₁ bd.s_col bd.e_col false e₁ = (e₂, true) →
          rectreplace w tabsize bd ws.flatten p e =
            insertAt w tabsize bd.s_col (.str ws.flatten) e₂ := by
    intro us e as bs p h hl
    obtain ⟨e₁, q₁, hpad, hdot, hedit⟩ := padLine_edits w tabsize bd.s_col h.sound h.bfro hl
    obtain ⟨us₁, hundo⟩ := h.padLine w tabsize bd.s_col hl
    rw [hpad] at hundo
    refine ⟨e₁, q₁, us₁, hundo, hdot, hedit, fun e₂ hcut => ?_⟩
    unfold rectreplace
    rw [hpad]
    dsimp only
    rw [hcut]
  have hcut : ∀ {us : List (Rec UChar)} {e : Ed} {as bs : List LineId} {p : LineId},
      Undoable us b e → e.lines = as ++ p :: bs → ∃ e₂ us₂ q₂,
        Undoable us₂ (b ++ List.replicate (overrun w tabsize bd.s_col bd.e_col
          (widened w tabsize bd.s_col (e.chars p)) (bs.flatMap e.row).length) nl) e₂ ∧
        Beneath as e.b_linep q₂ e₂ ∧ e₂.dot.p = q₂ ∧
        rectreplace w tabsize bd ws.flatten p e =
          insertAt w tabsize bd.s_col (.str ws.flatten) e₂ := by
    intro us e as bs p h hl
    obtain ⟨e₁, q₁, us₁, hundo, hdot, hedit, hrun⟩ := hpadded h hl
    obtain ⟨htrue, us₂, hundo₂, -⟩ := hundo.rectcutline w tabsize bd.s_col bd.e_col false
      hedit.lines hst
    obtain ⟨q₂, hbeneath, hdot₂⟩ := rectcutline_beneath w tabsize bd.s_col bd.e_col false
      hundo.sound hundo.bfro hedit.lines hst
    rw [hedit.chars, hedit.row_congr.2] at hundo₂
    rw [hedit.header] at hbeneath
    exact ⟨_, us₂, q₂, hundo₂, hbeneath, hdot₂ hdot, hrun _ (Prod.ext rfl htrue)⟩
  constructor
  · intro us e as bs p h hl
    obtain ⟨e₂, us₂, q₂, hundo, ⟨-, cs, hlines⟩, hdot, hrun⟩ := hcut h hl
    rw [← hdot] at hlines
    obtain ⟨htrue, us', z, hne, hrec⟩ := hundo.insertAt w tabsize bd.s_col hlines (spells_str hws)
    rw [hrun]
    exact ⟨htrue, us', hrec.undoable, .of_some id hne⟩
  · intro us e as bs p h hl hfits
    obtain ⟨e₁, q₁, us₁, hundo, hdot, hedit, hrun⟩ := hpadded h hl
    rw [← hedit.chars] at hfits
    obtain ⟨e₂, q₂, hcutline, hdot₂, hedit₂⟩ := rectcutline_edits w tabsize bd.s_col bd.e_col false
      hundo.sound hundo.bfro hedit.lines hst (by unfold overrun at hfits; omega)
    obtain ⟨e₃, q₃, hins, hedit₃⟩ := insertAt_edits w tabsize bd.s_col hedit₂.sound
      (hedit₂.bfro.trans hundo.bfro) hedit₂.lines (hdot₂ hdot) (spells_str hws)
    rw [hrun e₂ hcutline, hins]
    exact ⟨q₃, _, (hedit.trans hedit₂).trans hedit₃⟩
  · intro us e as bs p r h hl hbig
    obtain ⟨e₁, q₁, us₁, hundo, hdot, hedit, hrun⟩ := hpadded h hl
    rw [← hedit.chars] at hbig
    have hgone := rectcutline_gone w tabsize false hundo.sound hundo.bfro
      hedit.lines hst hbig
    obtain ⟨htrue, -⟩ := hundo.rectcutline w tabsize bd.s_col bd.e_col false hedit.lines hst
    rw [hrun _ (Prod.ext rfl htrue)]
    exact (insertAt_gone _ hgone).1
  · intro us e as bs p h hl
    obtain ⟨e₂, us₂, q₂, hundo, ⟨hheader, cs, hlines⟩, hdot, hrun⟩ := hcut h hl
    obtain ⟨e₃, q₃, hins, hedit⟩ := insertAt_edits w tabsize bd.s_col hundo.sound hundo.bfro
      hlines hdot (spells_str hws)
    rw [hrun, hins, ← hheader]
    exact ⟨q₃, hedit.beneath⟩
  · exact fun cs n => overrun_le _ n
  · exact fun _ h => h.elim

/-! ## The end of a command -/

section Ending

variable {excess : List UChar → Nat → Nat} {Idle : List UChar → Prop} {us' : List (Rec UChar)}

/-- The state when the loop over the lines `ls` has ended. -/
structure Ended (excess : List UChar → Nat → Nat) (Idle : List UChar → Prop)
    (as ls bs : List LineId) (last : LineId) (us' : List (Rec UChar)) (e e' : Ed) : Prop where
  undoable : Undoable us' (e.symbols ++
    List.replicate (excess (e.chars last) (bs.flatMap e.row).length) nl) e'
  header : e'.b_linep = e.b_linep
  lines : ∃ cs q ds, e'.lines = (as ++ cs) ++ q :: ds
  within : excess (e.chars last) 0 = 0 → ∃ cs q, e'.lines = (as ++ cs) ++ q :: bs
  gone : excess (e.chars last) 0 ≠ 0 → ∀ r ds, bs = r :: ds → r ∉ e'.lines
  advances : Advances (∀ q ∈ ls, Idle (e.chars q)) [] us' e.startsaveundo e'

/-- **The loop ends**, unless the edit of a line that is not the last one frees the next
one. -/
theorem rectLines_ended (hedit : EditsLines edit e.symbols excess Idle) (h : Sound e)
    (hro : e.bfro = false) (hl : e.lines = as ++ p :: (ms ++ bs))
    (hlast : (p :: ms).getLast (List.cons_ne_nil p ms) = bd.last) (hn : ms.length < n) :
    ¬ (∀ q ∈ (p :: ms).dropLast, excess (e.chars q) 0 = 0) ∧
      rectLines edit bd n p e.startsaveundo = none ∨
    (∀ q ∈ (p :: ms).dropLast, excess (e.chars q) 0 = 0) ∧ ∃ us' e' count,
      rectLines edit bd n p e.startsaveundo = some (e', count, true) ∧
      Ended excess Idle as (p :: ms) bs bd.last us' e e' := by
  have hsound : Sound e.startsaveundo := ⟨h.nodup, h.header, h.fresh, h.inline, h.empty⟩
  have hbegun : Undoable [] e.symbols e.startsaveundo :=
    ⟨hsound, hro, startsaveundo_grouped e, .nil _⟩
  refine (rectLines_reach hedit hbegun hl hlast hn).imp_right fun ⟨hfits, us₁, e₁, hat⟩ => ?_
  refine ⟨hfits, ?_⟩
  obtain ⟨hundo, ⟨cs, hcs⟩, hsame, hheader, hrun, hadv⟩ := hat
  obtain ⟨htrue, us', hundo', hadv'⟩ := hedit.records hundo hcs
  obtain ⟨q, hbeneath⟩ := hedit.beneath hundo hcs
  have hchars : e₁.chars bd.last = e.chars bd.last := by
    rw [Ed.chars, Ed.chars, hsame _ List.mem_cons_self]
    rfl
  have hrows : bs.flatMap e₁.row = bs.flatMap e.row :=
    flatMap_row_congr fun r hr => hsame r (List.mem_cons_of_mem _ hr)
  have hresult : ∃ count, rectLines edit bd n p e.startsaveundo =
      some ((edit bd.last e₁).1, count, true) := by
    obtain ⟨⟨e', count, status⟩, hresult, heq⟩ := Option.map_eq_some_iff.mp hrun
    obtain rfl : e' = (edit bd.last e₁).1 := congrArg Prod.fst heq
    obtain rfl : status = true := (congrArg Prod.snd heq).trans htrue
    exact ⟨count, hresult⟩
  obtain ⟨count, hresult⟩ := hresult
  rw [hchars, hrows] at hundo'
  rw [hchars] at hadv'
  refine ⟨us', _, count, hresult, hundo', hbeneath.header.trans hheader, ?_, fun hfit => ?_,
    fun hbig r ds hbs => ?_, (hadv.trans hadv').congr ?_⟩
  · obtain ⟨ds, hds⟩ := hbeneath.lines
    exact ⟨cs, q, ds, hds⟩
  · obtain ⟨q, xs, hed⟩ := hedit.within hundo hcs (by rw [hchars]; exact hfit)
    exact ⟨cs, q, hed.lines⟩
  · subst hbs
    exact hedit.gone hundo hcs (by rw [hchars]; exact hbig)
  · have hsplit : ∀ P : LineId → Prop, (∀ q ∈ p :: ms, P q) ↔
        (∀ q ∈ (p :: ms).dropLast, P q) ∧ P bd.last := by
      intro P
      conv_lhs => rw [← List.dropLast_append_getLast (List.cons_ne_nil p ms), hlast]
      rw [List.forall_mem_append, List.forall_mem_singleton]
    rw [hsplit]
    rfl

/-- One `undo` brings the text back if nothing was deleted that was not there. -/
theorem Undoable.undone {e₀ : Ed} {k : Nat} (h : Undoable us (e₀.symbols ++ List.replicate k nl) e)
    (h₀ : Sound e₀) (hus : us ≠ []) (hl : e.lines = as ++ p :: bs) (ho : o ≤ (e.chars p).length) :
    (undo (e.setDot ⟨p, o⟩)).1.text = e₀.text ↔ k = 0 := by
  have hat := h.sound.shows_at hl ho
  have hrec : Recorded us (e₀.symbols ++ List.replicate k nl) _ (e.setDot ⟨p, o⟩) :=
    ⟨⟨hat, h.bfro⟩, h.grouped.congr rfl rfl rfl, hat.text ▸ h.carries⟩
  obtain ⟨z', hshows, hundone⟩ := hrec.undone hus
  rw [text_eq_iff hshows.sound h₀, ← hshows.text, hundone]
  constructor
  · intro heq
    have hlen := congrArg List.length heq
    rw [List.length_append, List.length_replicate] at hlen
    omega
  · rintro rfl
    rw [List.replicate_zero, List.append_nil]

/-- The line below some lines. -/
theorem lforw_above (h : Sound e) (hl : e.lines = as ++ p :: bs) :
    e.lforw (as.getLastD e.b_linep) = p := by
  rcases List.eq_nil_or_concat as with rfl | ⟨as, q, rfl⟩
  · change Circular.next e.b_linep e.lines e.b_linep = p
    rw [Circular.next, if_pos rfl, hl]
    rfl
  · rw [List.concat_eq_append, List.append_assoc, List.singleton_append] at hl
    rw [List.concat_eq_append, List.getLastD_concat, h.lforw_of hl]
    rfl

theorem wlcoloffset_le (h : Sound e) (hp : p ∈ e.lines) (col : Int) :
    wlcoloffset w tabsize (e.lineText p) col ≤ (e.chars p).length := by
  rw [wlcoloffset_cells (h.lineText_chars hp)]
  exact Cells.offset_le

variable (w tabsize) in
/-- The records of a command that has ended, with the cursor on some line. -/
theorem Ended.undone_iff {ls : List LineId} {last : LineId} {cs ds : List LineId}
    (h : Ended excess Idle as ls bs last us' e e') (hs : Sound e)
    (hl : e'.lines = cs ++ q :: ds) (col : Int) :
    (undo (e'.setDot ⟨q, wlcoloffset w tabsize (e'.lineText q) col⟩)).1.text = e.text ↔
      (∀ q ∈ ls, Idle (e.chars q)) ∧ (undo (e'.setDot
        ⟨q, wlcoloffset w tabsize (e'.lineText q) col⟩)).1.text = e.text ∨
      (¬ ∀ q ∈ ls, Idle (e.chars q)) ∧ excess (e.chars last) (bs.flatMap e.row).length = 0 := by
  by_cases hidle : ∀ q ∈ ls, Idle (e.chars q)
  · constructor
    · exact fun htext => .inl ⟨hidle, htext⟩
    · rintro (⟨-, htext⟩ | ⟨hnot, -⟩)
      · exact htext
      · exact absurd hidle hnot
  · rw [h.undoable.undone hs (h.advances.records (.inr hidle)) hl
      (wlcoloffset_le h.undoable.sound (by rw [hl]; simp) col)]
    constructor
    · exact fun hzero => .inr ⟨hidle, hzero⟩
    · rintro (⟨hall, -⟩ | ⟨-, hzero⟩)
      · exact absurd hall hidle
      · exact hzero

end Ending

/-! ## The commands -/

section Commands

/-- The command has succeeded, and one `undo` brings back the text from before it. -/
def UndoneAtOnce (e : Ed) (result : Option Outcome) : Prop :=
  ∃ out, result = some out ∧ out.status = true ∧ (undo out.ed).1.text = e.text

/-- No cut goes beyond its line, nor the last one beyond the `below` characters that are
behind its line.  `text` is what is done to a line before the cut. -/
def Bounds.Contained (w : Wcwidth) (tabsize : Nat) (e : Ed) (bd : Bounds)
    (text : List UChar → List UChar) (below : Nat) : Prop :=
  (∀ p ∈ (bd.lines e).dropLast, overrun w tabsize bd.s_col bd.e_col (text (e.chars p)) 0 = 0) ∧
    overrun w tabsize bd.s_col bd.e_col (text (e.chars bd.last)) below = 0

/-- A command that leaves every line alone saves no record, and `undo` goes on with what was
done before it. -/
def Bounds.Recorded (w : Wcwidth) (tabsize : Nat) (e : Ed) (bd : Bounds) (pos : POS) : Prop :=
  (∀ p ∈ bd.lines e, LeftAlone w tabsize bd.s_col bd.e_col (e.chars p)) →
    (undo (e.startsaveundo.setDot pos)).1.text = e.text

variable {excess : List UChar → Nat → Nat} {Idle : List UChar → Prop}

variable (w tabsize) in
/-- **A command that ends on the upper left corner.** -/
theorem undone_corner_iff (hedit : EditsLines edit e.symbols excess Idle) (h : Sound e)
    (hro : e.bfro = false) (hl : e.lines = as ++ p :: (ms ++ bs))
    (hlast : (p :: ms).getLast (List.cons_ne_nil p ms) = bd.last) (col : Int) :
    (∃ e' count, rectLines edit bd e.lines.length p e.startsaveundo = some (e', count, true) ∧
      (undo (e'.corner w tabsize (e.lback p) col)).1.text = e.text) ↔
    (∀ q ∈ (p :: ms).dropLast, excess (e.chars q) 0 = 0) ∧
      excess (e.chars bd.last) (bs.flatMap e.row).length = 0 ∧
      ((∀ q ∈ p :: ms, Idle (e.chars q)) →
        (undo (e.startsaveundo.setDot ⟨p, wlcoloffset w tabsize (e.lineText p) col⟩)).1.text =
          e.text) := by
  have hn : ms.length < e.lines.length := by
    rw [hl, List.length_append, List.length_cons, List.length_append]
    omega
  have hmem : bd.last ∈ p :: ms := hlast ▸ List.getLast_mem _
  rcases rectLines_ended hedit h hro hl hlast hn with
    ⟨hnot, hnone⟩ | ⟨hfits, us', e₁, count, hrun, hended⟩
  · rw [hnone]
    exact iff_of_false (fun ⟨e', count, hsome, _⟩ => by cases hsome) fun hall => hnot hall.1
  · obtain ⟨cs, q, ds, hlines⟩ := hended.lines
    -- the line below those above
    obtain ⟨x, xs, hx⟩ : ∃ x xs, e₁.lines = as ++ x :: xs := by
      rw [hlines]
      cases cs with
      | nil => exact ⟨q, ds, by rw [List.append_nil]⟩
      | cons c cs => exact ⟨c, cs ++ q :: ds, by simp⟩
    have hcorner : e₁.corner w tabsize (e.lback p) col =
        e₁.setDot ⟨x, wlcoloffset w tabsize (e₁.lineText x) col⟩ := by
      rw [Ed.corner, h.lback_of hl, ← hended.header, lforw_above hended.undoable.sound hx]
    have hundone := hended.undone_iff w tabsize h hx col
    have hresult : (∃ e' count', rectLines edit bd e.lines.length p e.startsaveundo =
        some (e', count', true) ∧ (undo (e'.corner w tabsize (e.lback p) col)).1.text = e.text) ↔
        (undo (e₁.corner w tabsize (e.lback p) col)).1.text = e.text := by
      rw [hrun]
      constructor
      · rintro ⟨e', count', heq, htext⟩
        obtain ⟨rfl, -⟩ := Prod.mk.inj (Option.some.inj heq)
        exact htext
      · exact fun htext => ⟨e₁, count, rfl, htext⟩
    rw [hresult, hcorner, hundone, and_iff_right hfits]
    by_cases hidle : ∀ q ∈ p :: ms, Idle (e.chars q)
    · -- nothing was done
      obtain ⟨rfl, -⟩ := hended.advances.stays hidle
      have hfirst : x = p := by
        have heq : e.lines = as ++ x :: xs := hx
        rw [hl] at heq
        exact (List.cons.inj (List.append_cancel_left heq)).1.symm
      have hzero : excess (e.chars bd.last) (bs.flatMap e.row).length = 0 :=
        Nat.le_zero.mp (hedit.idle _ (hidle _ hmem) ▸ hedit.less _ _)
      rw [and_iff_right hidle, hfirst, and_iff_right hzero]
      constructor
      · rintro (htext | ⟨hnot, -⟩) _
        · exact htext
        · exact absurd hidle hnot
      · exact fun htext => .inl (htext hidle)
    · constructor
      · rintro (⟨hall, -⟩ | ⟨-, hzero⟩)
        · exact absurd hall hidle
        · exact ⟨hzero, fun hall => absurd hall hidle⟩
      · exact fun hall => .inr ⟨hidle, hall.1⟩

/-- The line above the rectangle stays. -/
theorem rectLines_above {count : Nat} (hedit : EditsLines edit e.symbols excess Idle) (h : Sound e)
    (hro : e.bfro = false) (hl : e.lines = as ++ p :: (ms ++ bs))
    (hlast : (p :: ms).getLast (List.cons_ne_nil p ms) = bd.last)
    (hrun : rectLines edit bd e.lines.length p e.startsaveundo = some (e', count, true)) :
    e.lback p ∈ e'.b_linep :: e'.lines := by
  have hn : ms.length < e.lines.length := by
    rw [hl, List.length_append, List.length_cons, List.length_append]
    omega
  rcases rectLines_ended hedit h hro hl hlast hn with
    ⟨-, hnone⟩ | ⟨-, us', e₁, count', hrun', hended⟩
  · rw [hnone] at hrun
    cases hrun
  · rw [hrun'] at hrun
    cases hrun
    obtain ⟨cs, q, ds, hlines⟩ := hended.lines
    rw [h.lback_of hl, hended.header, hlines]
    rcases List.eq_nil_or_concat as with rfl | ⟨as, r, rfl⟩
    · exact List.mem_cons_self
    · rw [List.concat_eq_append, List.getLastD_concat]
      simp

/-- The line above what follows some lines. -/
theorem lback_below (h : Sound e) (hl : e.lines = as ++ p :: bs) :
    e.lback (bs.headD e.b_linep) = p := by
  cases bs with
  | nil =>
    change Circular.prev e.b_linep e.lines e.b_linep = p
    rw [Circular.prev_header h.header, hl, List.getLastD_concat]
  | cons q bs =>
    have hl' : e.lines = (as ++ [p]) ++ q :: bs := by
      rw [hl, List.append_assoc]
      rfl
    rw [List.headD_cons, h.lback_of hl', List.getLastD_concat]

variable (w tabsize) in
/-- **A command that ends on the last line of the rectangle**, which it finds by the line
that follows.  If that one has been freed there is no result. -/
theorem undone_beyond_iff (hedit : EditsLines edit e.symbols excess Idle) (h : Sound e)
    (hro : e.bfro = false) (hl : e.lines = as ++ p :: (ms ++ bs))
    (hlast : (p :: ms).getLast (List.cons_ne_nil p ms) = bd.last) (col : Int) :
    (∃ e' count, rectLines edit bd e.lines.length p e.startsaveundo = some (e', count, true) ∧
      e.lforw bd.last ∈ e'.b_linep :: e'.lines ∧
      (undo (e'.setDot ⟨e'.lback (e.lforw bd.last), wlcoloffset w tabsize
        (e'.lineText (e'.lback (e.lforw bd.last))) col⟩)).1.text = e.text) ↔
    (∀ q ∈ (p :: ms).dropLast, excess (e.chars q) 0 = 0) ∧ excess (e.chars bd.last) 0 = 0 ∧
      ((∀ q ∈ p :: ms, Idle (e.chars q)) → (undo (e.startsaveundo.setDot
        ⟨bd.last, wlcoloffset w tabsize (e.lineText bd.last) col⟩)).1.text = e.text) := by
  have hn : ms.length < e.lines.length := by
    rw [hl, List.length_append, List.length_cons, List.length_append]
    omega
  have hmem : bd.last ∈ p :: ms := hlast ▸ List.getLast_mem _
  have hl' : e.lines = (as ++ (p :: ms).dropLast) ++ bd.last :: bs := by
    rw [hl, ← List.cons_append, ← List.dropLast_append_getLast (List.cons_ne_nil p ms), hlast,
      List.append_assoc, List.append_assoc, List.singleton_append]
    simp
  have hnext : e.lforw bd.last = bs.headD e.b_linep := h.lforw_of hl'
  rcases rectLines_ended hedit h hro hl hlast hn with
    ⟨hnot, hnone⟩ | ⟨hfits, us', e₁, count, hrun, hended⟩
  · rw [hnone]
    exact iff_of_false (fun ⟨e', count, hsome, _⟩ => by cases hsome) fun hall => hnot hall.1
  · have hsound := hended.undoable.sound
    have hresult : (∃ e' count', rectLines edit bd e.lines.length p e.startsaveundo =
          some (e', count', true) ∧ e.lforw bd.last ∈ e'.b_linep :: e'.lines ∧
          (undo (e'.setDot ⟨e'.lback (e.lforw bd.last), wlcoloffset w tabsize
            (e'.lineText (e'.lback (e.lforw bd.last))) col⟩)).1.text = e.text) ↔
        e.lforw bd.last ∈ e₁.b_linep :: e₁.lines ∧
          (undo (e₁.setDot ⟨e₁.lback (e.lforw bd.last), wlcoloffset w tabsize
            (e₁.lineText (e₁.lback (e.lforw bd.last))) col⟩)).1.text = e.text := by
      rw [hrun]
      constructor
      · rintro ⟨e', count', heq, htext⟩
        obtain ⟨rfl, -⟩ := Prod.mk.inj (Option.some.inj heq)
        exact htext
      · exact fun htext => ⟨e₁, count, rfl, htext⟩
    rw [hresult, hnext, and_iff_right hfits, ← hended.header]
    by_cases hfit : excess (e.chars bd.last) 0 = 0
    · obtain ⟨cs, q, hlines⟩ := hended.within hfit
      have hback := lback_below hsound hlines
      have hin : bs.headD e₁.b_linep ∈ e₁.b_linep :: e₁.lines := by
        rw [hlines]
        cases bs <;> simp
      have hzero : excess (e.chars bd.last) (bs.flatMap e.row).length = 0 :=
        Nat.le_zero.mp (hfit ▸ hedit.less _ _)
      have hundone := hended.undone_iff w tabsize h hlines col
      rw [hback, and_iff_right hin, hundone, and_iff_right hfit]
      by_cases hidle : ∀ q ∈ p :: ms, Idle (e.chars q)
      · obtain ⟨rfl, -⟩ := hended.advances.stays hidle
        have hsame : q = bd.last := by
          have heq : e.lines = (as ++ cs) ++ q :: bs := hlines
          rw [hl'] at heq
          exact (List.cons.inj (List.append_inj_right' heq (by simp))).1.symm
        rw [hsame, and_iff_right hidle]
        constructor
        · rintro (htext | ⟨hnot, -⟩) _
          · exact htext
          · exact absurd hidle hnot
        · exact fun htext => .inl (htext hidle)
      · constructor
        · exact fun _ hall => absurd hall hidle
        · exact fun _ => .inr ⟨hidle, hzero⟩
    · refine iff_of_false ?_ fun hall => hfit hall.1
      rintro ⟨hin, htext⟩
      cases bs with
      | nil =>
        obtain ⟨cs, q, ds, hlines⟩ := hended.lines
        -- the buffer ends here: what is counted too much is undone as newlines
        obtain ⟨zs, x, hx⟩ : ∃ zs x, e₁.lines = zs ++ [x] := by
          rcases List.eq_nil_or_concat e₁.lines with hnil | ⟨zs, x, hx⟩
          · rw [hnil] at hlines
            simp at hlines
          · exact ⟨zs, x, by rw [hx, List.concat_eq_append]⟩
        rw [lback_below hsound hx] at htext
        rcases (hended.undone_iff w tabsize h hx col).mp htext with ⟨hidle, -⟩ | ⟨-, hzero⟩
        · exact hfit (hedit.idle _ (hidle _ hmem))
        · exact hfit hzero
      | cons r ds =>
        have hr : r ∈ e.lines := by
          rw [hl']
          simp
        rcases List.mem_cons.mp hin with hheader | hmem'
        · exact h.header (by rw [← hended.header, ← hheader]; exact hr)
        · exact hended.gone hfit r ds rfl hmem'

variable (w tabsize goal) in
/-- The records of the loop of `rectyank`. -/
theorem rectyankLoop_recorded {slices : List (List Byte)} {lp : LineId}
    (hslices : ∀ s ∈ slices, ∃ cs, Inline cs ∧ s.takeWhile (· ≠ 0) = cs.flatten)
    (h : ∃ z, Recorded us b z e) (hlp : lp ∈ e.b_linep :: e.lines) :
    (rectyankLoop w tabsize goal slices lp e).2.2 = true ∧ ∃ us',
      (∃ z, Recorded us' b z (rectyankLoop w tabsize goal slices lp e).1) ∧
      (us ≠ [] ∨ slices ≠ [] ∧ lp ≠ e.b_linep → us' ≠ []) := by
  induction slices generalizing us e lp with
  | nil => exact ⟨rfl, us, h, fun hus => hus.resolve_right fun hand => hand.1 rfl⟩
  | cons slice slices ih =>
    rw [rectyankLoop]
    by_cases hheader : lp = e.b_linep
    · rw [if_pos hheader]
      exact ⟨rfl, us, h, fun hus => hus.resolve_right fun hand => hand.2 hheader⟩
    · obtain ⟨z, hrec⟩ := h
      have hundo := hrec.undoable
      obtain ⟨as, bs, hl⟩ := List.append_of_mem ((List.mem_cons.mp hlp).resolve_left hheader)
      obtain ⟨cs, hcs, hslice⟩ := hslices slice List.mem_cons_self
      obtain ⟨e₁, q, hrun, hedit⟩ := rectinsert_edits w tabsize goal hundo.sound hundo.bfro hl
        (spells_str hcs)
      obtain ⟨us₁, z₁, hne, hrec₁⟩ := hundo.rectinsert w tabsize goal hl (spells_str hcs)
      rw [hrun] at hrec₁
      have hnext : e.lforw lp ∈ e₁.b_linep :: e₁.lines := by
        rw [hundo.sound.lforw_of hl, hedit.header, hedit.lines]
        cases bs <;> simp
      obtain ⟨htrue, us', hloop, hsome⟩ := ih
        (fun s hs => hslices s (List.mem_cons_of_mem _ hs)) ⟨z₁, hrec₁⟩ hnext
      rw [if_neg hheader, hslice, hrun]
      exact ⟨htrue, us', hloop, fun _ => hsome (.inl hne)⟩

variable (w tabsize) in
/-- **Yanking a rectangle** is undone at once. -/
theorem rectyank_undone {rect : RECT} (h : Sound e) (hro : e.bfro = false)
    (hshows : Shows e z) (hlines : rect.rect_lines ≠ [])
    (hslices : ∀ s ∈ rect.rect_lines, ∃ cs, Inline cs ∧ s.takeWhile (· ≠ 0) = cs.flatten) :
    UndoneAtOnce e (some (rectyank w tabsize e.startsaveundo rect)) := by
  have hbegin := startsaveundo_recorded ⟨hshows, hro⟩
  rw [hshows.text] at hbegin
  have hne : e.dot.p ≠ e.b_linep := hshows.ne_header
  obtain ⟨htrue, us', ⟨z', hrec⟩, hsome⟩ := rectyankLoop_recorded w tabsize
    (wlcolumn w tabsize (e.lineText e.dot.p) e.dot.o) hslices ⟨_, hbegin⟩
    (List.mem_cons_of_mem _ hshows.mem)
  obtain ⟨z'', hundone, htext⟩ := hrec.undone (hsome (.inr ⟨hlines, hne⟩))
  refine ⟨_, rfl, ?_⟩
  have hdot : e.startsaveundo.dot.p ≠ e.startsaveundo.b_linep := hne
  unfold rectyank
  rw [if_neg hlines, if_neg hdot]
  dsimp only
  change (rectyankLoop w tabsize (wlcolumn w tabsize
    (e.startsaveundo.lineText e.startsaveundo.dot.p) e.startsaveundo.dot.o) rect.rect_lines
    e.startsaveundo.dot.p e.startsaveundo).2.2 = true at htrue
  change Shows (undo (rectyankLoop w tabsize (wlcolumn w tabsize
    (e.startsaveundo.lineText e.startsaveundo.dot.p) e.startsaveundo.dot.o) rect.rect_lines
    e.startsaveundo.dot.p e.startsaveundo).1).1 z'' at hundone
  generalize rectyankLoop w tabsize _ rect.rect_lines _ _ = result at htrue hundone ⊢
  obtain ⟨e', i, status⟩ := result
  obtain rfl : status = true := htrue
  exact ⟨rfl, (text_eq_iff hundone.sound h).mpr (hundone.text.symm.trans htext)⟩

theorem rectbounds_startsaveundo (rect : RECT) :
    rectbounds w tabsize e.startsaveundo rect = rectbounds w tabsize e rect := rfl

/-- The cursor is on the first or the last line of a rectangle. -/
theorem corners_dot {lp : LineId} {col : Int} (hb : bd = e.corners w tabsize lp col) :
    bd.first = e.dot.p ∨ bd.last = e.dot.p := by
  rw [hb]
  unfold Ed.corners
  dsimp only
  split
  · exact .inr rfl
  · exact .inl rfl

theorem undoneAtOnce_some {e' : Ed} {rect : RECT} {message : Option String} :
    UndoneAtOnce e (some ⟨e', rect, message, true⟩) ↔ (undo e').1.text = e.text := by
  constructor
  · rintro ⟨out, hout, -, htext⟩
    obtain rfl := Option.some.inj hout
    exact htext
  · exact fun htext => ⟨_, rfl, rfl, htext⟩

theorem not_undoneAtOnce {e' : Ed} {rect : RECT} {message : Option String} :
    ¬ UndoneAtOnce e (some ⟨e', rect, message, false⟩) := by
  rintro ⟨out, hout, hstatus, -⟩
  obtain rfl := Option.some.inj hout
  cases hstatus

/-- A command is undone at once if its loop ends, and then all of it is. -/
theorem undoneAtOnce_iff {result : Option (Ed × Nat × Bool)} {rect : RECT}
    {finish : Ed → Nat → Option Outcome} :
    UndoneAtOnce e (match result with
      | none => none
      | some (e', _, false) => some ⟨e', rect, none, false⟩
      | some (e', count, true) => finish e' count) ↔
    ∃ e' count, result = some (e', count, true) ∧ UndoneAtOnce e (finish e' count) := by
  rcases result with _ | ⟨e', count, _ | _⟩
  · exact iff_of_false (fun ⟨_, hsome, _⟩ => by cases hsome) fun ⟨_, _, hsome, _⟩ => by cases hsome
  · exact iff_of_false not_undoneAtOnce fun ⟨_, _, hsome, _⟩ => by cases hsome
  · constructor
    · exact fun hundone => ⟨e', count, rfl, hundone⟩
    · rintro ⟨e'', count', heq, hundone⟩
      cases heq
      exact hundone

/-- **One `undo` after a command on a rectangle** restores the text: always after opening
and yanking one; after killing, clearing and replacing one, exactly if no cut goes beyond
its line, where only the one of the last line may go on into the lines below.  If the cut of
`rectclear` takes that place from the cursor, it may not.  Killing and clearing a rectangle
that nothing is in leaves `undo` to what was done before. -/
theorem rect_undo_iff (w : Wcwidth) (tabsize : Nat) (e : Ed) (rect : RECT) (h : Sound e)
    (hro : e.bfro = false) (hdot : Within e e.dot) :
    (∀ rect' bd, rectbounds w tabsize e rect = (rect', .ok bd) →
      (∀ f n, UndoneAtOnce e (rectopen w tabsize f n e.startsaveundo rect)) ∧
      (UndoneAtOnce e (rectkill w tabsize e.startsaveundo rect) ↔
        bd.Contained w tabsize e id ((bd.below e).flatMap e.row).length ∧
        bd.Recorded w tabsize e
          ⟨bd.first, wlcoloffset w tabsize (e.lineText bd.first) bd.s_col⟩) ∧
      (UndoneAtOnce e (rectclear w tabsize e.startsaveundo rect) ↔
        bd.Contained w tabsize e id
          (if e.dot.p = bd.first then ((bd.below e).flatMap e.row).length else 0) ∧
        bd.Recorded w tabsize e ⟨e.dot.p, wlcoloffset w tabsize (e.lineText e.dot.p)
          (wlcolumn w tabsize (e.lineText e.dot.p) e.dot.o)⟩) ∧
      ∀ ws, Inline ws →
        (UndoneAtOnce e (rectstring w tabsize (some ws.flatten) e.startsaveundo rect) ↔
          bd.Contained w tabsize e (widened w tabsize bd.s_col)
            ((bd.below e).flatMap e.row).length)) ∧
    (rect.rect_lines ≠ [] → e.dot.p ≠ e.b_linep →
      (∀ s ∈ rect.rect_lines, ∃ cs, Inline cs ∧ s.takeWhile (· ≠ 0) = cs.flatten) →
      UndoneAtOnce e (some (rectyank w tabsize e.startsaveundo rect))) := by
  refine ⟨fun rect' bd hb => ?_, fun hlines hne hslices => ?_⟩
  · obtain ⟨hne, rfl, lp, hlp, col, hcorners⟩ := rectbounds_ok hb
    obtain ⟨hst, as, ms, bs, hl, hlast⟩ := corners_parts h hlp (hdot.1.resolve_right hne) hcorners
    obtain ⟨-, hlines, hbelow⟩ := Bounds.parts h hl hlast
    have hb' := (rectbounds_startsaveundo rect').trans hb
    unfold Bounds.Contained Bounds.Recorded
    rw [hlines, hbelow]
    refine ⟨fun f n => ?_, ?_, ?_, fun ws hws => ?_⟩
    · -- opening
      have hopen := undone_corner_iff w tabsize (rectinsert_editsLines e.symbols w tabsize
        bd.s_col (spells_spaces (if f ∧ n > 0 then n else bd.e_col - bd.s_col).toNat))
        h hro hl hlast bd.s_col
      obtain ⟨e', count, hrun, htext⟩ := hopen.mpr
        ⟨fun _ _ => rfl, rfl, fun hall => (hall _ List.mem_cons_self).elim⟩
      unfold rectopen
      rw [hb']
      dsimp only
      change rectLines _ bd e.startsaveundo.lines.length bd.first e.startsaveundo = _ at hrun
      rw [hrun]
      exact ⟨_, rfl, rfl, htext⟩
    · -- killing
      rw [and_assoc]
      refine Iff.trans ?_ (undone_corner_iff w tabsize
        (rectcutline_editsLines e.symbols w tabsize false hst) h hro hl hlast bd.s_col)
      unfold rectkill
      rw [hb']
      dsimp only
      rw [rectkillLoop_eq]
      change _ ↔ ∃ e' count, rectLines _ bd e.startsaveundo.lines.length bd.first e.startsaveundo =
        some (e', count, true) ∧ _
      refine Iff.trans ?_ ((@undoneAtOnce_iff e _ rect' _).trans (exists₂_congr fun e' count =>
        and_congr_right fun _ => @undoneAtOnce_some e _ rect' none))
      generalize rectLines _ bd _ bd.first e.startsaveundo = result
      rcases result with _ | ⟨e', count, _ | _⟩
      · rfl
      · exact iff_of_false not_undoneAtOnce not_undoneAtOnce
      · exact undoneAtOnce_some.trans undoneAtOnce_some.symm
    · -- clearing
      unfold rectclear
      rw [hb']
      dsimp only
      refine undoneAtOnce_iff.trans ?_
      have hedit := rectcutline_editsLines e.symbols w tabsize true hst
      have hset : e.startsaveundo.dot = e.dot := rfl
      rw [hset, and_assoc]
      by_cases hbefore : e.dot.p = bd.first
      · have hclear := undone_corner_iff w tabsize hedit h hro hl hlast
          (wlcolumn w tabsize (e.lineText e.dot.p) e.dot.o)
        simp only [if_pos hbefore]
        rw [hbefore] at hclear ⊢
        refine Iff.trans (exists₂_congr fun e' count => and_congr_right fun hrun => ?_) hclear
        have hmem : e.lback bd.first ∈ e'.b_linep :: e'.lines :=
          rectLines_above hedit h hro hl hlast hrun
        have hback : e.startsaveundo.lback bd.first = e.lback bd.first := rfl
        rw [hback, if_neg (not_not.mpr hmem)]
        exact undoneAtOnce_some
      · have hlastdot := (corners_dot hcorners).resolve_left fun heq => hbefore heq.symm
        have hclear := undone_beyond_iff w tabsize hedit h hro hl hlast
          (wlcolumn w tabsize (e.lineText e.dot.p) e.dot.o)
        simp only [if_neg hbefore]
        rw [hlastdot] at hclear ⊢
        refine Iff.trans (exists₂_congr fun e' count => and_congr_right fun hrun => ?_) hclear
        have hforw : e.startsaveundo.lforw e.dot.p = e.lforw e.dot.p := rfl
        rw [hforw]
        by_cases hmem : e.lforw e.dot.p ∈ e'.b_linep :: e'.lines
        · rw [if_neg (not_not.mpr hmem), and_iff_right hmem]
          exact undoneAtOnce_some
        · rw [if_pos hmem]
          exact iff_of_false (fun ⟨_, hsome, _⟩ => by cases hsome) fun hand => hmem hand.1
    · -- replacing by a string
      have hstring := undone_corner_iff w tabsize
        (rectreplace_editsLines e.symbols w tabsize hst hws) h hro hl hlast bd.s_col
      unfold rectstring
      rw [hb']
      dsimp only
      refine undoneAtOnce_iff.trans ((exists₂_congr fun e' count => and_congr_right fun _ =>
        undoneAtOnce_some).trans (hstring.trans (and_congr_right fun _ => and_iff_left ?_)))
      exact fun hall => (hall _ List.mem_cons_self).elim
  · exact rectyank_undone w tabsize h hro (h.shows_here (hdot.1.resolve_right hne) hdot.2) hlines
      hslices

/-- A tab at the edge of the rectangle is expanded, and comes back. -/
theorem rect_undo_tabLines :
    UndoneAtOnce tabLines (rectkill someWidths 8 tabLines.startsaveundo ⟨null, 0, []⟩) := by
  have hsound : Sound tabLines := Ed.sound_ascii (by decide +kernel)
  obtain ⟨hall, -⟩ := rect_undo_iff someWidths 8 tabLines ⟨null, 0, []⟩ hsound rfl
    ⟨.inl (by decide), by decide⟩
  obtain ⟨-, hkill, -⟩ := hall ⟨null, 0, []⟩ ⟨2, 3, 1, 3⟩ rfl
  refine hkill.mpr ⟨⟨by decide, by decide⟩, fun hidle => ?_⟩
  have htab := (hidle 2 (by decide)).2.1
  exact absurd htab (by decide)

/-- A line of one é, the last one; the mark is in front of the é and the cursor behind it. -/
def accentLine : Ed := Ed.holding [[0xc3, 0xa9]] ⟨2, 1⟩ ⟨2, 0⟩

/-- **Undoing the kill of an é leaves a line too many**: its two bytes were deleted as two
characters, the é and a newline that was not there. -/
theorem rect_undo_adds_line :
    ¬ UndoneAtOnce accentLine
      (rectkill someWidths 8 accentLine.startsaveundo ⟨null, 0, []⟩) := by
  rintro ⟨out, hout, -, htext⟩
  have hrun : (rectkill someWidths 8 accentLine.startsaveundo ⟨null, 0, []⟩).map
      (fun out => (undo out.ed).1.text) = some [[0xc3, 0xa9], []] := by decide
  rw [hout, Option.map_some, htext] at hrun
  exact absurd hrun (by decide)

end Commands

end Emacs
