import Zzdwm.Emacs.Replace

/-!
# The records of one command

A command saves a record with a position wherever it has moved the cursor, and then
records without one.  Together they are a journal that carries the text from before the
command to the text that is shown, and one `undo` plays it back.

* `Grouped` — the newest group of the undo stack, as records;
* `Recorded`, `Recording` — between two stretches, and within one;
* `Recorded.undone` — **one `undo` restores the text**.
-/

namespace Emacs

open Journal (Zipper Act Rec row col Carries Writing Performs)

variable {e e' : Ed} {z z' : Zipper UChar} {us : List (Rec UChar)} {b : List UChar} {a : Act UChar}
  {ws : List UChar} {q : Option POS}

/-- The command has saved these records. -/
structure Grouped (us : List (Rec UChar)) (e : Ed) : Prop where
  undoing : e.undoing = false
  first : us = [] → e.start.isSome
  later : us ≠ [] → e.start = none ∧
    ∃ vs flag gs, e.b_undo.undolist = ⟨vs, flag⟩ :: gs ∧ List.Forall₂ Reads vs us

theorem Grouped.congr (h : Grouped us e) (hundo : e'.undoing = e.undoing)
    (hstart : e'.start = e.start) (hstack : e'.b_undo = e.b_undo) : Grouped us e' := by
  obtain ⟨h₁, h₂, h₃⟩ := h
  exact ⟨by rwa [hundo], by rwa [hstart], by rwa [hstart, hstack]⟩

/-- At the start of a command. -/
theorem startsaveundo_grouped (e : Ed) : Grouped [] e.startsaveundo :=
  ⟨rfl, fun _ => rfl, fun hne => absurd rfl hne⟩

/-- **Saving a record** that joins no other one. -/
theorem Grouped.saveundo (h : Grouped us e) {k : Saved} (hka : k.step = saved a) (ha : WholeAct a)
    (hk : ∀ copies chars s, k = .UINSERT copies chars s → e.joinsLast (e.savepos q) = false) :
    Grouped (us ++ [⟨e.savepos q, a⟩]) (e.saveundo k q) := by
  have hstack : e.savestack k q =
      e.b_undo.freeredo.newundo e.start.isSome e.b_flag ⟨e.savepos q, saved a⟩ := by
    unfold Ed.savestack
    rw [← hka]
    cases k with
    | UINSERT copies chars s =>
      dsimp only
      rw [hk copies chars s rfl, if_neg Bool.false_ne_true]
    | _ => rfl
  have hsave : e.saveundo k q = { e with b_undo := e.savestack k q, start := none } := by
    unfold Ed.saveundo
    rw [h.undoing, if_neg Bool.false_ne_true]
  rw [hsave]
  refine ⟨h.undoing, fun hnil => absurd hnil (by simp), fun _ => ⟨rfl, ?_⟩⟩
  dsimp only
  rw [hstack]
  by_cases hus : us = []
  · rw [h.first hus, UNDOSTACK.newundo, if_pos rfl]
    obtain ⟨gs, hgs⟩ := newgroup_freeredo e.b_undo ⟨[⟨e.savepos q, saved a⟩], e.b_flag⟩
    refine ⟨_, _, gs, hgs, ?_⟩
    rw [hus]
    exact .cons (reads_saved ha _) .nil
  · obtain ⟨hstart, vs, flag, gs, hgs, hread⟩ := h.later hus
    rw [hstart, Option.isSome_none, UNDOSTACK.newundo, if_neg Bool.false_ne_true]
    refine ⟨vs ++ [⟨e.savepos q, saved a⟩], flag, gs, ?_, ?_⟩
    · show (e.b_undo.undolist.modifyHead fun g =>
        { g with undos := g.undos ++ [⟨e.savepos q, saved a⟩] }) = _
      rw [hgs]
      rfl
    · exact List.rel_append hread (.cons (reads_saved ha _) .nil)

/-- A record without a position, within a command that has saved one before. -/
theorem Grouped.savepos_none (h : Grouped us e) (hus : us ≠ []) : e.savepos none = none :=
  (h.later hus).1

/-- No insertion joins a record of such an act. -/
def Closed (a : Act UChar) : Prop := ∀ n w, a ≠ .ins n w

theorem closed_move : Closed .move := fun _ _ => nofun

theorem closed_deletion (w : List UChar) : Closed (deletion w) := fun _ _ => nofun

/-- An insertion does not join another act. -/
theorem Grouped.joinsLast {r : Rec UChar} (h : Grouped (us ++ [r]) e) (hr : Closed r.act)
    (p : Option (Nat × Nat)) : e.joinsLast p = false := by
  obtain ⟨-, vs, flag, gs, hgs, hread⟩ := h.later (by simp)
  obtain ⟨vs, ws, -, hws, rfl⟩ := Journal.forall₂_split hread
  cases hws with
  | @cons u _ _ _ hu hnil =>
    cases hnil
    have hlast : e.b_undo.lastundo = some u := by
      rw [UNDOSTACK.lastundo, hgs]
      simp
    unfold Ed.joinsLast
    rw [hlast]
    cases hu with
    | ins pos n hws => exact absurd rfl (hr _ _)
    | _ => rfl

/-- **`ldelete`** within a line saves what it deletes. -/
theorem Grouped.ldelete (h : Grouped us e) (hs : Shows e z) (hro : e.bfro = false) (hus : us ≠ [])
    {k : Nat} (hk : 0 < k) (hle : k ≤ e.rest.length) :
    Grouped (us ++ [⟨none, deletion (e.rest.take k)⟩]) (Emacs.ldelete k e).1 := by
  obtain ⟨hlen, hdel, hne, hone⟩ := ldelete_step hs hro hk hle
  have hwhole : WholeAct (deletion (e.rest.take k)) :=
    ((hs.sound.chars hs.mem).1.drop e.dot.o).whole.take k
  rw [hone, ldeleteStep_eq hs hk]
  dsimp only
  rw [hlen, if_neg hne, hdel]
  have hlog : Grouped us e.lchange := h.congr rfl rfl rfl
  have hstep : (Saved.UDELETE k (e.rest.take k).flatten).step =
      saved (deletion (e.rest.take k)) := by
    rw [← hdel, deletion, hlen]
    rfl
  have hsaved := hlog.saveundo (q := none) hstep hwhole fun _ _ _ heq => by cases heq
  rw [hlog.savepos_none hus] at hsaved
  exact hsaved.congr rfl rfl rfl

/-- **`linsert`** after another act saves what it inserts. -/
theorem Grouped.linsert {r : Rec UChar} (h : Grouped (us ++ [r]) e) (hr : Closed r.act)
    (hs : Shows e z) (hro : e.bfro = false) {i : Insertion} (hi : i.Spells ws) :
    Grouped (us ++ [r] ++ [⟨none, .ins ws.length ws⟩]) (Emacs.linsert i e).1 := by
  have hlog : Grouped (us ++ [r]) e.lchange := h.congr rfl rfl rfl
  have hsaved := hlog.saveundo (q := none) hi.step hi.inline.whole fun _ _ _ _ =>
    hlog.joinsLast hr _
  rw [hlog.savepos_none (by simp)] at hsaved
  rw [linsert_eq hs hro]
  generalize e.lchange.saveundo i.saved none = s at hsaved ⊢
  obtain ⟨h₁, h₂, h₃⟩ := insertLine_undo s.dot (uoffset (s.line s.dot.p).l_text s.dot.o) i.bytes s
  exact hsaved.congr h₁ h₂ h₃

/-! ## The journal of a command -/

/-- Between two stretches: the records carry the text `b` to the text that is shown. -/
structure Recorded (us : List (Rec UChar)) (b : List UChar) (z : Zipper UChar) (e : Ed) : Prop where
  writable : Writable e z
  grouped : Grouped us e
  carries : Carries isBreak us b z.text

/-- Within a stretch, which has been performed where the cursor is. -/
structure Recording (us : List (Rec UChar)) (b : List UChar) (z : Zipper UChar) (e : Ed) : Prop where
  writable : Writable e z
  grouped : Grouped us e
  writing : Writing isBreak us b z
  some : us ≠ []

theorem Recording.recorded (h : Recording us b z e) : Recorded us b z e :=
  ⟨h.writable, h.grouped, h.writing.carries⟩

/-- A command begins. -/
theorem startsaveundo_recorded (h : Writable e z) : Recorded [] z.text z e.startsaveundo :=
  ⟨⟨h.shows_.congr rfl rfl rfl rfl rfl, h.bfro⟩, startsaveundo_grouped e, .nil _⟩

/-- The cursor is moved. -/
theorem Recorded.move (h : Recorded us b z e) {p : POS} (hs : Shows (e.setDot p) z') :
    Recorded us b z' (e.setDot p) := by
  have htext : z'.text = z.text := hs.text.trans h.writable.shows_.text.symm
  refine ⟨⟨hs, h.writable.bfro⟩, h.grouped.congr rfl rfl rfl, ?_⟩
  rw [htext]
  exact h.carries

theorem Recorded.lchange (h : Recorded us b z e) : Recorded us b z e.lchange :=
  ⟨⟨h.writable.shows_.lchange, h.writable.bfro⟩, h.grouped.congr rfl rfl rfl, h.carries⟩

/-- The position of the cursor is saved: a stretch begins. -/
theorem Recorded.saveundo (h : Recorded us b z e) :
    Recording (us ++ [⟨Option.some (row isBreak z.left, col isBreak z.left), .move⟩]) b z
      (e.saveundo .UMOVE (Option.some e.dot)) := by
  obtain ⟨hrow, hcol⟩ := h.writable.shows_.position
  have hpos : e.savepos (Option.some e.dot) =
      Option.some (row isBreak z.left, col isBreak z.left) := by
    rw [Ed.savepos, hrow, hcol]
  have hsaved := h.grouped.saveundo (q := Option.some e.dot) (k := .UMOVE) (a := .move) rfl trivial
    fun _ _ _ heq => by cases heq
  have hwriting := h.carries.begin (r := ⟨Option.some (row isBreak z.left, col isBreak z.left), .move⟩)
    h.writable.shows_.right_ne rfl (.move z)
  rw [List.append_nil] at hwriting
  rw [hpos] at hsaved
  exact ⟨⟨h.writable.shows_.saveundo _ _, (saveundo_bfro ..).trans h.writable.bfro⟩, hsaved,
    hwriting, by simp⟩

/-- A position is saved that is not the one of the cursor. -/
theorem Recorded.saveundo_at (h : Recorded us b z e) {p : POS}
    (hpos : e.savepos (some p) = some (row isBreak z'.left, col isBreak z'.left))
    (htext : z'.text = z.text) (hright : z'.right ≠ []) :
    Recorded (us ++ [⟨some (row isBreak z'.left, col isBreak z'.left), .move⟩]) b z
      (e.saveundo .UMOVE (some p)) := by
  have hsaved := h.grouped.saveundo (q := some p) (k := .UMOVE) (a := .move) rfl trivial
    fun _ _ _ heq => by cases heq
  have hcarries := h.carries
  rw [← htext] at hcarries
  have hwriting := hcarries.begin (r := ⟨some (row isBreak z'.left, col isBreak z'.left), .move⟩)
    hright rfl (.move z')
  rw [List.append_nil] at hwriting
  rw [hpos] at hsaved
  refine ⟨⟨h.writable.shows_.saveundo _ _, (saveundo_bfro ..).trans h.writable.bfro⟩, hsaved, ?_⟩
  rw [← htext]
  exact hwriting.carries

/-- Characters are deleted within the line. -/
theorem Recording.ldelete {l w x : List UChar} (h : Recording us b ⟨l, w ++ x⟩ e) (hw : w ≠ [])
    (hnl : nl ∉ w) (hx : x ≠ []) :
    Recording (us ++ [⟨none, deletion w⟩]) b ⟨l, x⟩ (Emacs.ldelete w.length e).1 := by
  obtain ⟨⟨hs, hro⟩, hgrouped, hwriting, hus⟩ := h
  have hrest : e.rest = w ++ x.takeWhile (· ≠ nl) := by
    have hpos : ∀ c ∈ w, decide (c ≠ nl) = true := fun c hc =>
      decide_eq_true fun heq => hnl (heq ▸ hc)
    rw [← hs.line_rest, List.takeWhile_append_of_pos hpos]
  have hdel := hgrouped.ldelete hs hro hus (List.length_pos_iff.mpr hw)
    (by rw [hrest, List.length_append]; omega)
  rw [hrest, List.take_left] at hdel
  have hshows := (ldelete_shows hs hro w.length).1
  have hlt : w.length < (w ++ x).length := by
    have := List.length_pos_iff.mpr hx
    rw [List.length_append]
    omega
  rw [Zipper.delete_of_lt hlt, List.drop_left] at hshows
  have hnext := hwriting.next (r := ⟨none, deletion w⟩) rfl (Performs.del w l hx)
  rw [List.append_nil] at hnext
  exact ⟨⟨hshows, (ldelete_bfro ..).trans hro⟩, hdel, hnext, by simp⟩

/-- Characters are inserted after another act. -/
theorem Recording.linsert {r : Rec UChar} (h : Recording (us ++ [r]) b z e) (hr : Closed r.act)
    {i : Insertion} (hi : i.Spells ws) :
    Recording (us ++ [r] ++ [⟨none, .ins ws.length ws⟩]) b (z.insert ws)
      (Emacs.linsert i e).1 := by
  obtain ⟨⟨hs, hro⟩, hgrouped, hwriting, -⟩ := h
  have hnext := hwriting.next (r := ⟨none, .ins ws.length ws⟩) rfl (Performs.ins ws z)
  rw [List.append_nil] at hnext
  exact ⟨⟨(linsert_shows hs hro hi).1, (linsert_bfro ..).trans hro⟩, hgrouped.linsert hr hs hro hi,
    hnext, by simp⟩

/-- Characters are inserted where the command begins, and they join no record. -/
theorem Recorded.linsert (h : Recorded [] b z e)
    (hstart : e.start = Option.some (row isBreak z.left, col isBreak z.left))
    (hjoin : e.joinsLast e.start = false) {i : Insertion} (hi : i.Spells ws) :
    Recording [⟨Option.some (row isBreak z.left, col isBreak z.left), .ins ws.length ws⟩] b
      (z.insert ws) (Emacs.linsert i e).1 := by
  obtain ⟨⟨hs, hro⟩, hgrouped, hcarries⟩ := h
  have hlog : Grouped [] e.lchange := hgrouped.congr rfl rfl rfl
  have hsaved := hlog.saveundo (q := none) hi.step hi.inline.whole fun _ _ _ _ => hjoin
  have hwriting := hcarries.begin
    (r := ⟨Option.some (row isBreak z.left, col isBreak z.left), .ins ws.length ws⟩) hs.right_ne rfl
    (Performs.ins ws z)
  have hpos : e.lchange.savepos none = Option.some (row isBreak z.left, col isBreak z.left) := hstart
  rw [List.append_nil, List.nil_append] at hwriting
  rw [List.nil_append, hpos] at hsaved
  refine ⟨⟨(linsert_shows hs hro hi).1, (linsert_bfro ..).trans hro⟩, ?_, hwriting,
    List.cons_ne_nil _ _⟩
  rw [linsert_eq hs hro]
  generalize e.lchange.saveundo i.saved none = s at hsaved ⊢
  obtain ⟨h₁, h₂, h₃⟩ := insertLine_undo s.dot (uoffset (s.line s.dot.p).l_text s.dot.o) i.bytes s
  exact hsaved.congr h₁ h₂ h₃

/-- The loop of `undo` takes a journal back. -/
theorem undoLoop_plays {vs : List UNDO} {t : List UChar} (h : Writable e z) (htext : z.text = t)
    (hread : List.Forall₂ Reads vs us) (hcarries : Carries isBreak us b t) :
    ∃ z', Writable (undoLoop vs.reverse [] ({ e with undoing := true }, true)).1 z' ∧
      z'.text = b := by
  have hbegin : Writable { e with undoing := true } z :=
    ⟨h.shows_.congr rfl rfl rfl rfl rfl, h.bfro⟩
  have hstarts : ∀ (u : UNDO) (r : Rec UChar), Reads u r →
      (fun up : UNDO => up.pos.isSome) u = r.pos.isSome :=
    fun u r hur => congrArg Option.isSome hur.pos
  rw [undoLoop_fst]
  exact hcarries.undoes.playBack undostep_plays hstarts hread (fun _ _ => trivial) hbegin htext

/-- **One `undo`** restores the text from before the command. -/
theorem Recorded.undone (h : Recorded us b z e) (hus : us ≠ []) :
    ∃ z', Shows (undo e).1 z' ∧ z'.text = b := by
  obtain ⟨hwritable, hgrouped, hcarries⟩ := h
  obtain ⟨-, vs, flag, gs, hgs, hread⟩ := hgrouped.later hus
  obtain ⟨z', hplayed, htext⟩ := undoLoop_plays hwritable rfl hread hcarries
  refine ⟨z', ?_, htext⟩
  unfold undo
  rw [hgs]
  exact hplayed.shows_.congr rfl rfl rfl rfl rfl

/-! ## A command that edits one line -/

/-- The line of the cursor, and no other one, is changed to `cs`, and one `undo` takes that
back. -/
def EditsLine (e e' : Ed) (cs : List UChar) : Prop :=
  e'.text = e.text.set (e.lineno e.dot.p) cs.flatten ∧ (undo e').1.text = e.text

/-- A command that has saved what it did to the line of the cursor. -/
theorem Recorded.editsLine {l x cs : List UChar} (h : Recorded us e.symbols ⟨l, x⟩ e') (hus : us ≠ [])
    (hs : Sound e) (hmem : e.dot.p ∈ e.lines)
    (htext : l ++ x = e.above.flatMap e.row ++ (cs ++ nl :: e.below.flatMap e.row)) (hcs : nl ∉ cs) :
    EditsLine e e' cs := by
  obtain ⟨z', hshows, hundone⟩ := h.undone hus
  have hl := hs.lines_eq hmem
  have hsub : ∀ q ∈ e.above, q ∈ e.lines := fun q hq => (List.takeWhile_prefix _).subset hq
  obtain ⟨hrow, hcol⟩ := hs.lines_position hsub
  have hsym : e.symbols =
      e.above.flatMap e.row ++ (e.chars e.dot.p ++ nl :: e.below.flatMap e.row) := by
    conv_lhs => rw [Ed.symbols, hl]
    rw [List.flatMap_append, List.flatMap_cons, Ed.row, List.append_assoc]
    rfl
  have hsym' := h.writable.shows_.text.symm.trans htext
  have hlineno : e.lineno e.dot.p = e.above.length := by
    have hidx : e.lines.idxOf e.dot.p = e.above.length := by
      have hout := (hs.around hl).1
      conv_lhs => rw [hl]
      rw [List.idxOf_append_of_notMem hout, List.idxOf_cons_self, Nat.add_zero]
    have hlt := List.idxOf_lt_length_of_mem hmem
    rw [Ed.lineno, hidx]
    rw [hidx] at hlt
    omega
  obtain ⟨-, hset⟩ := hs.text_set h.writable.shows_.sound hsym hsym' hcol
    (hs.chars hmem).1.noBreak hcs
  refine ⟨?_, (text_eq_iff hshows.sound hs).mpr (hshows.text.symm.trans hundone)⟩
  rw [hset, hrow, hlineno]

end Emacs
