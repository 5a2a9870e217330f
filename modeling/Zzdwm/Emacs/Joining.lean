import Zzdwm.Emacs.Edit
import Zzdwm.Emacs.Region

/-!
# Joining two lines (`line.c`)

`ldelnewline` joins the line of the cursor with the next one, in place if there is
room and with a new line otherwise.  Both must give the same text, and move the
positions of all windows to where the same characters are now.

* `JoinsText`, `JoinsPositions` — what joining two lines is;
* `ldelnewline_text` — **the text is right in both branches**;
* `ldelnewline_joins_iff` — **the positions are right** unless an older mark lies
  on the second line (in place), or a position does and the first line has
  characters of several bytes (new line).
-/

namespace Emacs

/-- Where a position is after the line `lp2` was joined to the line `lp1`, which
has `chars` characters. -/
def joinedPos (lp1 lp2 joined : LineId) (chars : Nat) (pos : POS) : POS :=
  if pos.p = lp1 then ⟨joined, pos.o⟩
  else if pos.p = lp2 then ⟨joined, pos.o + chars⟩
  else pos

/-- The cursor and the marks of a window have all been moved. -/
structure Relocated (f : POS → POS) (w w' : EWINDOW) : Prop where
  dot : w'.w_dot = f w.w_dot
  count : w'.w_ring.m_count = w.w_ring.m_count
  ring : ∀ i, i.val < w.w_ring.m_count → w'.w_ring.m_ring i = f (w.w_ring.m_ring i)

/-- `ALLWIND`, as a list. -/
def Ed.windows (e : Ed) : List EWINDOW := e.curwp :: e.others

/-- One line has taken the place of two, with the text of both; the other lines are
as before. -/
structure JoinsText (lp1 lp2 joined : LineId) (e e' : Ed) : Prop where
  lines : ∃ as bs, e.lines = as ++ lp1 :: lp2 :: bs ∧ e'.lines = as ++ joined :: bs ∧
    ∀ p ∈ as ++ bs, e'.line p = e.line p
  text : (e'.line joined).l_text = (e.line lp1).l_text ++ (e.line lp2).l_text

/-- The positions of all windows are where their characters are now. -/
def JoinsPositions (lp1 lp2 joined : LineId) (e e' : Ed) : Prop :=
  List.Forall₂ (Relocated (joinedPos lp1 lp2 joined (e.line lp1).wllength)) e.windows e'.windows

/-- The line of the cursor has been joined with the next one. -/
def Joins (e e' : Ed) : Prop :=
  ∃ joined, JoinsText e.dot.p (e.lforw e.dot.p) joined e e' ∧
    JoinsPositions e.dot.p (e.lforw e.dot.p) joined e e'

/-- No mark of the window but the current one lies on the line. -/
def EWINDOW.OldMarksOff (lp : LineId) (w : EWINDOW) : Prop :=
  ∀ i, 0 < i.val → i.val < w.w_ring.m_count → (w.w_ring.m_ring i).p ≠ lp

/-- Neither the cursor of the window nor any of its marks lies on the line. -/
def EWINDOW.Off (lp : LineId) (w : EWINDOW) : Prop :=
  w.w_dot.p ≠ lp ∧ ∀ i, i.val < w.w_ring.m_count → (w.w_ring.m_ring i).p ≠ lp

/-- Does the next line fit into the room of the current one? -/
def Ed.NextFits (e : Ed) : Prop :=
  (e.line (e.lforw e.dot.p)).l_used ≤ (e.line e.dot.p).l_size - (e.line e.dot.p).l_used

instance (e : Ed) : Decidable e.NextFits := Nat.decLe _ _

/-- The addresses of the lines have been handed out. -/
def Fresh (e : Ed) : Prop := ∀ p ∈ e.b_linep :: e.lines, p < e.nextline

variable {e e' : Ed} {lp1 lp2 joined : LineId} {as bs : List LineId}

/-- The line of the cursor and the next one are neighbours. -/
theorem Linked.neighbours (h : Linked e) (hdot : e.dot.p ∈ e.lines)
    (hnext : e.lforw e.dot.p ≠ e.b_linep) :
    ∃ as bs, e.lines = as ++ e.dot.p :: e.lforw e.dot.p :: bs := by
  obtain ⟨as, bs, hl, has, -⟩ := Circular.split_of_mem hdot h.nodup
  have hne : e.dot.p ≠ e.b_linep := fun heq => h.header (heq ▸ hdot)
  have hforw : e.lforw e.dot.p = bs.headD e.b_linep := by
    rw [lforw_eq, hl, Circular.next_append has hne]
  cases bs with
  | nil => exact absurd hforw hnext
  | cons q bs =>
    rw [List.headD_cons] at hforw
    exact ⟨as, bs, by rw [hforw, hl]⟩

/-- What a list without repetitions says about two neighbours in it. -/
theorem nodup_neighbours (hnd : (as ++ lp1 :: lp2 :: bs).Nodup) :
    lp1 ≠ lp2 ∧ lp1 ∉ as ++ bs ∧ lp2 ∉ as ++ bs := by
  have hperm : (lp1 :: lp2 :: (as ++ bs)).Nodup := by
    refine (List.Perm.nodup_iff ?_).mp hnd
    refine List.perm_middle.trans (List.Perm.cons _ List.perm_middle)
  obtain ⟨h1, hnd⟩ := List.nodup_cons.mp hperm
  obtain ⟨h2, -⟩ := List.nodup_cons.mp hnd
  exact ⟨fun heq => h1 (heq ▸ List.mem_cons_self), fun hmem => h1 (List.mem_cons_of_mem _ hmem), h2⟩

theorem erase_neighbour (hnd : (as ++ lp1 :: lp2 :: bs).Nodup) :
    (as ++ lp1 :: lp2 :: bs).erase lp2 = as ++ lp1 :: bs := by
  obtain ⟨hne, -, h2⟩ := nodup_neighbours hnd
  have has : lp2 ∉ as := fun hmem => h2 (List.mem_append_left _ hmem)
  rw [List.erase_append_right _ has, List.erase_cons_tail (by simpa using hne), List.erase_cons_head]

theorem windows_allwind (f : Bool → EWINDOW → EWINDOW) (e : Ed) :
    (e.allwind f).windows = f true e.curwp :: e.others.map (f false) := rfl

section Branches

variable (hnd : e.lines.Nodup) (hl : e.lines = as ++ lp1 :: lp2 :: bs)

include hnd hl

/-- The text after joining in place. -/
theorem mergeLines_text : JoinsText lp1 lp2 lp1 e (mergeLines lp1 lp2 e) := by
  obtain ⟨-, h1, -⟩ := nodup_neighbours (hl ▸ hnd)
  refine ⟨⟨as, bs, hl, ?_, fun p hp => ?_⟩, ?_⟩
  · show e.lines.erase lp2 = as ++ lp1 :: bs
    rw [hl]
    exact erase_neighbour (hl ▸ hnd)
  · have hne : p ≠ lp1 := fun heq => h1 (heq ▸ hp)
    exact Function.update_of_ne hne _ _
  · exact congrArg LINE.l_text (Function.update_self lp1 _ e.line)

/-- The text after joining in a new line. -/
theorem joinLines_text (hfresh : e.nextline ∉ e.lines) :
    JoinsText lp1 lp2 e.nextline e (joinLines lp1 lp2 e) := by
  obtain ⟨-, h1, -⟩ := nodup_neighbours (hl ▸ hnd)
  refine ⟨⟨as, bs, hl, ?_, fun p hp => ?_⟩, ?_⟩
  · show (e.lines.erase lp2).map (fun p => if p = lp1 then e.nextline else p) = _
    have hkeep : ∀ ps : List LineId, lp1 ∉ ps →
        ps.map (fun p => if p = lp1 then e.nextline else p) = ps := by
      intro ps hps
      refine (List.map_congr_left fun p hp => ?_).trans (List.map_id ps)
      have hne : p ≠ lp1 := fun heq => hps (heq ▸ hp)
      exact if_neg hne
    rw [hl, erase_neighbour (hl ▸ hnd), List.map_append, List.map_cons, if_pos rfl,
      hkeep as fun hmem => h1 (List.mem_append_left _ hmem),
      hkeep bs fun hmem => h1 (List.mem_append_right _ hmem)]
  · have hmem : p ∈ e.lines := by
      rw [hl]
      rcases List.mem_append.mp hp with hmem | hmem
      · exact List.mem_append_left _ hmem
      · exact List.mem_append_right _ (List.mem_cons_of_mem _ (List.mem_cons_of_mem _ hmem))
    have hne : p ≠ e.nextline := by
      intro heq
      rw [heq] at hmem
      exact hfresh hmem
    exact Function.update_of_ne hne _ _
  · exact congrArg LINE.l_text (Function.update_self e.nextline _ e.line)

end Branches

/-- Which line has taken the place of the two is told by its place. -/
theorem JoinsText.unique {joined' : LineId} (hnd : e.lines.Nodup)
    (h : JoinsText lp1 lp2 joined e e') (h' : JoinsText lp1 lp2 joined' e e') : joined = joined' := by
  have hplace : ∀ {j}, JoinsText lp1 lp2 j e e' → e'.lines[e.lines.idxOf lp1]? = some j := by
    intro j hj
    obtain ⟨as, bs, hl, hl', -⟩ := hj.lines
    have has : lp1 ∉ as := fun hmem =>
      (nodup_neighbours (hl ▸ hnd)).2.1 (List.mem_append_left _ hmem)
    have hidx : e.lines.idxOf lp1 = as.length := by
      rw [hl, List.idxOf_append_of_notMem has, List.idxOf_cons_self, Nat.add_zero]
    rw [hidx, hl', List.getElem?_append_right (le_refl _), Nat.sub_self]
    rfl
  exact Option.some.inj ((hplace h).symm.trans (hplace h'))

/-- The positions of all windows, window by window. -/
theorem joinsPositions_iff {g : EWINDOW → EWINDOW} (hw : e'.windows = e.windows.map g) :
    JoinsPositions lp1 lp2 joined e e' ↔ ∀ w ∈ e.windows,
      Relocated (joinedPos lp1 lp2 joined (e.line lp1).wllength) w (g w) := by
  unfold JoinsPositions
  rw [hw, List.forall₂_map_right_iff, List.forall₂_same]

/-- Joining in place moves the cursor and the current mark. -/
theorem relocated_mergeWindow (hne : lp1 ≠ lp2) (chars : Nat) (w : EWINDOW) :
    Relocated (joinedPos lp1 lp2 lp1 chars) w (mergeWindow lp1 lp2 chars w) ↔ w.OldMarksOff lp2 := by
  have hpos : ∀ pos : POS, (if pos.p = lp2 then ⟨lp1, pos.o + chars⟩ else pos) =
      joinedPos lp1 lp2 lp1 chars pos := by
    rintro ⟨p, o⟩
    unfold joinedPos
    grind
  constructor
  · intro h i hpos hlt hlp
    have hring := h.ring i hlt
    have hi : ¬ (i.val = 0 ∧ (w.w_ring.m_ring i).p = lp2) := fun hi => by omega
    have hsame : (mergeWindow lp1 lp2 chars w).w_ring.m_ring i = w.w_ring.m_ring i := if_neg hi
    have hmoved : joinedPos lp1 lp2 lp1 chars (w.w_ring.m_ring i) =
        ⟨lp1, (w.w_ring.m_ring i).o + chars⟩ := by
      rw [joinedPos, if_neg fun heq => hne (heq.symm.trans hlp), if_pos hlp]
    rw [hsame, hmoved] at hring
    exact hne ((congrArg POS.p hring).symm.trans hlp)
  · intro h
    refine ⟨hpos w.w_dot, rfl, fun i hlt => ?_⟩
    show (if i.val = 0 ∧ (w.w_ring.m_ring i).p = lp2 then
      ⟨lp1, (w.w_ring.m_ring i).o + chars⟩ else w.w_ring.m_ring i) = _
    rw [← hpos]
    by_cases hi : i.val = 0
    · simp only [hi, true_and]
    · have hoff := h i (Nat.pos_of_ne_zero hi) hlt
      rw [if_neg fun hand => hi hand.1, if_neg hoff]

/-- Joining in a new line moves every position, by the bytes of the first line. -/
theorem relocated_joinWindow (hne : lp1 ≠ lp2) (lp3 : LineId) (used chars : Nat) (w : EWINDOW) :
    Relocated (joinedPos lp1 lp2 lp3 chars) w (joinWindow lp1 lp2 lp3 used w) ↔
      used = chars ∨ w.Off lp2 := by
  have hsame : ∀ pos : POS, adjustfordelnewline lp1 lp2 lp3 used pos =
      joinedPos lp1 lp2 lp3 chars pos ↔ used = chars ∨ pos.p ≠ lp2 := by
    rintro ⟨p, o⟩
    unfold adjustfordelnewline joinedPos
    grind
  have hring : ∀ i : Fin RINGSIZE, i.val < w.w_ring.m_count →
      (joinWindow lp1 lp2 lp3 used w).w_ring.m_ring i =
        adjustfordelnewline lp1 lp2 lp3 used (w.w_ring.m_ring i) := fun i hlt => if_pos hlt
  constructor
  · intro h
    by_cases hused : used = chars
    · exact .inl hused
    · refine .inr ⟨((hsame _).mp h.dot).resolve_left hused, fun i hlt => ?_⟩
      exact ((hsame _).mp ((hring i hlt).symm.trans (h.ring i hlt))).resolve_left hused
  · intro h
    refine ⟨(hsame _).mpr (h.imp id And.left), rfl, fun i hlt => ?_⟩
    exact (hring i hlt).trans ((hsame _).mpr (h.imp id fun hoff => hoff.2 i hlt))

/-- Where `ldelnewline` moves the positions of all windows to their characters. -/
def Ed.JoinsSafely (e : Ed) : Prop :=
  let lp2 := e.lforw e.dot.p
  if e.NextFits then ∀ w ∈ e.windows, w.OldMarksOff lp2
  else (e.line e.dot.p).l_used = (e.line e.dot.p).wllength ∨ ∀ w ∈ e.windows, w.Off lp2

section

variable (h : Linked e) (hfresh : Fresh e) (hdot : e.dot.p ∈ e.lines)
  (hnext : e.lforw e.dot.p ≠ e.b_linep)

include h hdot hnext

omit h hdot in
theorem ldelnewline_merge (hfits : e.NextFits) :
    ldelnewline e = mergeLines e.dot.p (e.lforw e.dot.p) e := by
  unfold Ed.NextFits at hfits
  unfold ldelnewline
  rw [if_neg hnext, if_pos hfits]

omit h hdot in
theorem ldelnewline_join (hfits : ¬ e.NextFits) :
    ldelnewline e = joinLines e.dot.p (e.lforw e.dot.p) e := by
  unfold Ed.NextFits at hfits
  unfold ldelnewline
  rw [if_neg hnext, if_neg hfits]

include hfresh in
/-- **The text is right**, whichever branch runs. -/
theorem ldelnewline_text : ∃ joined, JoinsText e.dot.p (e.lforw e.dot.p) joined e (ldelnewline e) := by
  obtain ⟨as, bs, hl⟩ := h.neighbours hdot hnext
  by_cases hfits : e.NextFits
  · rw [ldelnewline_merge hnext hfits]
    exact ⟨_, mergeLines_text h.nodup hl⟩
  · rw [ldelnewline_join hnext hfits]
    have hnew : e.nextline ∉ e.lines := fun hmem =>
      lt_irrefl _ (hfresh _ (List.mem_cons_of_mem _ hmem))
    exact ⟨_, joinLines_text h.nodup hl hnew⟩

/-- Joining in place is right for the marks that it moves. -/
theorem joins_mergeLines_iff :
    Joins e (mergeLines e.dot.p (e.lforw e.dot.p) e) ↔
      ∀ w ∈ e.windows, w.OldMarksOff (e.lforw e.dot.p) := by
  obtain ⟨as, bs, hl⟩ := h.neighbours hdot hnext
  have hne := (nodup_neighbours (hl ▸ h.nodup)).1
  have htext := mergeLines_text h.nodup hl
  have hpos : JoinsPositions e.dot.p (e.lforw e.dot.p) e.dot.p e
      (mergeLines e.dot.p (e.lforw e.dot.p) e) ↔
        ∀ w ∈ e.windows, w.OldMarksOff (e.lforw e.dot.p) :=
    (joinsPositions_iff rfl).trans
      (forall₂_congr fun w _ => relocated_mergeWindow hne (e.line e.dot.p).wllength w)
  rw [← hpos]
  constructor
  · rintro ⟨joined, ht, hp⟩
    rwa [ht.unique h.nodup htext] at hp
  · exact fun hp => ⟨_, htext, hp⟩

include hfresh in
/-- Joining in a new line is right where bytes are characters. -/
theorem joins_joinLines_iff :
    Joins e (joinLines e.dot.p (e.lforw e.dot.p) e) ↔
      (e.line e.dot.p).l_used = (e.line e.dot.p).wllength ∨
        ∀ w ∈ e.windows, w.Off (e.lforw e.dot.p) := by
  obtain ⟨as, bs, hl⟩ := h.neighbours hdot hnext
  have hne := (nodup_neighbours (hl ▸ h.nodup)).1
  have hnew : e.nextline ∉ e.lines := fun hmem =>
    lt_irrefl _ (hfresh _ (List.mem_cons_of_mem _ hmem))
  have htext := joinLines_text h.nodup hl hnew
  have hpos : JoinsPositions e.dot.p (e.lforw e.dot.p) e.nextline e
      (joinLines e.dot.p (e.lforw e.dot.p) e) ↔
        ∀ w ∈ e.windows, (e.line e.dot.p).l_used = (e.line e.dot.p).wllength ∨
          w.Off (e.lforw e.dot.p) :=
    (joinsPositions_iff rfl).trans (forall₂_congr fun w _ =>
      relocated_joinWindow hne e.nextline (e.line e.dot.p).l_used (e.line e.dot.p).wllength w)
  have hall : (∀ w ∈ e.windows, (e.line e.dot.p).l_used = (e.line e.dot.p).wllength ∨
      w.Off (e.lforw e.dot.p)) ↔ (e.line e.dot.p).l_used = (e.line e.dot.p).wllength ∨
        ∀ w ∈ e.windows, w.Off (e.lforw e.dot.p) := by
    by_cases hused : (e.line e.dot.p).l_used = (e.line e.dot.p).wllength
    · simp [hused]
    · simp [hused]
  rw [← hall, ← hpos]
  constructor
  · rintro ⟨joined, ht, hp⟩
    rwa [ht.unique h.nodup htext] at hp
  · exact fun hp => ⟨_, htext, hp⟩

end

/-- **`ldelnewline` moves every position to its character** exactly where no older
mark lies on the next line, if that fits into the room of the current line, and
otherwise where the current line has one byte for each character or no position
lies on the next line. -/
theorem ldelnewline_joins_iff (e : Ed) (h : Linked e) (hfresh : Fresh e) (hdot : e.dot.p ∈ e.lines)
    (hnext : e.lforw e.dot.p ≠ e.b_linep) : Joins e (ldelnewline e) ↔ e.JoinsSafely := by
  unfold Ed.JoinsSafely
  dsimp only
  by_cases hfits : e.NextFits
  · rw [if_pos hfits, ldelnewline_merge hnext hfits]
    exact joins_mergeLines_iff h hdot hnext
  · rw [if_neg hfits, ldelnewline_join hnext hfits]
    exact joins_joinLines_iff h hfresh hdot hnext

/-- A line with the letter é, whose code is C3 A9, in front of another line, with
the mark on the second one. -/
def accented : Ed := Ed.holding [[0xc3, 0xa9], [97, 98]] ⟨2, 0⟩ ⟨3, 1⟩

/-- A line in front of an empty one, with two marks on the second one. -/
def twiceMarked : Ed :=
  let e := Ed.holding [[97], []] ⟨2, 0⟩ ⟨3, 0⟩
  { e with curwp := { e.curwp with w_ring := ⟨2, fun _ => ⟨3, 0⟩, by decide⟩ } }

theorem fresh_holding (texts : List (List Byte)) (dot mark : POS) :
    Fresh (Ed.holding texts dot mark) := by
  intro p hp
  show p < texts.length + 2
  rcases List.mem_cons.mp hp with rfl | hmem
  · show 1 < texts.length + 2
    omega
  · rw [Nat.add_comm]
    exact (List.mem_range'_1.mp hmem).2

theorem linked_accented : Linked accented := Ed.linked_holding (by decide)

theorem linked_twiceMarked : Linked twiceMarked where
  nodup := List.nodup_range'
  header := by decide
  nonnull := by decide
  fits := by
    have h : Linked (Ed.holding [[97], []] ⟨2, 0⟩ ⟨3, 0⟩) := Ed.linked_holding (by decide)
    exact h.fits

/-- Plain letters are joined correctly. -/
theorem ldelnewline_joins_letters : Joins (letterLines 2) (ldelnewline (letterLines 2)) :=
  (ldelnewline_joins_iff (letterLines 2) (linked_letters (by decide)) (fresh_holding _ _ _)
    (by decide) (by decide)).mpr (.inl (unslen_letters 2).symm)

/-- **Both branches lose positions**: after é has been joined with the next line the
mark is one character too far, and of two marks on an empty line one still names
the line that was freed. -/
theorem ldelnewline_loses_marks :
    ¬ Joins accented (ldelnewline accented) ∧ ¬ Joins twiceMarked (ldelnewline twiceMarked) := by
  constructor
  · rw [ldelnewline_join (by decide) (by decide),
      joins_joinLines_iff linked_accented (fresh_holding _ _ _) (by decide) (by decide)]
    rintro (hused | hoff)
    · exact absurd hused (by decide)
    · exact (hoff accented.curwp List.mem_cons_self).2 ⟨0, by decide⟩ (by decide) rfl
  · rw [ldelnewline_merge (by decide) (by decide),
      joins_mergeLines_iff linked_twiceMarked (by decide) (by decide)]
    intro hoff
    exact hoff twiceMarked.curwp List.mem_cons_self ⟨1, by decide⟩ (by decide) (by decide) rfl

end Emacs
