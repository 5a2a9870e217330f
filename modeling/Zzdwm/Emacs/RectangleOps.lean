import Zzdwm.Emacs.LineLoops
import Zzdwm.Emacs.Records

/-!
# The other commands on a rectangle (`rectangle.c`)

Clearing a rectangle puts blanks in the place of what is cut out of each line.  Opening
one, replacing one by a string and yanking the clipboard insert at the left edge, and pad a
line with blanks that is too short to get there.

* `rectLines` — an edit of each line of the rectangle;
* `rectclear`, `rectopen`, `rectstring`, `rectyank`;
* `Edited` — what padding, inserting and blanking do to a line.
-/

namespace Emacs

open Journal (Zipper)

section Source

variable (w : Wcwidth) (tabsize : Nat)

/-- The loop of the commands over the lines of a rectangle, at most `n` of them, with the
number of lines that are edited.  `next` has been read before the edit, and there is no
result if it is a line that the edit has freed. -/
def rectLines (edit : LineId → Ed → Ed × Bool) (b : Bounds) : Nat → LineId → Ed →
    Option (Ed × Nat × Bool)
  | 0, _, _ => none
  | n + 1, lp, e =>
      if lp ∉ e.lines then none
      else
        let next := e.lforw lp
        match edit lp e with
        | (e, false) => some (e, 0, false)
        | (e, true) =>
            if lp = b.last then some (e, 1, true)
            else (rectLines edit b n next e).map fun (e, count, status) => (e, count + 1, status)

/-- The end of a command: the cursor is put on the upper left corner. -/
def Ed.corner (e : Ed) (above : LineId) (s_col : Int) : Ed :=
  e.setDot ⟨e.lforw above, wlcoloffset w tabsize (e.lineText (e.lforw above)) s_col⟩

/-- `rectclear`.  There is no result either if `beyond` has been freed. -/
def rectclear (e : Ed) (r : RECT) : Option Outcome :=
  match rectbounds w tabsize e r with
  | (r, .error message) => some ⟨e, r, some message, false⟩
  | (r, .ok b) =>
      let before := e.dot.p = b.first
      let beyond := if before then e.lback b.first else e.lforw b.last
      let col := wlcolumn w tabsize (e.lineText e.dot.p) e.dot.o
      match rectLines (fun lp => rectcutline w tabsize lp b.s_col b.e_col true) b e.lines.length
          b.first e with
      | none => none
      | some (e, _, false) => some ⟨e, r, none, false⟩
      | some (e, count, true) =>
          if beyond ∉ e.b_linep :: e.lines then none
          else
            let p := if before then e.lforw beyond else e.lback beyond
            some ⟨e.setDot ⟨p, wlcoloffset w tabsize (e.lineText p) col⟩, r.rectdrop,
              some s!"[Rectangle of {count} lines cleared]", true⟩

/-- A line that ends in front of a column is padded with blanks.  The line may be another
one afterwards. -/
def padLine (col : Int) (lp : LineId) (e : Ed) : Ed × LineId × Bool :=
  let end_col := wlcolumn w tabsize (e.lineText lp) (e.line lp).wllength
  if end_col < col then
    let e := e.setDot ⟨lp, (e.line lp).wllength⟩
    let (e, status) :=
      linsert (.copies (col - end_col).toNat 0x20) (e.saveundo .UMOVE (some e.dot))
    if !status then (e, lp, false) else (e, e.dot.p, true)
  else (e.setDot ⟨lp, e.dot.o⟩, lp, true)

/-- Insert at a column of the line of the cursor. -/
def insertAt (col : Int) (a : Insertion) (e : Ed) : Ed × Bool :=
  let e := e.setDot ⟨e.dot.p, wlcoloffset w tabsize (e.lineText e.dot.p) col⟩
  linsert a (e.saveundo .UMOVE (some e.dot))

/-- A round of `rectopen`, and of `rectyank`: pad the line, and insert. -/
def rectinsert (col : Int) (a : Insertion) (lp : LineId) (e : Ed) : Ed × Bool :=
  match padLine w tabsize col lp e with
  | (e, _, false) => (e, false)
  | (e, _, true) => insertAt w tabsize col a e

/-- `rectopen`. -/
def rectopen (f : Bool) (n : Int) (e : Ed) (r : RECT) : Option Outcome :=
  match rectbounds w tabsize e r with
  | (r, .error message) => some ⟨e, r, some message, false⟩
  | (r, .ok b) =>
      let width := if f ∧ n > 0 then n else b.e_col - b.s_col
      let above := e.lback b.first
      match rectLines (rectinsert w tabsize b.s_col (.copies width.toNat 0x20)) b e.lines.length
          b.first e with
      | none => none
      | some (e, _, false) => some ⟨e, r, none, false⟩
      | some (e, count, true) => some ⟨e.corner w tabsize above b.s_col, r.rectdrop,
          some s!"[Rectangle of {count} lines opened]", true⟩

/-- A round of `rectstring`. -/
def rectreplace (b : Bounds) (string : List Byte) (lp : LineId) (e : Ed) : Ed × Bool :=
  match padLine w tabsize b.s_col lp e with
  | (e, _, false) => (e, false)
  | (e, lp, true) =>
      match rectcutline w tabsize lp b.s_col b.e_col false e with
      | (e, false) => (e, false)
      | (e, true) => insertAt w tabsize b.s_col (.str string) e

/-- `rectstring`, with what `ereply` returns: the string, or nothing if it is not `TRUE`. -/
def rectstring (reply : Option (List Byte)) (e : Ed) (r : RECT) : Option Outcome :=
  match rectbounds w tabsize e r with
  | (r, .error message) => some ⟨e, r, some message, false⟩
  | (r, .ok b) =>
      match reply with
      | none => some ⟨e, r, none, false⟩
      | some string =>
          let above := e.lback b.first
          match rectLines (rectreplace w tabsize b string) b e.lines.length b.first e with
          | none => none
          | some (e, _, false) => some ⟨e, r, none, false⟩
          | some (e, count, true) => some ⟨e.corner w tabsize above b.s_col, r.rectdrop,
              some s!"[Rectangle of {count} lines stringed]", true⟩

/-- The loop of `rectyank`, with the number of slices that are yanked.  `next` is read
before the edit. -/
def rectyankLoop (col : Int) : List (List Byte) → LineId → Ed → Ed × Nat × Bool
  | [], _, e => (e, 0, true)
  | slice :: slices, lp, e =>
      if lp = e.b_linep then (e, 0, true)
      else
        let next := e.lforw lp
        match rectinsert w tabsize col (.str (slice.takeWhile (· ≠ 0))) lp e with
        | (e, false) => (e, 0, false)
        | (e, true) =>
            let (e, i, status) := rectyankLoop col slices next e
            (e, i + 1, status)

/-- `rectyank`.  The message is the last one that is shown. -/
def rectyank (e : Ed) (r : RECT) : Outcome :=
  if r.rect_lines = [] then ⟨e, r, some "No rectangle in the clipboard", false⟩
  else if e.dot.p = e.b_linep then ⟨e, r, some "Cannot yank past the last line", false⟩
  else
    let col := wlcolumn w tabsize (e.lineText e.dot.p) e.dot.o
    match rectyankLoop w tabsize col r.rect_lines e.dot.p e with
    | (e, _, false) => ⟨e, r, none, false⟩
    | (e, i, true) => ⟨e, r, some s!"[Rectangle of {i} lines yanked]", true⟩

end Source

/-! ## What is to be put in -/

section Spec

variable (w : Wcwidth) (tabsize : Nat) (goal : Int)

/-- A line that is padded with blanks up to a column. -/
def widened (cs : List UChar) : List UChar :=
  cs ++ List.replicate (goal - Cells.column (charCells w tabsize) 0 cs).toNat [0x20]

/-- A line with some characters put in at a column. -/
def putIn (ws cs : List UChar) : List UChar :=
  kept w tabsize goal cs ++ (ws ++ fromEdge w tabsize goal cs)

variable (s t : Int)

/-- What `rectcutline` leaves of a line of which it has expanded the tabs at the edges, if
the deletion stays within the line. -/
def cutTo (blank : Bool) (xs : List UChar) : List UChar :=
  kept w tabsize s xs ++
    ((if blank then List.replicate (cutWidth w tabsize s t xs).toNat [0x20] else []) ++
      (fromEdge w tabsize s xs).drop (cutBytes w tabsize s t xs))

end Spec

section Edits

variable {e e' : Ed} {as bs : List LineId} {p q r : LineId} {cs ds es ws : List UChar}
  {w : Wcwidth} {tabsize : Nat} {a : Insertion} {goal s t : Int}

/-- The column behind a line. -/
theorem Sound.lineColumn (h : Sound e) (hp : p ∈ e.lines) :
    wlcolumn w tabsize (e.lineText p) (e.line p).wllength =
      Cells.column (charCells w tabsize) 0 (e.chars p) := by
  rw [wllength_eq e p (h.inline p hp), wlcolumn_cells (h.lineText_chars hp) (Nat.le_refl _),
    List.take_length]

/-- Inserting at a place of a line that the cursor is put at. -/
theorem linsert_moved (h : Sound e) (hro : e.bfro = false) (hl : e.lines = as ++ p :: bs)
    (hcs : e.chars p = ds ++ es) (ha : a.Spells ws) :
    ∃ e' q, linsert a (e.moved ⟨p, ds.length⟩) = (e', true) ∧
      e'.dot = ⟨q, ds.length + ws.length⟩ ∧ Edited e e' as bs q (ds ++ (ws ++ es)) := by
  obtain ⟨hshows, hdot, hedit⟩ := h.moved (o := ds.length) hl (by
    rw [hcs, List.length_append]
    exact Nat.le_add_right _ _)
  obtain ⟨e', q, hrun, hdot', hins, -⟩ := linsert_edits hshows (hedit.bfro.trans hro) hedit.lines
    hdot (hedit.chars.trans hcs) ha
  exact ⟨e', q, hrun, hdot', hedit.trans hins⟩

variable (w tabsize goal) in
/-- **A line is padded.** -/
theorem padLine_edits (h : Sound e) (hro : e.bfro = false) (hl : e.lines = as ++ p :: bs) :
    ∃ e' q, padLine w tabsize goal p e = (e', q, true) ∧ e'.dot.p = q ∧
      Edited e e' as bs q (widened w tabsize goal (e.chars p)) := by
  have hp : p ∈ e.lines := by
    rw [hl]
    simp
  unfold padLine widened
  dsimp only
  rw [h.lineColumn hp, wllength_eq e p (h.inline p hp)]
  by_cases hshort : Cells.column (charCells w tabsize) 0 (e.chars p) < goal
  · obtain ⟨e', q, hrun, hdot, hedit⟩ := linsert_moved h hro hl (List.append_nil _).symm
      (spells_spaces (goal - Cells.column (charCells w tabsize) 0 (e.chars p)).toNat)
    rw [List.append_nil] at hedit
    refine ⟨e', q, ?_, by rw [hdot], hedit⟩
    rw [if_pos hshort]
    show (match linsert _ (e.moved ⟨p, (e.chars p).length⟩) with
      | (e, status) => if !status then (e, p, false) else (e, e.dot.p, true)) = _
    rw [hrun]
    dsimp only
    rw [hdot]
    rfl
  · have hnone : (goal - Cells.column (charCells w tabsize) 0 (e.chars p)).toNat = 0 := by omega
    rw [if_neg hshort, hnone, List.replicate_zero, List.append_nil]
    exact ⟨_, p, rfl, rfl, (Edited.refl h hl).setDot _⟩

variable (w tabsize goal) in
/-- **An insertion** at a column. -/
theorem insertAt_edits (h : Sound e) (hro : e.bfro = false) (hl : e.lines = as ++ p :: bs)
    (hdot : e.dot.p = p) (ha : a.Spells ws) :
    ∃ e' q, insertAt w tabsize goal a e = (e', true) ∧
      Edited e e' as bs q (putIn w tabsize goal ws (e.chars p)) := by
  have hchars := h.lineText_chars (p := p) (by rw [hl]; simp)
  obtain ⟨e', q, hrun, -, hedit⟩ := linsert_moved h hro hl
    (kept_append w tabsize goal (e.chars p)).symm ha
  refine ⟨e', q, ?_, hedit⟩
  unfold insertAt
  rw [hdot, wlcoloffset_cells hchars, ← length_kept]
  exact hrun

variable (w tabsize goal) in
/-- **A round of `rectopen`** and of `rectyank`. -/
theorem rectinsert_edits (h : Sound e) (hro : e.bfro = false) (hl : e.lines = as ++ p :: bs)
    (ha : a.Spells ws) :
    ∃ e' q, rectinsert w tabsize goal a p e = (e', true) ∧
      Edited e e' as bs q (putIn w tabsize goal ws (widened w tabsize goal (e.chars p))) := by
  obtain ⟨e₁, q₁, hpad, hdot, hedit⟩ := padLine_edits w tabsize goal h hro hl
  obtain ⟨e₂, q₂, hins, hedit'⟩ := insertAt_edits w tabsize goal hedit.sound
    (hedit.bfro.trans hro) hedit.lines hdot ha
  rw [hedit.chars] at hedit'
  refine ⟨e₂, q₂, ?_, hedit.trans hedit'⟩
  unfold rectinsert
  rw [hpad]
  exact hins

theorem cutBytes_zero {xs : List UChar} (h : cutCount w tabsize s t xs = 0) :
    cutBytes w tabsize s t xs = 0 ∧ cutWidth w tabsize s t xs = 0 := by
  have hnone : cutChars w tabsize s t xs = [] := by rw [cutChars, h, List.take_zero]
  rw [cutBytes, cutWidth, hnone]
  exact ⟨rfl, Int.sub_self _⟩

variable (w tabsize s t) in
/-- **A cut within the line**, with or without blanks in its place. -/
theorem cutCells_within (blank : Bool) (h : Sound e) (hro : e.bfro = false)
    (hl : e.lines = as ++ p :: bs) (hst : s ≤ t)
    (hfits : cutBytes w tabsize s t (e.chars p) ≤ (fromEdge w tabsize s (e.chars p)).length) :
    ∃ e' q, cutCells w tabsize p s t blank e = (e', true) ∧ (e.dot.p = p → e'.dot.p = q) ∧
      Edited e e' as bs q (cutTo w tabsize s t blank (e.chars p)) := by
  rw [cutCells_eq w tabsize s t h (by rw [hl]; simp) hst]
  by_cases hcount : cutCount w tabsize s t (e.chars p) = 0
  · obtain ⟨hbytes, hwidth⟩ := cutBytes_zero hcount
    have hsame : cutTo w tabsize s t blank (e.chars p) = e.chars p := by
      rw [cutTo, hbytes, hwidth, Int.toNat_zero, List.replicate_zero, ite_self, List.nil_append,
        List.drop_zero, kept_append]
    rw [if_pos hcount, hsame]
    exact ⟨e, p, rfl, id, Edited.refl h hl⟩
  · have hlen : ((fromEdge w tabsize s (e.chars p)).take
        (cutBytes w tabsize s t (e.chars p))).length = cutBytes w tabsize s t (e.chars p) := by
      rw [List.length_take, Nat.min_eq_left hfits]
    have hcs : e.chars p = kept w tabsize s (e.chars p) ++
        ((fromEdge w tabsize s (e.chars p)).take (cutBytes w tabsize s t (e.chars p)) ++
          (fromEdge w tabsize s (e.chars p)).drop (cutBytes w tabsize s t (e.chars p))) := by
      rw [List.take_append_drop, kept_append]
    obtain ⟨e₁, hrun, hdot, hedit, z, hshows⟩ :=
      ldelete_edits h hro hl hcs (congrArg Nat.cast hlen.symm)
    rw [if_neg hcount, hrun, cutTo]
    cases blank with
    | false => exact ⟨e₁, p, rfl, fun _ => by rw [hdot], hedit⟩
    | true =>
        obtain ⟨e₂, q, hins, hdot', hedit', -⟩ := linsert_edits hshows (hedit.bfro.trans hro)
          hedit.lines hdot hedit.chars
          (spells_spaces (cutWidth w tabsize s t (e.chars p)).toNat)
        exact ⟨e₂, q, hins, fun _ => by rw [hdot'], hedit.trans hedit'⟩

variable (w tabsize s t) in
/-- **`rectcutline`**, if the cut stays within the line. -/
theorem rectcutline_edits (blank : Bool) (h : Sound e) (hro : e.bfro = false)
    (hl : e.lines = as ++ p :: bs) (hst : s ≤ t)
    (hfits : cutBytes w tabsize s t (expanded w tabsize s t (e.chars p)) ≤
      (fromEdge w tabsize s (expanded w tabsize s t (e.chars p))).length) :
    ∃ e' q, rectcutline w tabsize p s t blank e = (e', true) ∧ (e.dot.p = p → e'.dot.p = q) ∧
      Edited e e' as bs q (cutTo w tabsize s t blank (expanded w tabsize s t (e.chars p))) := by
  obtain ⟨e₁, q₁, hrun, hdot, hedit⟩ := rectcutline_run w tabsize s t h hro hl
  rw [← hedit.chars] at hfits ⊢
  obtain ⟨e₂, q₂, hcut, hdot', hedit'⟩ := cutCells_within w tabsize s t blank hedit.sound
    (hedit.bfro.trans hro) hedit.lines hst hfits
  exact ⟨e₂, q₂, (hrun blank).trans hcut, fun h => hdot' (hdot h), hedit.trans hedit'⟩

end Edits

end Emacs
