import Zzdwm.Emacs.Blanks

/-!
# What a line looks like without its tabs, and with them (`random.c`)

`detab` and `entab` count columns by characters and have tab stops at every eighth one.
The display has them where `tabsize` says, and counts the cells of the characters.

* `looks` — a line with its tabs expanded as on the display;
* `Piece` — a line as it is before and after a command;
* `ColumnsFit` — the columns before and after agree at every character that is no blank;
* `looks_pieces_iff` — **a line looks the same** exactly if they do;
* `tabs_look_same_iff` — when `detab` and `entab` keep what the lines look like.
-/

namespace Emacs

/-- A part of a line: a character that is kept, or characters that are replaced. -/
inductive Piece
  | kept (c : UChar)
  | replaced (old new : List UChar)

namespace Piece

/-- The part before the command. -/
def old : Piece → List UChar
  | kept c => [c]
  | replaced old _ => old

/-- The part afterwards. -/
def new : Piece → List UChar
  | kept c => [c]
  | replaced _ new => new

end Piece

/-- A space or a tab; a tab is expanded, however it is encoded. -/
def isBlank (c : UChar) : Bool := code c = tab || c = spaceChar

section Spec

variable (w : Wcwidth) (tabsize : Nat)

/-- A line from a column on, with its tabs expanded to the tab stops of the display. -/
def looks : Int → List UChar → List UChar
  | _, [] => []
  | col, c :: cs =>
      (if code c = tab then List.replicate (charCells w tabsize c col).toNat spaceChar else [c]) ++
        looks (col + charCells w tabsize c col) cs

/-- Going along a line with its columns before and after the command: only blanks have been
replaced, by blanks, and the columns agree at every other character and at the end. -/
def ColumnsFit : Int → Int → List Piece → Prop
  | col, col', [] => col = col'
  | col, col', .kept c :: ps =>
      (isBlank c = true ∨ col = col') ∧
        ColumnsFit (col + charCells w tabsize c col) (col' + charCells w tabsize c col') ps
  | col, col', .replaced old new :: ps =>
      (∀ c ∈ old ++ new, isBlank c = true) ∧
        ColumnsFit (Cells.column (charCells w tabsize) col old)
          (Cells.column (charCells w tabsize) col' new) ps

end Spec

/-- A line before and after `detab`, behind so many characters. -/
def detabPieces : Nat → List UChar → List Piece
  | _, [] => []
  | k, c :: cs =>
      if code c = tab then
        let spaces := tabmask + 1 - k % (tabmask + 1)
        .replaced [c] (List.replicate spaces spaceChar) :: detabPieces (k + spaces) cs
      else .kept c :: detabPieces (k + 1) cs

/-- A line before and after `entab`, behind a run that starts at a column. -/
def entabPieces : Nat → List UChar → List UChar → List Piece
  | s, run, [] => if full s run then [.replaced run [tabChar]] else run.map .kept
  | s, run, c :: cs =>
      let out := if full s run then [.replaced run [tabChar]] else []
      let s' := if full s run then nextab s else s
      let run' := if full s run then [] else run
      if narrow (code c) = 0 then out ++ (run' ++ c :: cs).map .kept
      else if narrow (code c) = 0x20 then out ++ entabPieces s' (run' ++ [c]) cs
      else out ++ ((run' ++ [c]).map .kept ++
        entabPieces (if narrow (code c) = 0x09 then nextab (s' + run'.length)
          else s' + run'.length + 1) [] cs)

variable {w : Wcwidth} {tabsize : Nat} {cs run xs ys : List UChar} {c : UChar} {s : Nat}
  {col col' : Int} {ps : List Piece}

/-! ## Columns -/

theorem charCells_space (col : Int) : charCells w tabsize spaceChar col = 1 := by
  have hone := w.printable 0x20 (by decide) (by decide)
  exact hone

theorem charCells_tab (h : code c = tab) (col : Int) :
    charCells w tabsize c col = tabWidth tabsize col := if_pos h

theorem looks_append (col : Int) (xs ys : List UChar) :
    looks w tabsize col (xs ++ ys) =
      looks w tabsize col xs ++ looks w tabsize (Cells.column (charCells w tabsize) col xs) ys := by
  induction xs generalizing col with
  | nil => rfl
  | cons c xs ih => rw [List.cons_append, looks, looks, ih, Cells.column, List.append_assoc]

/-- What is no blank is shown as it is. -/
theorem looks_ink (hc : isBlank c = false) (col : Int) (cs : List UChar) :
    c ≠ spaceChar ∧
      looks w tabsize col (c :: cs) = c :: looks w tabsize (col + charCells w tabsize c col) cs := by
  rw [isBlank, Bool.or_eq_false_iff, decide_eq_false_iff_not, decide_eq_false_iff_not] at hc
  refine ⟨hc.2, ?_⟩
  rw [looks, if_neg hc.1]
  rfl

/-- Blanks are shown as spaces, as many as columns. -/
theorem looks_blanks (htab : 0 < tabsize) (col : Int) (h : ∀ c ∈ xs, isBlank c = true) :
    ∃ n : Nat, looks w tabsize col xs = List.replicate n spaceChar ∧
      Cells.column (charCells w tabsize) col xs = col + n := by
  induction xs generalizing col with
  | nil => exact ⟨0, rfl, (Int.add_zero col).symm⟩
  | cons c xs ih =>
      obtain ⟨n, hshown, hcol⟩ := ih (col + charCells w tabsize c col)
        fun d hd => h d (List.mem_cons_of_mem _ hd)
      have hc := h c List.mem_cons_self
      rw [isBlank, Bool.or_eq_true, decide_eq_true_iff, decide_eq_true_iff] at hc
      by_cases hcode : code c = tab
      · have hpos := tabWidth_pos htab col
        rw [← charCells_tab (w := w) hcode] at hpos
        refine ⟨(charCells w tabsize c col).toNat + n, ?_, ?_⟩
        · rw [looks, if_pos hcode, hshown, List.replicate_append_replicate]
        · rw [Cells.column, hcol]
          omega
      · have hspace := hc.resolve_left hcode
        subst hspace
        refine ⟨1 + n, ?_, ?_⟩
        · rw [looks, if_neg hcode, hshown, Nat.add_comm, List.replicate_succ]
          rfl
        · rw [Cells.column, hcol, charCells_space]
          omega

/-- Spaces in front of something else are counted. -/
theorem replicate_append_inj {n n' : Nat} (hx : ∀ c ∈ xs.head?, c ≠ spaceChar)
    (hy : ∀ c ∈ ys.head?, c ≠ spaceChar) :
    List.replicate n spaceChar ++ xs = List.replicate n' spaceChar ++ ys ↔ n = n' ∧ xs = ys := by
  induction n generalizing n' with
  | zero =>
      cases n' with
      | zero => exact (and_iff_right rfl).symm
      | succ n' =>
          refine iff_of_false (fun heq => ?_) (fun h => absurd h.1 (Nat.succ_ne_zero _).symm)
          rw [List.replicate_zero, List.nil_append] at heq
          exact hx spaceChar (by rw [heq]; rfl) rfl
  | succ n ih =>
      cases n' with
      | zero =>
          refine iff_of_false (fun heq => ?_) (fun h => absurd h.1 (Nat.succ_ne_zero _))
          rw [List.replicate_zero, List.nil_append] at heq
          exact hy spaceChar (by rw [← heq]; rfl) rfl
      | succ n' =>
          rw [List.replicate_succ, List.replicate_succ, List.cons_append, List.cons_append,
            List.cons.injEq, ih, Nat.succ_inj]
          exact ⟨fun h => h.2, fun h => ⟨rfl, h⟩⟩

/-- **A line looks the same** exactly if its columns fit, where only blanks have been
replaced.  The spaces in front are those that a run of blanks has taken so far. -/
theorem looks_fits_iff (htab : 0 < tabsize) {n n' : Nat} (hcol : col' - col = (n' : Int) - n)
    (hblank : ∀ p ∈ ps, ∀ old new, p = .replaced old new → ∀ c ∈ old ++ new, isBlank c = true) :
    List.replicate n spaceChar ++ looks w tabsize col (ps.flatMap Piece.old) =
        List.replicate n' spaceChar ++ looks w tabsize col' (ps.flatMap Piece.new) ↔
      ColumnsFit w tabsize col col' ps := by
  induction ps generalizing col col' n n' with
  | nil =>
      have hends := @replicate_append_inj [] [] n n'
        (fun c hc => nomatch hc) (fun c hc => nomatch hc)
      refine hends.trans ?_
      rw [ColumnsFit]
      constructor
      · rintro ⟨rfl, -⟩
        omega
      · intro heq
        exact ⟨by omega, rfl⟩
  | cons p ps ih =>
      have hrest := fun col col' n n' hcol => @ih col col' n n' hcol fun q hq =>
        hblank q (List.mem_cons_of_mem _ hq)
      cases p with
      | kept c =>
          have hold : (Piece.kept c :: ps).flatMap Piece.old = [c] ++ ps.flatMap Piece.old := rfl
          have hnew : (Piece.kept c :: ps).flatMap Piece.new = [c] ++ ps.flatMap Piece.new := rfl
          rw [hold, hnew, ColumnsFit]
          cases hc : isBlank c with
          | true =>
              obtain ⟨m, hm, hmcol⟩ := looks_blanks (w := w) htab col
                (List.forall_mem_singleton.mpr hc)
              obtain ⟨m', hm', hmcol'⟩ := looks_blanks (w := w) htab col'
                (List.forall_mem_singleton.mpr hc)
              rw [looks_append, looks_append, hm, hm', ← List.append_assoc, ← List.append_assoc,
                List.replicate_append_replicate, List.replicate_append_replicate, hmcol, hmcol',
                hrest _ _ _ _ (by push_cast; omega)]
              change col + charCells w tabsize c col = _ at hmcol
              change col' + charCells w tabsize c col' = _ at hmcol'
              rw [hmcol, hmcol']
              exact (and_iff_right (.inl rfl)).symm
          | false =>
              obtain ⟨hspace, hshown⟩ := @looks_ink w tabsize c hc col (ps.flatMap Piece.old)
              obtain ⟨-, hshown'⟩ := @looks_ink w tabsize c hc col' (ps.flatMap Piece.new)
              rw [List.singleton_append, List.singleton_append, hshown, hshown',
                replicate_append_inj (by simpa using hspace) (by simpa using hspace)]
              constructor
              · rintro ⟨rfl, heq⟩
                obtain rfl : col = col' := by omega
                have htail := (List.cons.inj heq).2
                exact ⟨.inr rfl, (hrest _ _ 0 0 (by omega)).mp htail⟩
              · rintro ⟨hor, hfits⟩
                obtain rfl : col = col' := hor.resolve_left Bool.false_ne_true
                have htail := (hrest _ _ 0 0 (by omega)).mpr hfits
                exact ⟨by omega, congrArg (c :: ·) htail⟩
      | replaced old new =>
          have hall := hblank _ List.mem_cons_self old new rfl
          obtain ⟨m, hm, hmcol⟩ := looks_blanks (w := w) htab col
            fun c hc => hall c (List.mem_append_left new hc)
          obtain ⟨m', hm', hmcol'⟩ := looks_blanks (w := w) htab col'
            fun c hc => hall c (List.mem_append_right old hc)
          rw [List.flatMap_cons, List.flatMap_cons, ColumnsFit]
          change List.replicate n spaceChar ++ looks w tabsize col (old ++ _) =
            List.replicate n' spaceChar ++ looks w tabsize col' (new ++ _) ↔ _
          rw [looks_append, looks_append, hm, hm', ← List.append_assoc, ← List.append_assoc,
            List.replicate_append_replicate, List.replicate_append_replicate, hmcol, hmcol',
            hrest _ _ _ _ (by push_cast; omega)]
          exact (and_iff_right hall).symm

/-! ## What is lost -/

/-- The characters other than blanks. -/
def inked (cs : List UChar) : List UChar := cs.filter fun c => !isBlank c

theorem inked_append (xs ys : List UChar) : inked (xs ++ ys) = inked xs ++ inked ys :=
  List.filter_append ..

theorem inked_eq_nil : inked xs = [] ↔ ∀ c ∈ xs, isBlank c = true := by
  rw [inked, List.filter_eq_nil_iff]
  refine forall₂_congr fun c _ => ?_
  rw [Bool.not_eq_true', Bool.not_eq_false]

/-- Expanding tabs keeps the other characters. -/
theorem inked_looks (col : Int) (xs : List UChar) : inked (looks w tabsize col xs) = inked xs := by
  induction xs generalizing col with
  | nil => rfl
  | cons c xs ih =>
      have hcons : inked (c :: xs) = inked [c] ++ inked xs := inked_append [c] xs
      rw [looks, inked_append, ih, hcons]
      congr 1
      split
      · rename_i htab
        have hspaces : inked (List.replicate (charCells w tabsize c col).toNat spaceChar) = [] :=
          inked_eq_nil.mpr fun d hd => by
            rw [List.eq_of_mem_replicate hd]
            decide
        have hself : inked [c] = [] := inked_eq_nil.mpr fun d hd => by
          rw [List.mem_singleton.mp hd, isBlank, decide_eq_true htab]
          rfl
        rw [hspaces, hself]
      · rfl

/-- Only blanks are put in. -/
def PutsBlanks (ps : List Piece) : Prop :=
  ∀ p ∈ ps, ∀ old new, p = .replaced old new → ∀ c ∈ new, isBlank c = true

/-- If as many characters other than blanks are there afterwards, only blanks have gone. -/
theorem inked_pieces (h : PutsBlanks ps) :
    (inked (ps.flatMap Piece.new)).length ≤ (inked (ps.flatMap Piece.old)).length ∧
      ((inked (ps.flatMap Piece.old)).length ≤ (inked (ps.flatMap Piece.new)).length →
        ∀ p ∈ ps, ∀ old new, p = .replaced old new → ∀ c ∈ old ++ new, isBlank c = true) := by
  induction ps with
  | nil => exact ⟨Nat.le_refl _, fun _ p hp => absurd hp List.not_mem_nil⟩
  | cons p ps ih =>
      obtain ⟨hle, hall⟩ := ih fun q hq => h q (List.mem_cons_of_mem _ hq)
      rw [List.flatMap_cons, List.flatMap_cons, inked_append, inked_append, List.length_append,
        List.length_append]
      cases p with
      | kept c =>
          refine ⟨Nat.add_le_add_left hle _, fun hge q hq old new heq => ?_⟩
          rcases List.mem_cons.mp hq with rfl | hq
          · cases heq
          · exact hall (Nat.le_of_add_le_add_left hge) q hq old new heq
      | replaced old new =>
          have hnew := h _ List.mem_cons_self old new rfl
          have hnil : (inked (Piece.replaced old new).new).length = 0 :=
            List.length_eq_zero_iff.mpr (inked_eq_nil.mpr hnew)
          rw [hnil]
          refine ⟨by omega, fun hge q hq old' new' heq => ?_⟩
          rcases List.mem_cons.mp hq with rfl | hq
          · obtain ⟨rfl, rfl⟩ := Piece.replaced.inj heq
            have hold : inked old = [] := List.length_eq_zero_iff.mp (by
              change (inked old).length + _ ≤ _ at hge
              omega)
            intro c hc
            exact (List.mem_append.mp hc).elim (inked_eq_nil.mp hold c) (hnew c)
          · exact hall (by omega) q hq old' new' heq

theorem ColumnsFit.blanks (h : ColumnsFit w tabsize col col' ps) :
    ∀ p ∈ ps, ∀ old new, p = .replaced old new → ∀ c ∈ old ++ new, isBlank c = true := by
  induction ps generalizing col col' with
  | nil => exact fun p hp => absurd hp List.not_mem_nil
  | cons p ps ih =>
      intro q hq old new heq
      cases p with
      | kept c =>
          rcases List.mem_cons.mp hq with rfl | hq
          · cases heq
          · exact ih h.2 q hq old new heq
      | replaced old' new' =>
          rcases List.mem_cons.mp hq with rfl | hq
          · obtain ⟨rfl, rfl⟩ := Piece.replaced.inj heq
            exact h.1
          · exact ih h.2 q hq old new heq

/-- **When a line looks the same**, where only blanks are put in. -/
theorem looks_pieces_iff (htab : 0 < tabsize) (h : PutsBlanks ps) :
    looks w tabsize 0 (ps.flatMap Piece.new) = looks w tabsize 0 (ps.flatMap Piece.old) ↔
      ColumnsFit w tabsize 0 0 ps := by
  have hiff := fun hblank => @looks_fits_iff w tabsize 0 0 ps htab 0 0 rfl hblank
  constructor
  · intro heq
    have hinked : (inked (looks w tabsize 0 (ps.flatMap Piece.new))).length =
        (inked (looks w tabsize 0 (ps.flatMap Piece.old))).length := by rw [heq]
    rw [inked_looks, inked_looks] at hinked
    exact (hiff ((inked_pieces h).2 hinked.ge)).mp heq.symm
  · intro hfits
    exact ((hiff hfits.blanks).mpr hfits).symm

/-! ## The commands -/

theorem detabPieces_old (k : Nat) (cs : List UChar) : (detabPieces k cs).flatMap Piece.old = cs := by
  induction cs generalizing k with
  | nil => rfl
  | cons c cs ih =>
      rw [detabPieces]
      split <;> exact congrArg (c :: ·) (ih _)

theorem detabPieces_new (k : Nat) (cs : List UChar) :
    (detabPieces k cs).flatMap Piece.new = detabbed k cs := by
  induction cs generalizing k with
  | nil => rfl
  | cons c cs ih =>
      rw [detabPieces, detabbed]
      split
      · rw [List.flatMap_cons, ih]
        rfl
      · exact congrArg (c :: ·) (ih _)

theorem detabPieces_blanks (k : Nat) (cs : List UChar) : PutsBlanks (detabPieces k cs) := by
  induction cs generalizing k with
  | nil => exact fun p hp => absurd hp List.not_mem_nil
  | cons c cs ih =>
      rw [detabPieces]
      split
      · intro p hp old new heq d hd
        rcases List.mem_cons.mp hp with rfl | hp
        · obtain ⟨-, rfl⟩ := Piece.replaced.inj heq
          rw [List.eq_of_mem_replicate hd]
          decide
        · exact ih _ p hp old new heq d hd
      · intro p hp old new heq d hd
        rcases List.mem_cons.mp hp with rfl | hp
        · cases heq
        · exact ih _ p hp old new heq d hd

theorem kept_old (xs : List UChar) : (xs.map Piece.kept).flatMap Piece.old = xs := by
  induction xs with
  | nil => rfl
  | cons c xs ih => exact congrArg (c :: ·) ih

theorem kept_new (xs : List UChar) : (xs.map Piece.kept).flatMap Piece.new = xs := by
  induction xs with
  | nil => rfl
  | cons c xs ih => exact congrArg (c :: ·) ih

theorem entabPieces_open (hfull : full s run = false) (c : UChar) (cs : List UChar) :
    entabPieces s run (c :: cs) =
      if narrow (code c) = 0 then (run ++ c :: cs).map .kept
      else if narrow (code c) = 0x20 then entabPieces s (run ++ [c]) cs
      else (run ++ [c]).map .kept ++
        entabPieces (if narrow (code c) = 0x09 then nextab (s + run.length)
          else s + run.length + 1) [] cs := by
  rw [entabPieces, hfull]
  rfl

theorem entabPieces_full (hfull : full s run = true) (cs : List UChar) :
    entabPieces s run cs = .replaced run [tabChar] :: entabPieces (nextab s) [] cs := by
  cases cs with
  | nil =>
      rw [entabPieces, entabPieces, hfull, full_nil]
      rfl
  | cons c cs =>
      rw [entabPieces_open (full_nil _), entabPieces, hfull]
      simp only [if_true]
      split_ifs <;> rfl

/-- The pieces are those of the line that `entab` leaves. -/
def PiecesOf (s : Nat) (run cs : List UChar) : Prop :=
  (entabPieces s run cs).flatMap Piece.old = run ++ cs ∧
    (entabPieces s run cs).flatMap Piece.new = (entabbed s run cs).1 ++ (entabbed s run cs).2 ∧
    PutsBlanks (entabPieces s run cs)

theorem putsBlanks_kept (xs : List UChar) : PutsBlanks (xs.map Piece.kept) := by
  intro p hp old new heq
  obtain ⟨c, -, rfl⟩ := List.mem_map.mp hp
  cases heq

theorem PutsBlanks.append {qs : List Piece} (h : PutsBlanks ps) (h' : PutsBlanks qs) :
    PutsBlanks (ps ++ qs) := fun p hp => (List.mem_append.mp hp).elim (h p) (h' p)

theorem PiecesOf.of_open (h : ∀ s run, full s run = false → PiecesOf s run cs) (s : Nat)
    (run : List UChar) : PiecesOf s run cs := by
  cases hfull : full s run with
  | false => exact h s run hfull
  | true =>
      obtain ⟨hold, hnew, hputs⟩ := h (nextab s) [] (full_nil _)
      unfold PiecesOf
      rw [entabbed_full hfull, entabPieces_full hfull, List.flatMap_cons, List.flatMap_cons, hold,
        hnew]
      refine ⟨rfl, rfl, fun p hp old new heq d hd => ?_⟩
      rcases List.mem_cons.mp hp with rfl | hp
      · obtain ⟨-, rfl⟩ := Piece.replaced.inj heq
        rw [List.mem_singleton.mp hd]
        decide
      · exact hputs p hp old new heq d hd

theorem entabPieces_of (cs : List UChar) (s : Nat) (run : List UChar) : PiecesOf s run cs := by
  induction cs generalizing s run with
  | nil =>
      refine PiecesOf.of_open (fun s run hfull => ?_) s run
      unfold PiecesOf
      rw [entabPieces, entabbed, hfull]
      exact ⟨(kept_old run).trans (List.append_nil run).symm,
        (kept_new run).trans (List.append_nil run).symm, putsBlanks_kept run⟩
  | cons c cs ih =>
      refine PiecesOf.of_open (fun s run hfull => ?_) s run
      unfold PiecesOf
      rw [entabPieces_open hfull, entabbed_open hfull]
      by_cases hzero : narrow (code c) = 0
      · rw [if_pos hzero, if_pos hzero]
        exact ⟨kept_old _, kept_new _, putsBlanks_kept _⟩
      · rw [if_neg hzero, if_neg hzero]
        by_cases hspace : narrow (code c) = 0x20
        · rw [if_pos hspace, if_pos hspace]
          obtain ⟨hold, hnew, hputs⟩ := ih s (run ++ [c])
          rw [List.append_assoc] at hold
          exact ⟨hold, hnew, hputs⟩
        · rw [if_neg hspace, if_neg hspace]
          generalize (if narrow (code c) = 0x09 then nextab (s + run.length)
            else s + run.length + 1) = s'
          obtain ⟨hold, hnew, hputs⟩ := ih s' []
          rw [List.flatMap_append, List.flatMap_append, kept_old, kept_new, hold, hnew]
          refine ⟨List.append_assoc .., ?_, (putsBlanks_kept _).append hputs⟩
          dsimp only
          rw [List.append_assoc, List.append_assoc, List.cons_append]
          rfl

/-- The command keeps what the lines look like. -/
def LooksSame (w : Wcwidth) (tabsize : Nat) (f : Bool) (n : Int) (e : Ed)
    (result : Option (Ed × Bool)) : Prop :=
  ∃ ls, Leaves f n e result ls ∧
    ls.map (looks w tabsize 0) = (e.linesWorked f n).map (looks w tabsize 0)

variable {e : Ed} {f : Bool} {n : Int}

theorem looksSame_iff {result : Option (Ed × Bool)} {g : List UChar → List UChar}
    (h : Leaves f n e result ((e.linesWorked f n).map g)) :
    LooksSame w tabsize f n e result ↔
      ∀ cs ∈ e.linesWorked f n, looks w tabsize 0 (g cs) = looks w tabsize 0 cs := by
  constructor
  · rintro ⟨ls, hleaves, hls⟩
    rw [hleaves.unique h, List.map_map] at hls
    exact fun cs hcs => List.map_inj_left.mp hls cs hcs
  · intro hall
    refine ⟨_, h, ?_⟩
    rw [List.map_map]
    exact List.map_congr_left hall

theorem detab_leaves (kept : Bool) (goal : Nat) (h : Scoped f n e) :
    Leaves f n e (detab tabsize kept goal f n e) ((e.linesWorked f n).map (detabbed 0)) := by
  have hleaves : Leaves f n e (detab tabsize kept goal f n e) _ :=
    lineCommand_turns tabsize detabLine_turns kept goal h
  rw [turned_const] at hleaves
  exact hleaves

theorem entab_leaves (kept : Bool) (goal : Nat) (h : Scoped f n e) :
    Leaves f n e (entab tabsize kept goal f n e)
      ((e.linesWorked f n).map fun cs => (entabbed 0 [] cs).1 ++ (entabbed 0 [] cs).2) := by
  have hleaves : Leaves f n e (entab tabsize kept goal f n e) _ :=
    lineCommand_turns tabsize entabLine_turns kept goal h
  rw [turned_const] at hleaves
  exact hleaves

/-- **When `detab` and `entab` keep what the lines look like**: exactly if the columns fit on
each of the lines. -/
theorem tabs_look_same_iff (w : Wcwidth) (tabsize : Nat) (htab : 2 ≤ tabsize ∧ tabsize ≤ 32)
    (kept : Bool) (goal : Nat) (h : Scoped f n e) :
    (LooksSame w tabsize f n e (detab tabsize kept goal f n e) ↔
      ∀ cs ∈ e.linesWorked f n, ColumnsFit w tabsize 0 0 (detabPieces 0 cs)) ∧
    (LooksSame w tabsize f n e (entab tabsize kept goal f n e) ↔
      ∀ cs ∈ e.linesWorked f n, ColumnsFit w tabsize 0 0 (entabPieces 0 [] cs)) := by
  have hpos : 0 < tabsize := Nat.zero_lt_of_lt htab.1
  refine ⟨(looksSame_iff (detab_leaves kept goal h)).trans ?_,
    (looksSame_iff (entab_leaves kept goal h)).trans ?_⟩
  · refine forall₂_congr fun cs _ => ?_
    have hiff := looks_pieces_iff (w := w) hpos (detabPieces_blanks 0 cs)
    rw [detabPieces_new, detabPieces_old] at hiff
    exact hiff
  · refine forall₂_congr fun cs _ => ?_
    obtain ⟨hold, hnew, hputs⟩ := entabPieces_of cs 0 []
    have hiff := looks_pieces_iff (w := w) hpos hputs
    rw [hnew, hold] at hiff
    exact hiff

instance ColumnsFit.decidable (w : Wcwidth) (tabsize : Nat) :
    (col col' : Int) → (ps : List Piece) → Decidable (ColumnsFit w tabsize col col' ps)
  | col, col', [] => inferInstanceAs (Decidable (col = col'))
  | col, col', .kept c :: ps =>
      let _ := ColumnsFit.decidable w tabsize (col + charCells w tabsize c col)
        (col' + charCells w tabsize c col') ps
      inferInstanceAs (Decidable ((isBlank c = true ∨ col = col') ∧ _))
  | col, col', .replaced old new :: ps =>
      let _ := ColumnsFit.decidable w tabsize (Cells.column (charCells w tabsize) col old)
        (Cells.column (charCells w tabsize) col' new) ps
      inferInstanceAs (Decidable ((∀ c ∈ old ++ new, isBlank c = true) ∧ _))

/-- A line that starts with a tab, and one that starts with eight spaces. -/
def indented : Ed :=
  Ed.holding [[0x09, 0x61], [0x20, 0x20, 0x20, 0x20, 0x20, 0x20, 0x20, 0x20, 0x62]] ⟨2, 0⟩ ⟨2, 0⟩

theorem scoped_indented : Scoped true 2 indented where
  sound := Ed.sound_ascii (by decide +kernel)
  writable := rfl
  dot := ⟨.inl (by decide), by decide⟩
  starts := by decide
  count _ := by decide
  region h := nomatch h

/-- With a tab stop at every eighth column, both commands keep what they look like. -/
theorem tabs_look_same_indented :
    LooksSame someWidths 8 true 2 indented (detab 8 false 0 true 2 indented) ∧
      LooksSame someWidths 8 true 2 indented (entab 8 false 0 true 2 indented) := by
  have hiff := tabs_look_same_iff someWidths 8 (by decide) false 0 scoped_indented
  exact ⟨hiff.1.mpr (by decide), hiff.2.mpr (by decide)⟩

/-- A line with a tab, and one whose spaces start in front of a tab stop. -/
def straddling : Ed :=
  Ed.holding [[0x09], [0x61, 0x61, 0x61, 0x61, 0x61, 0x61, 0x61, 0x20, 0x20]] ⟨2, 0⟩ ⟨2, 0⟩

theorem scoped_straddling : Scoped true 2 straddling where
  sound := Ed.sound_ascii (by decide +kernel)
  writable := rfl
  dot := ⟨.inl (by decide), by decide⟩
  starts := by decide
  count _ := by decide
  region h := nomatch h

/-- With a tab stop at every fourth column `detab` moves what is behind the tab; with one at
every eighth column `entab` loses a column of the two spaces. -/
theorem tabs_move_text : Scoped true 2 straddling ∧
    ¬ LooksSame someWidths 4 true 2 straddling (detab 4 false 0 true 2 straddling) ∧
    ¬ LooksSame someWidths 8 true 2 straddling (entab 8 false 0 true 2 straddling) := by
  refine ⟨scoped_straddling, fun h => ?_, fun h => ?_⟩
  · have hall := (looksSame_iff (detab_leaves false 0 scoped_straddling)).mp h
    revert hall
    decide
  · have hall := (looksSame_iff (entab_leaves false 0 scoped_straddling)).mp h
    revert hall
    decide

end Emacs
