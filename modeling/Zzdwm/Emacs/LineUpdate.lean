import Zzdwm.Emacs.Columns

/-!
# Updating a row of the terminal (`display.c`)

`uline` compares a row with what the terminal shows, skips what is the same at both ends, and
writes the rest: characters one after another, with the fillers behind wide characters left
out, and blanks at the end of the row by erasing it.

* `Terminal` — a row of the terminal, and what a character does to it;
* `uline` — the source;
* `Cells.Whole` — a cell with a whole character, or with a half of one;
* `putVideoColors_draws` — what is written;
* `uline_whole` — **whole characters are shown** if what is written consists of them;
* `uline_shows_iff` — when the terminal shows the new row.
-/

namespace Emacs.Screen

/-- `CTEXT`. -/
def CTEXT : Int := 1

/-- A row of the virtual screen, or of what the terminal is known to show (`VIDEO`): in each
cell a character, or 0 for the filler behind a wide one, and a color. -/
structure Cells where
  v_text : Nat → Nat
  v_attr : Nat → Int
  v_color : Int

/-- A cell of the terminal: a character, which may be a wide one, or the right half of that. -/
inductive TCell
  | char (c : Nat) (color : Int)
  | half
  deriving DecidableEq

/-- A row of the terminal, the column of the cursor in it, and the color that is set. -/
structure Terminal where
  cells : Nat → TCell
  ttcol : Nat
  color : Int

/-- Some cells are written anew; what remains of a character that loses its other half is
blank. -/
def overwrite (cells : Nat → TCell) (col k : Nat) (new : Nat → TCell) : Nat → TCell := fun j =>
  if col ≤ j ∧ j < col + k then new j
  else if 0 < k ∧ j + 1 = col ∧ cells col = .half then .char 32 CTEXT
  else if 0 < k ∧ j = col + k ∧ cells j = .half then .char 32 CTEXT
  else cells j

namespace Terminal

variable (t : Terminal)

/-- `ttmove`. -/
def ttmove (col : Nat) : Terminal := { t with ttcol := col }

/-- `ttcolor`. -/
def ttcolor (color : Int) : Terminal := { t with color := color }

variable (w : Wcwidth) (ncol : Nat)

/-- `ttputc`.  A character without a cell, and one for which there is no room, is not in the
row. -/
def ttputc (c : Nat) : Terminal :=
  if w.uwidth c = 1 ∧ t.ttcol < ncol then
    { t with
      cells := overwrite t.cells t.ttcol 1 fun _ => .char c t.color
      ttcol := t.ttcol + 1 }
  else if w.uwidth c = 2 ∧ t.ttcol + 1 < ncol then
    { t with
      cells := overwrite t.cells t.ttcol 2 fun j => if j = t.ttcol then .char c t.color else .half
      ttcol := t.ttcol + 2 }
  else if w.uwidth c ≤ 0 then t
  else { t with ttcol := ncol }

/-- `tteeol`. -/
def tteeol : Terminal :=
  { t with cells := overwrite t.cells t.ttcol (ncol - t.ttcol) fun _ => .char 32 t.color }

end Terminal

/-! ## The code -/

section Source

variable (w : Wcwidth) (ncol : Nat) (tceeol : Int) (vvp pvp : Cells)

/-- The comparison in the loops of `uline`. -/
def Cells.Same (i : Nat) : Prop := vvp.v_text i = pvp.v_text i ∧ vvp.v_attr i = pvp.v_attr i

instance (i : Nat) : Decidable (vvp.Same pvp i) := inferInstanceAs (Decidable (_ ∧ _))

/-- `video_is_plain`. -/
def Cells.plain : Bool := (List.range ncol).all fun i => vvp.v_attr i = CTEXT

/-- The loop for the left match, from `cp1` on. -/
def leftMatch : Nat → Nat → Nat
  | 0, cp1 => cp1
  | f + 1, cp1 => if vvp.Same pvp cp1 then leftMatch f (cp1 + 1) else cp1

/-- The loop for the right match, with `nbflag`. -/
def rightMatch : Nat → Bool → Nat × Bool
  | 0, nbflag => (0, nbflag)
  | cp3 + 1, nbflag =>
      if vvp.Same pvp cp3 then rightMatch cp3 (nbflag || vvp.v_text cp3 ≠ 32)
      else (cp3 + 1, nbflag)

/-- The loop over the blanks at the end. -/
def eraseFrom (cp1 : Nat) : Nat → Nat
  | 0 => 0
  | cp5 + 1 => if cp5 + 1 ≠ cp1 ∧ vvp.v_text cp5 = 32 then eraseFrom cp1 cp5 else cp5 + 1

/-- The loop of `put_video_colors`, for `count` cells from `i` on. -/
def putVideoColorsLoop : Nat → Nat → Int → Terminal → Terminal
  | 0, _, _, t => t
  | count + 1, i, color, t =>
      if vvp.v_text i = 0 then putVideoColorsLoop count (i + 1) color t
      else
        let t := if vvp.v_attr i ≠ color then t.ttcolor (vvp.v_attr i) else t
        putVideoColorsLoop count (i + 1) (vvp.v_attr i) (t.ttputc w ncol (vvp.v_text i))

/-- `put_video_colors`. -/
def putVideoColors (count i : Nat) (t : Terminal) : Terminal :=
  putVideoColorsLoop w ncol vvp count i (vvp.v_attr i) (t.ttcolor (vvp.v_attr i))

/-- `uline`. -/
def uline (t : Terminal) : Terminal :=
  if vvp.v_color ≠ pvp.v_color then putVideoColors w ncol vvp ncol 0 (t.ttmove 0)
  else
    let cp1 := leftMatch vvp pvp ncol 0
    if cp1 = ncol then t
    else
      let (cp3, nbflag) := rightMatch vvp pvp ncol false
      let cp5 :=
        if nbflag = false ∧ vvp.v_color = CTEXT ∧ vvp.plain ncol then
          let cp5 := eraseFrom vvp cp1 cp3
          if (cp3 - cp5 : Int) ≤ tceeol then cp3 else cp5
        else cp3
      let t := putVideoColors w ncol vvp (cp5 - cp1) cp1 (t.ttmove cp1)
      if cp5 ≠ cp3 then t.tteeol ncol else t

end Source

/-! ## Rows and the terminal -/

section Rows

variable (w : Wcwidth) (ncol : Nat)

/-- What a terminal can show: every character has its one or two cells. -/
structure Tidy (cells : Nat → TCell) : Prop where
  half : ∀ j < ncol, cells j = .half →
    ∃ i c color, j = i + 1 ∧ cells i = .char c color ∧ w.uwidth c = 2
  char : ∀ j < ncol, ∀ c color, cells j = .char c color →
    w.uwidth c = 1 ∨ w.uwidth c = 2 ∧ j + 1 < ncol ∧ cells (j + 1) = .half

/-- The cell of the terminal that shows a cell of the row. -/
def Cells.cell (r : Cells) (i : Nat) : TCell :=
  if r.v_text i = 0 then .half else .char (r.v_text i) (r.v_attr i)

/-- The terminal shows the row in every cell. -/
def Shown (r : Cells) (cells : Nat → TCell) : Prop := ∀ i < ncol, cells i = r.cell i

/-- The cell has a character of one cell; or a wide one, with the filler in the next cell; or
is that next cell. -/
def Cells.Whole (r : Cells) (i : Nat) : Prop :=
  w.uwidth (r.v_text i) = 1 ∨
    w.uwidth (r.v_text i) = 2 ∧ i + 1 < ncol ∧ r.v_text (i + 1) = 0 ∨
    r.v_text i = 0 ∧ 0 < i ∧ w.uwidth (r.v_text (i - 1)) = 2

instance (r : Cells) (i : Nat) : Decidable (r.Whole w ncol i) :=
  inferInstanceAs (Decidable (_ ∨ _ ∨ _))

/-- The two cells of a wide character have one color, as `vtput_display_char` gives it to
them. -/
def Cells.Paired (r : Cells) : Prop :=
  ∀ i, i + 1 < ncol → w.uwidth (r.v_text i) = 2 → r.v_text (i + 1) = 0 →
    r.v_attr (i + 1) = r.v_attr i

end Rows

variable {w : Wcwidth} {ncol : Nat} {t : Terminal} {r vvp pvp : Cells} {c i j k : Nat} {color : Int}

theorem uwidth_zero (w : Wcwidth) : w.uwidth 0 ≤ 0 := w.control 0 (.inl (by decide))

theorem text_ne_zero (h : 0 < w.uwidth c) : c ≠ 0 := by
  rintro rfl
  exact absurd h (Int.not_lt.mpr (uwidth_zero w))

theorem uwidth_blank (w : Wcwidth) : w.uwidth 32 = 1 := w.printable 32 (by decide) (by decide)

/-! ## What is written -/

section Overwrite

variable {cells new new' : Nat → TCell} {col k' : Nat}

theorem overwrite_zero (cells : Nat → TCell) (col : Nat) (new : Nat → TCell) :
    overwrite cells col 0 new = cells := by
  funext j
  rw [overwrite, if_neg (by omega), if_neg (fun h => Nat.lt_irrefl 0 h.1),
    if_neg (fun h => Nat.lt_irrefl 0 h.1)]

theorem overwrite_congr (h : ∀ j, col ≤ j → j < col + k → new j = new' j) :
    overwrite cells col k new = overwrite cells col k new' := by
  funext j
  unfold overwrite
  by_cases hj : col ≤ j ∧ j < col + k
  · rw [if_pos hj, if_pos hj, h j hj.1 hj.2]
  · rw [if_neg hj, if_neg hj]

theorem overwrite_in (h : col ≤ j) (h' : j < col + k) : overwrite cells col k new j = new j :=
  if_pos ⟨h, h'⟩

/-- A cell that is not written is changed only if it has one half of a character. -/
theorem overwrite_out (h : ¬ (col ≤ j ∧ j < col + k)) (hleft : j + 1 = col → cells col ≠ .half)
    (hright : j = col + k → cells j ≠ .half) : overwrite cells col k new j = cells j := by
  rw [overwrite, if_neg h, if_neg (fun hand => hleft hand.2.1 hand.2.2),
    if_neg (fun hand => hright hand.2.1 hand.2.2)]

/-- There is no half of a character where one stops. -/
theorem overwrite_stop (hk : 0 < k) : overwrite cells col k new (col + k) ≠ .half := by
  unfold overwrite
  grind

/-- Writing on from where one has stopped. -/
theorem overwrite_overwrite :
    overwrite (overwrite cells col k new) (col + k) k' new = overwrite cells col (k + k') new := by
  by_cases hk : k = 0
  · subst hk
    rw [overwrite_zero, Nat.add_zero, Nat.zero_add]
  by_cases hk' : k' = 0
  · subst hk'
    rw [overwrite_zero, Nat.add_zero]
  have hstop : overwrite cells col k new (col + k) ≠ .half := overwrite_stop (Nat.pos_of_ne_zero hk)
  funext j
  by_cases hfront : j < col + k
  · -- the first cells, and what is in front of them
    have hkept : overwrite (overwrite cells col k new) (col + k) k' new j =
        overwrite cells col k new j :=
      overwrite_out (by omega) (fun _ => hstop) (by omega)
    rw [hkept]
    by_cases hin : col ≤ j
    · rw [overwrite_in hin hfront, overwrite_in hin (by omega)]
    · unfold overwrite
      simp [hin, Nat.pos_of_ne_zero hk, Nat.add_pos_left (Nat.pos_of_ne_zero hk) k',
        show ¬ j = col + k by omega, show ¬ j = col + (k + k') by omega]
  · by_cases hin : j < col + k + k'
    · rw [overwrite_in (by omega) hin, overwrite_in (by omega) (by omega)]
    · -- what is behind
      have hkept : overwrite cells col k new j = cells j :=
        overwrite_out (by omega) (by omega) (by omega)
      have hout : ¬ (col + k ≤ j ∧ j < col + k + k') := by omega
      have hout' : ¬ (col ≤ j ∧ j < col + (k + k')) := by omega
      rw [overwrite, if_neg hout, if_neg (fun hand => hstop hand.2.2), hkept]
      conv_rhs => rw [overwrite, if_neg hout', if_neg (by omega)]
      simp [Nat.pos_of_ne_zero hk', Nat.add_pos_left (Nat.pos_of_ne_zero hk) k', Nat.add_assoc]

end Overwrite

/-- A whole character is written into its cells. -/
theorem ttputc_cells (hwhole : r.Whole w ncol i) (hi : i < ncol) (hne : r.v_text i ≠ 0)
    (hcol : t.ttcol = i) (hcolor : t.color = r.v_attr i) :
    (w.uwidth (r.v_text i) = 2 → i + 1 < ncol ∧ r.v_text (i + 1) = 0 ∧
        t.ttputc w ncol (r.v_text i) = ⟨overwrite t.cells i 2 r.cell, i + 2, r.v_attr i⟩) ∧
      (w.uwidth (r.v_text i) ≠ 2 →
        t.ttputc w ncol (r.v_text i) = ⟨overwrite t.cells i 1 r.cell, i + 1, r.v_attr i⟩) := by
  have hcell : r.cell i = .char (r.v_text i) (r.v_attr i) := if_neg hne
  constructor
  · intro hwide
    obtain ⟨hlt, hfiller⟩ : i + 1 < ncol ∧ r.v_text (i + 1) = 0 := by
      rcases hwhole with hone | htwo | hzero
      · rw [hwide] at hone
        cases hone
      · exact htwo.2
      · exact absurd hzero.1 hne
    have hcell' : r.cell (i + 1) = .half := if_pos hfiller
    refine ⟨hlt, hfiller, ?_⟩
    unfold Terminal.ttputc
    rw [if_neg (by rw [hwide]; omega), if_pos ⟨hwide, by rw [hcol]; exact hlt⟩, hcol, hcolor]
    have hnew : overwrite t.cells i 2 (fun j => if j = i then .char (r.v_text i) (r.v_attr i)
        else .half) = overwrite t.cells i 2 r.cell := by
      refine overwrite_congr fun j hle hlt => ?_
      rcases Nat.eq_or_lt_of_le hle with rfl | hlt'
      · rw [if_pos rfl, hcell]
      · obtain rfl : j = i + 1 := by omega
        rw [if_neg (by omega), hcell']
    rw [hnew]
  · intro hnarrow
    have hone : w.uwidth (r.v_text i) = 1 := by
      rcases hwhole with hone | htwo | hzero
      · exact hone
      · exact absurd htwo.1 hnarrow
      · exact absurd hzero.1 hne
    unfold Terminal.ttputc
    rw [if_pos ⟨hone, by rw [hcol]; exact hi⟩, hcol, hcolor]
    have hnew : overwrite t.cells i 1 (fun _ => .char (r.v_text i) (r.v_attr i)) =
        overwrite t.cells i 1 r.cell := by
      refine overwrite_congr fun j hle hlt => ?_
      obtain rfl : j = i := by omega
      exact hcell.symm
    rw [hnew]

/-- Behind a character of one cell there is no filler. -/
theorem text_next (hwhole : r.Whole w ncol (i + 1)) (hnarrow : w.uwidth (r.v_text i) ≠ 2) :
    r.v_text (i + 1) ≠ 0 := by
  intro hzero
  rcases hwhole with hone | htwo | hfiller
  · exact text_ne_zero (w := w) (by rw [hone]; decide) hzero
  · exact text_ne_zero (w := w) (by rw [htwo.1]; decide) hzero
  · exact hnarrow hfiller.2.2

/-- **What is written** consists of the cells of the row, and of the filler behind the last one
if that has a wide character. -/
theorem putVideoColorsLoop_draws (count i : Nat)
    (hwhole : ∀ j, i ≤ j → j < i + count → r.Whole w ncol j) (hle : i + count ≤ ncol)
    (hfirst : 0 < count → r.v_text i ≠ 0) (hcol : t.ttcol = i) (hcolor : t.color = color) :
    ∃ k, (putVideoColorsLoop w ncol r count i color t).cells = overwrite t.cells i k r.cell ∧
      (putVideoColorsLoop w ncol r count i color t).ttcol = i + k ∧
      (k = count ∧ (0 < count → w.uwidth (r.v_text (i + count - 1)) ≠ 2) ∨
        k = count + 1 ∧ i + count < ncol ∧ r.v_text (i + count) = 0) := by
  induction count using Nat.strongRecOn generalizing i color t with
  | ind count ih =>
    cases count with
    | zero =>
        refine ⟨0, (overwrite_zero ..).symm, hcol, .inl ⟨rfl, fun h => absurd h (Nat.lt_irrefl 0)⟩⟩
    | succ count =>
        have hne := hfirst (Nat.succ_pos count)
        have hthis := hwhole i (Nat.le_refl i) (by omega)
        have hset : (if r.v_attr i ≠ color then t.ttcolor (r.v_attr i) else t).cells = t.cells ∧
            (if r.v_attr i ≠ color then t.ttcolor (r.v_attr i) else t).ttcol = i ∧
            (if r.v_attr i ≠ color then t.ttcolor (r.v_attr i) else t).color = r.v_attr i := by
          split
          · exact ⟨rfl, hcol, rfl⟩
          · rename_i hsame
            exact ⟨rfl, hcol, hcolor.trans (not_not.mp hsame).symm⟩
        rw [putVideoColorsLoop, if_neg hne]
        dsimp only
        generalize (if r.v_attr i ≠ color then t.ttcolor (r.v_attr i) else t) = t₁ at hset ⊢
        obtain ⟨hcells, hcol₁, hcolor₁⟩ := hset
        obtain ⟨hwide, hnarrow⟩ := ttputc_cells hthis (by omega) hne hcol₁ hcolor₁
        by_cases htwo : w.uwidth (r.v_text i) = 2
        · obtain ⟨hlt, hfiller, hput⟩ := hwide htwo
          rw [hput, hcells]
          cases count with
          | zero => exact ⟨2, rfl, rfl, .inr ⟨rfl, hlt, hfiller⟩⟩
          | succ count =>
              -- the filler is left out
              rw [putVideoColorsLoop, if_pos hfiller]
              have hnext : 0 < count → r.v_text (i + 2) ≠ 0 := by
                intro hpos
                refine text_next (i := i + 1) (hwhole (i + 2) (by omega) (by omega)) ?_
                rw [hfiller]
                have hnull := uwidth_zero w
                omega
              obtain ⟨k, hdrawn, hstop, hend⟩ := ih count (by omega) (i + 2)
                (t := ⟨overwrite t.cells i 2 r.cell, i + 2, r.v_attr i⟩)
                (fun j hj hj' => hwhole j (by omega) (by omega)) (by omega) hnext rfl rfl
              refine ⟨2 + k, ?_, by rw [hstop, Nat.add_assoc], ?_⟩
              · rw [hdrawn]
                exact overwrite_overwrite
              · rcases hend with ⟨rfl, hlast⟩ | ⟨rfl, hlt', hfiller'⟩
                · refine .inl ⟨by omega, fun _ => ?_⟩
                  rcases Nat.eq_zero_or_pos k with rfl | hpos
                  · rw [show i + (0 + 1 + 1) - 1 = i + 1 by omega, hfiller]
                    have hnull := uwidth_zero w
                    omega
                  · have heq : i + (k + 1 + 1) - 1 = i + 2 + k - 1 := by omega
                    rw [heq]
                    exact hlast hpos
                · refine .inr ⟨by omega, by omega, ?_⟩
                  rw [← hfiller']
                  congr 1
                  omega
        · rw [hnarrow htwo, hcells]
          have hnext : 0 < count → r.v_text (i + 1) ≠ 0 := fun hpos =>
            text_next (hwhole (i + 1) (by omega) (by omega)) htwo
          obtain ⟨k, hdrawn, hstop, hend⟩ := ih count (by omega) (i + 1)
            (t := ⟨overwrite t.cells i 1 r.cell, i + 1, r.v_attr i⟩)
            (fun j hj hj' => hwhole j (by omega) (by omega)) (by omega) hnext rfl rfl
          refine ⟨1 + k, ?_, by rw [hstop, Nat.add_assoc], ?_⟩
          · rw [hdrawn]
            exact overwrite_overwrite
          · rcases hend with ⟨rfl, hlast⟩ | ⟨rfl, hlt', hfiller'⟩
            · refine .inl ⟨by omega, fun _ => ?_⟩
              rcases Nat.eq_zero_or_pos k with rfl | hpos
              · exact htwo
              · have heq : i + (k + 1) - 1 = i + 1 + k - 1 := by omega
                rw [heq]
                exact hlast hpos
            · refine .inr ⟨by omega, by omega, ?_⟩
              rw [← hfiller']
              congr 1
              omega

theorem putVideoColors_draws (count i : Nat)
    (hwhole : ∀ j, i ≤ j → j < i + count → r.Whole w ncol j) (hle : i + count ≤ ncol)
    (hfirst : 0 < count → r.v_text i ≠ 0) (hcol : t.ttcol = i) :
    ∃ k, (putVideoColors w ncol r count i t).cells = overwrite t.cells i k r.cell ∧
      (putVideoColors w ncol r count i t).ttcol = i + k ∧
      (k = count ∧ (0 < count → w.uwidth (r.v_text (i + count - 1)) ≠ 2) ∨
        k = count + 1 ∧ i + count < ncol ∧ r.v_text (i + count) = 0) :=
  putVideoColorsLoop_draws count i hwhole hle hfirst hcol rfl

theorem ttputc_color (t : Terminal) (c : Nat) : (t.ttputc w ncol c).color = t.color := by
  unfold Terminal.ttputc
  repeat' split
  all_goals rfl

/-- In a row of plain text the color stays as it is. -/
theorem putVideoColorsLoop_color (count i : Nat) (hplain : r.plain ncol = true)
    (hle : i + count ≤ ncol) (hcolor : t.color = CTEXT) :
    (putVideoColorsLoop w ncol r count i color t).color = CTEXT := by
  induction count generalizing i color t with
  | zero => exact hcolor
  | succ count ih =>
      rw [putVideoColorsLoop]
      split
      · exact ih (i + 1) (by omega) hcolor
      · refine ih (i + 1) (by omega) ((ttputc_color ..).trans ?_)
        split
        · exact of_decide_eq_true (List.all_eq_true.mp hplain i (List.mem_range.mpr (by omega)))
        · exact hcolor

/-! ## The span -/

variable (vvp pvp) in
theorem leftMatch_spec (f i : Nat) (hf : i + f = ncol) (hfront : ∀ j < i, vvp.Same pvp j) :
    leftMatch vvp pvp f i ≤ ncol ∧ (∀ j < leftMatch vvp pvp f i, vvp.Same pvp j) ∧
      (leftMatch vvp pvp f i < ncol → ¬ vvp.Same pvp (leftMatch vvp pvp f i)) := by
  induction f generalizing i with
  | zero => exact ⟨by rw [leftMatch]; omega, hfront, fun hlt => by rw [leftMatch] at hlt; omega⟩
  | succ f ih =>
      rw [leftMatch]
      split
      · rename_i hsame
        refine ih (i + 1) (by omega) fun j hj => ?_
        rcases Nat.eq_or_lt_of_le (Nat.le_of_lt_succ hj) with rfl | hj
        · exact hsame
        · exact hfront j hj
      · rename_i hdiffer
        exact ⟨by omega, hfront, fun _ => hdiffer⟩

theorem rightMatch_spec (i n : Nat) (nbflag : Bool) (hi : i < n) (hdiffer : ¬ vvp.Same pvp i)
    (hn : n ≤ ncol) (hback : ∀ j, n ≤ j → j < ncol → vvp.Same pvp j)
    (hblank : nbflag = false → ∀ j, n ≤ j → j < ncol → vvp.v_text j = 32) :
    let r := rightMatch vvp pvp n nbflag
    i < r.1 ∧ r.1 ≤ ncol ∧ ¬ vvp.Same pvp (r.1 - 1) ∧
      (∀ j, r.1 ≤ j → j < ncol → vvp.Same pvp j) ∧
      (r.2 = false → ∀ j, r.1 ≤ j → j < ncol → vvp.v_text j = 32) := by
  induction n generalizing nbflag with
  | zero => exact absurd hi (Nat.not_lt_zero i)
  | succ n ih =>
      rw [rightMatch]
      split
      · rename_i hsame
        have hne : i ≠ n := fun heq => hdiffer (heq ▸ hsame)
        refine ih _ (by omega) (by omega) (fun j hj hj' => ?_) fun hnb j hj hj' => ?_
        · rcases Nat.eq_or_lt_of_le hj with rfl | hj
          · exact hsame
          · exact hback j hj hj'
        · rw [Bool.or_eq_false_iff, decide_eq_false_iff_not, not_not] at hnb
          rcases Nat.eq_or_lt_of_le hj with rfl | hj
          · exact hnb.2
          · exact hblank hnb.1 j hj hj'
      · rename_i hthis
        exact ⟨hi, hn, hthis, hback, hblank⟩

theorem eraseFrom_spec (i n : Nat) (hi : i ≤ n) :
    i ≤ eraseFrom r i n ∧ eraseFrom r i n ≤ n ∧
      ∀ j, eraseFrom r i n ≤ j → j < n → r.v_text j = 32 := by
  induction n with
  | zero => exact ⟨hi, Nat.le_refl 0, fun j _ hj => absurd hj (Nat.not_lt_zero j)⟩
  | succ n ih =>
      rw [eraseFrom]
      split
      · rename_i hblank
        obtain ⟨hle, hge, hall⟩ := ih (by omega)
        refine ⟨hle, by omega, fun j hj hj' => ?_⟩
        rcases Nat.eq_or_lt_of_le (Nat.le_of_lt_succ hj') with rfl | hj'
        · exact hblank.2
        · exact hall j hj hj'
      · exact ⟨hi, Nat.le_refl _, fun j hj hj' => absurd hj' (Nat.not_lt.mpr hj)⟩

/-! ## The row -/

/-- What `uline` writes consists of whole characters: the cells from the first one that
differs to the last, or all if the color of the row differs. -/
structure DrawsWhole (w : Wcwidth) (ncol : Nat) (vvp pvp : Cells) : Prop where
  span : ∀ i j k, i ≤ j → j ≤ k → k < ncol → ¬ vvp.Same pvp i → ¬ vvp.Same pvp k →
    vvp.Whole w ncol j
  first : ∀ i < ncol, (∀ j < i, vvp.Same pvp j) → ¬ vvp.Same pvp i → vvp.v_text i ≠ 0
  recolored : vvp.v_color ≠ pvp.v_color → ∀ i < ncol, vvp.Whole w ncol i

theorem whole_zero (h : r.Whole w ncol 0) : r.v_text 0 ≠ 0 := by
  rcases h with hone | htwo | hfiller
  · exact text_ne_zero (w := w) (by rw [hone]; decide)
  · exact text_ne_zero (w := w) (by rw [htwo.1]; decide)
  · exact absurd hfiller.2.1 (Nat.lt_irrefl 0)

/-- Where the cells stop that are written, no wide character is cut. -/
theorem stop_uncut (hend : k = j ∧ (0 < j → w.uwidth (r.v_text (i + j - 1)) ≠ 2) ∨
    k = j + 1 ∧ i + j < ncol ∧ r.v_text (i + j) = 0) (hk : 0 < k) :
    w.uwidth (r.v_text (i + k - 1)) ≠ 2 := by
  rcases hend with ⟨rfl, hlast⟩ | ⟨rfl, -, hfiller⟩
  · exact hlast hk
  · have heq : i + (j + 1) - 1 = i + j := by omega
    have hnull := uwidth_zero w
    rw [heq, hfiller]
    omega

/-- **What `uline` does** to the cells of the terminal. -/
theorem uline_cells (tceeol : Int) (h : DrawsWhole w ncol vvp pvp) (t : Terminal) :
    ∃ a k, (uline w ncol tceeol vvp pvp t).cells = overwrite t.cells a k vvp.cell ∧ a + k ≤ ncol ∧
      (∀ j < a, vvp.Same pvp j) ∧ (∀ j, a + k ≤ j → j < ncol → vvp.Same pvp j) ∧
      (0 < k → vvp.v_text a ≠ 0 ∧
        (a + k < ncol → w.uwidth (vvp.v_text (a + k - 1)) ≠ 2)) := by
  unfold uline
  by_cases hcolor : vvp.v_color ≠ pvp.v_color
  · -- all of the row
    rw [if_pos hcolor]
    have hall := h.recolored hcolor
    obtain ⟨k, hdrawn, -, hend⟩ := putVideoColors_draws (t := t.ttmove 0) ncol 0
      (fun j _ hj => hall j (by omega)) (by omega) (fun hpos => whole_zero (hall 0 hpos)) rfl
    refine ⟨0, k, hdrawn, ?_, fun j hj => absurd hj (Nat.not_lt_zero j), ?_, fun hk => ⟨?_, ?_⟩⟩
    · omega
    · intro j hj hj'
      omega
    · exact whole_zero (hall 0 (by omega))
    · intro _
      exact stop_uncut hend hk
  · rw [if_neg hcolor]
    obtain ⟨hcp1, hsame, hdiffer⟩ := leftMatch_spec vvp pvp ncol 0
      (Nat.zero_add ncol) fun j hj => absurd hj (Nat.not_lt_zero j)
    dsimp only
    generalize leftMatch vvp pvp ncol 0 = a at hcp1 hsame hdiffer ⊢
    by_cases hend : a = ncol
    · rw [if_pos hend]
      exact ⟨a, 0, (overwrite_zero ..).symm, hcp1, hsame, (fun j hj hj' => by omega),
        fun hk => absurd hk (Nat.lt_irrefl 0)⟩
    rw [if_neg hend]
    have hlt : a < ncol := Nat.lt_of_le_of_ne hcp1 hend
    have hdiffer := hdiffer hlt
    have hfirst := h.first a hlt hsame hdiffer
    obtain ⟨hab, hb, hlast, hback, hblank⟩ := rightMatch_spec a ncol false hlt hdiffer
      (Nat.le_refl _) (fun j hj hj' => absurd hj' (Nat.not_lt.mpr hj))
      fun _ j hj hj' => absurd hj' (Nat.not_lt.mpr hj)
    generalize rightMatch vvp pvp ncol false = m at hab hb hlast hback hblank ⊢
    obtain ⟨b, nbflag⟩ := m
    dsimp only at hab hb hlast hback hblank ⊢
    have hspan : ∀ j, a ≤ j → j < b → vvp.Whole w ncol j := fun j hj hj' =>
      h.span a j (b - 1) hj (by omega) (by omega) hdiffer hlast
    obtain ⟨e, heq, hcp5⟩ : ∃ e,
        (if nbflag = false ∧ vvp.v_color = CTEXT ∧ vvp.plain ncol = true then
        if (b - eraseFrom vvp a b : Int) ≤ tceeol then b else eraseFrom vvp a b
      else b) = e ∧ (e = b ∨ a ≤ e ∧ e < b ∧ nbflag = false ∧ vvp.plain ncol = true ∧
        ∀ j, e ≤ j → j < b → vvp.v_text j = 32) := by
      obtain ⟨hle, hge, herase⟩ := eraseFrom_spec (r := vvp) a b (Nat.le_of_lt hab)
      refine ⟨_, rfl, ?_⟩
      split
      · rename_i hplain
        split
        · exact .inl rfl
        · rcases Nat.eq_or_lt_of_le hge with heq | hlt
          · exact .inl heq
          · exact .inr ⟨hle, hlt, hplain.1, hplain.2.2, herase⟩
      · exact .inl rfl
    rw [heq]
    rcases hcp5 with rfl | ⟨hle, hlt', hnb, hplain, hspace⟩
    · -- nothing is erased
      rw [if_neg (not_not_intro rfl)]
      obtain ⟨k, hdrawn, -, hstop⟩ := putVideoColors_draws (t := t.ttmove a) (e - a) a
        (fun j hj hj' => hspan j hj (by omega)) (by omega) (fun _ => hfirst) rfl
      refine ⟨a, k, hdrawn, by omega, hsame, fun j hj hj' => hback j (by omega) hj', fun hk => ?_⟩
      exact ⟨hfirst, fun _ => stop_uncut hstop hk⟩
    · -- blanks at the end are erased
      rw [if_pos (Nat.ne_of_lt hlt')]
      have hspaces : ∀ j, e ≤ j → j < ncol → vvp.v_text j = 32 := fun j hj hj' => by
        by_cases hjb : j < b
        · exact hspace j hj hjb
        · exact hblank hnb j (by omega) hj'
      have hplains : ∀ j < ncol, vvp.v_attr j = CTEXT := fun j hj =>
        of_decide_eq_true (List.all_eq_true.mp hplain j (List.mem_range.mpr hj))
      obtain ⟨k, hdrawn, hcol, hstop⟩ := putVideoColors_draws (t := t.ttmove a) (e - a) a
        (fun j hj hj' => hspan j hj (by omega)) (by omega) (fun _ => hfirst) rfl
      have hset : (putVideoColors w ncol vvp (e - a) a (t.ttmove a)).color = CTEXT :=
        putVideoColorsLoop_color (e - a) a hplain (by omega) (hplains a hlt)
      have hk : a + k = e := by
        rcases hstop with ⟨rfl, -⟩ | ⟨-, -, hfiller⟩
        · omega
        · have hzero := hspaces (a + (e - a)) (by omega) (by omega)
          rw [hfiller] at hzero
          cases hzero
      refine ⟨a, k + (ncol - e), ?_, by omega, hsame, fun j hj hj' => by omega, fun _ => ?_⟩
      · unfold Terminal.tteeol
        dsimp only
        rw [hcol, hdrawn, hset, hk]
        have hnew : ∀ cells, overwrite cells e (ncol - e) (fun _ => .char 32 CTEXT) =
            overwrite cells e (ncol - e) vvp.cell := fun cells => by
          refine overwrite_congr fun j hj hj' => ?_
          have htext := hspaces j hj (by omega)
          rw [Cells.cell, htext, hplains j (by omega)]
          rfl
        rw [hnew]
        subst hk
        exact overwrite_overwrite
      · exact ⟨hfirst, fun hout => by omega⟩

/-- **Whole characters are shown** if what is written consists of whole characters. -/
theorem uline_whole (tceeol : Int) (h : DrawsWhole w ncol vvp pvp) (htidy : Tidy w ncol t.cells)
    (hshown : ∀ i < ncol, pvp.Whole w ncol i → t.cells i = pvp.cell i) :
    ∀ i < ncol, vvp.Whole w ncol i → (uline w ncol tceeol vvp pvp t).cells i = vvp.cell i := by
  obtain ⟨a, k, hcells, hle, hfront, hback, hedge⟩ := uline_cells tceeol h t
  have hcell : ∀ i, vvp.Same pvp i → pvp.cell i = vvp.cell i := fun i hsame => by
    rw [Cells.cell, Cells.cell, hsame.1, hsame.2]
  have hwidth : ∀ i < ncol, ∀ c color, vvp.cell i = .char c color → vvp.v_text i = c := by
    intro i _ c color hchar
    unfold Cells.cell at hchar
    split at hchar
    · cases hchar
    · exact (TCell.char.inj hchar).1
  intro j hj hwhole
  rw [hcells]
  by_cases hin : a ≤ j ∧ j < a + k
  · exact overwrite_in hin.1 hin.2
  -- the cell is as before, and so are its neighbors
  have hsame : vvp.Same pvp j := by
    by_cases hja : j < a
    · exact hfront j hja
    · exact hback j (by omega) hj
  have hfiller : 0 < k → j = a + k → vvp.v_text j ≠ 0 := by
    intro hk heq hzero
    have huncut := (hedge hk).2 (by omega)
    rw [← heq] at huncut
    rcases hwhole with hone | htwo | hhalf
    · exact text_ne_zero (w := w) (by rw [hone]; decide) hzero
    · exact text_ne_zero (w := w) (by rw [htwo.1]; decide) hzero
    · exact huncut hhalf.2.2
  have hlead : 0 < k → j + 1 = a → w.uwidth (vvp.v_text j) ≠ 2 := by
    intro hk heq htwo
    rcases hwhole with hone | hwide | hhalf
    · rw [htwo] at hone
      cases hone
    · rw [heq] at hwide
      exact (hedge hk).1 hwide.2.2
    · have hnull := uwidth_zero w
      rw [hhalf.1] at htwo
      omega
  have hold : pvp.Whole w ncol j := by
    rcases hwhole with hone | hwide | hhalf
    · exact .inl (hsame.1 ▸ hone)
    · refine .inr (.inl ⟨hsame.1 ▸ hwide.1, hwide.2.1, ?_⟩)
      have hnext : vvp.Same pvp (j + 1) := by
        by_cases hk : 0 < k
        · by_cases hja : j + 1 < a
          · exact hfront _ hja
          · refine hback _ ?_ hwide.2.1
            have hne : j + 1 ≠ a := fun heq => hlead hk heq hwide.1
            omega
        · by_cases hja : j + 1 < a
          · exact hfront _ hja
          · exact hback _ (by omega) hwide.2.1
      rw [← hnext.1]
      exact hwide.2.2
    · refine .inr (.inr ⟨hsame.1 ▸ hhalf.1, hhalf.2.1, ?_⟩)
      have hprev : vvp.Same pvp (j - 1) := by
        by_cases hja : j - 1 < a
        · exact hfront _ hja
        · refine hback _ ?_ (by omega)
          by_cases hk : 0 < k
          · have hne : j ≠ a + k := fun heq => hfiller hk heq hhalf.1
            omega
          · omega
      rw [← hprev.1]
      exact hhalf.2.2
  have hthis := (hshown j hj hold).trans (hcell j hsame)
  rcases Nat.eq_zero_or_pos k with rfl | hk
  · rw [overwrite_zero]
    exact hthis
  · rw [overwrite_out hin, hthis]
    · intro heq hhalf
      obtain ⟨i, c, color, hi, hchar, htwo⟩ := htidy.half a (by omega) hhalf
      obtain rfl : i = j := by omega
      rw [hthis] at hchar
      rw [← hwidth i hj c color hchar] at htwo
      exact hlead hk heq htwo
    · intro heq hhalf
      rw [hthis] at hhalf
      unfold Cells.cell at hhalf
      split at hhalf
      · rename_i hzero
        exact hfiller hk heq hzero
      · cases hhalf

/-! ## The terminal stays tidy -/

section Tidy

variable {cells new : Nat → TCell} {col : Nat}

theorem overwrite_tidy (h : Tidy w ncol cells) (hle : col + k ≤ ncol)
    (hhalf : ∀ j, col ≤ j → j < col + k → new j = .half →
      ∃ i c color, j = i + 1 ∧ col ≤ i ∧ new i = .char c color ∧ w.uwidth c = 2)
    (hchar : ∀ j, col ≤ j → j < col + k → ∀ c color, new j = .char c color →
      w.uwidth c = 1 ∨ w.uwidth c = 2 ∧ j + 1 < col + k ∧ new (j + 1) = .half) :
    Tidy w ncol (overwrite cells col k new) := by
  rcases Nat.eq_zero_or_pos k with rfl | hk
  · rw [overwrite_zero]
    exact h
  constructor
  · intro j hj hthis
    by_cases hin : col ≤ j ∧ j < col + k
    · rw [overwrite_in hin.1 hin.2] at hthis
      obtain ⟨i, c, color, rfl, hi, hlead, htwo⟩ := hhalf j hin.1 hin.2 hthis
      exact ⟨i, c, color, rfl, by rw [overwrite_in hi (by omega)]; exact hlead, htwo⟩
    · rw [overwrite, if_neg hin] at hthis
      split at hthis
      · cases hthis
      · split at hthis
        · cases hthis
        · rename_i hleft hright
          obtain ⟨i, c, color, rfl, hlead, htwo⟩ := h.half j hj hthis
          refine ⟨i, c, color, rfl, ?_, htwo⟩
          have hout : ¬ (col ≤ i ∧ i < col + k) := fun hand => hright ⟨hk, by omega, hthis⟩
          rw [overwrite_out hout]
          · exact hlead
          · intro heq _
            exact hin ⟨by omega, by omega⟩
          · intro _ heq
            rw [hlead] at heq
            cases heq
  · intro j hj c color hthis
    by_cases hin : col ≤ j ∧ j < col + k
    · rw [overwrite_in hin.1 hin.2] at hthis
      rcases hchar j hin.1 hin.2 c color hthis with hone | ⟨htwo, hlt, hnext⟩
      · exact .inl hone
      · exact .inr ⟨htwo, by omega, by rw [overwrite_in (by omega) hlt]; exact hnext⟩
    · rw [overwrite, if_neg hin] at hthis
      split at hthis
      · obtain ⟨rfl, -⟩ := TCell.char.inj hthis
        exact .inl (uwidth_blank w)
      · split at hthis
        · obtain ⟨rfl, -⟩ := TCell.char.inj hthis
          exact .inl (uwidth_blank w)
        · rename_i hleft hright
          rcases h.char j hj c color hthis with hone | ⟨htwo, hlt, hnext⟩
          · exact .inl hone
          · refine .inr ⟨htwo, hlt, ?_⟩
            have hout : ¬ (col ≤ j + 1 ∧ j + 1 < col + k) := by
              intro hand
              have heq : j + 1 = col := by omega
              exact hleft ⟨hk, heq, heq ▸ hnext⟩
            rw [overwrite_out hout]
            · exact hnext
            · intro heq hcol
              obtain ⟨i, d, color', hi, hlead, -⟩ := h.half col (by omega) hcol
              obtain rfl : i = j + 1 := by omega
              rw [hnext] at hlead
              cases hlead
            · intro heq _
              exact hin ⟨by omega, by omega⟩

theorem ttputc_tidy (h : Tidy w ncol t.cells) (c : Nat) :
    Tidy w ncol (t.ttputc w ncol c).cells := by
  unfold Terminal.ttputc
  split
  · rename_i hone
    refine overwrite_tidy h (by omega) (fun _ _ _ hhalf => nomatch hhalf)
      fun _ _ _ c' color hchar => ?_
    obtain ⟨rfl, -⟩ := TCell.char.inj hchar
    exact .inl hone.1
  · split
    · rename_i htwo
      refine overwrite_tidy h (by omega) (fun j hj hj' hhalf => ?_)
        fun j hj hj' c' color hchar => ?_
      · have hne : j ≠ t.ttcol := by
          rintro rfl
          rw [if_pos rfl] at hhalf
          cases hhalf
        exact ⟨t.ttcol, c, t.color, by omega, Nat.le_refl _, if_pos rfl, htwo.1⟩
      · split at hchar
        · rename_i heq
          obtain ⟨rfl, -⟩ := TCell.char.inj hchar
          exact .inr ⟨htwo.1, by omega, if_neg (by omega)⟩
        · cases hchar
    · split
      · exact h
      · exact h

theorem putVideoColorsLoop_tidy (count i : Nat) (h : Tidy w ncol t.cells) :
    Tidy w ncol (putVideoColorsLoop w ncol r count i color t).cells := by
  induction count generalizing i color t with
  | zero => exact h
  | succ count ih =>
      rw [putVideoColorsLoop]
      split
      · exact ih (i + 1) h
      · refine ih (i + 1) (ttputc_tidy ?_ _)
        split
        · exact h
        · exact h

theorem tteeol_tidy (h : Tidy w ncol t.cells) : Tidy w ncol (t.tteeol ncol).cells := by
  by_cases hle : t.ttcol ≤ ncol
  · refine overwrite_tidy h (by omega) (fun _ _ _ hhalf => nomatch hhalf)
      fun _ _ _ c color hchar => ?_
    obtain ⟨rfl, -⟩ := TCell.char.inj hchar
    exact .inl (uwidth_blank w)
  · unfold Terminal.tteeol
    rw [Nat.sub_eq_zero_of_le (by omega), overwrite_zero]
    exact h

theorem uline_tidy (tceeol : Int) (vvp pvp : Cells) (h : Tidy w ncol t.cells) :
    Tidy w ncol (uline w ncol tceeol vvp pvp t).cells := by
  unfold uline
  split
  · exact putVideoColorsLoop_tidy ncol 0 h
  · dsimp only
    split
    · exact h
    · generalize rightMatch vvp pvp ncol false = m
      obtain ⟨cp3, nbflag⟩ := m
      dsimp only
      generalize (if nbflag = false ∧ vvp.v_color = CTEXT ∧ vvp.plain ncol = true then _
        else cp3) = cp5
      have hdrawn : Tidy w ncol (putVideoColors w ncol vvp (cp5 - leftMatch vvp pvp ncol 0)
          (leftMatch vvp pvp ncol 0) (t.ttmove (leftMatch vvp pvp ncol 0))).cells :=
        putVideoColorsLoop_tidy _ _ h
      split
      · exact tteeol_tidy hdrawn
      · exact hdrawn

end Tidy

/-! ## When the row is shown -/

/-- The row consists of whole characters: none is cut at an edge of the view, or has its filler
overwritten. -/
def AllWhole (w : Wcwidth) (ncol : Nat) (r : Cells) : Prop := ∀ i < ncol, r.Whole w ncol i

theorem cell_char (h : r.cell i = .char c color) : r.v_text i = c := by
  unfold Cells.cell at h
  split at h
  · cases h
  · exact (TCell.char.inj h).1

theorem cell_half (h : r.cell i = .half) : r.v_text i = 0 := by
  unfold Cells.cell at h
  split at h
  · assumption
  · cases h

/-- What a terminal shows consists of whole characters. -/
theorem allWhole_of_shown {cells : Nat → TCell} (htidy : Tidy w ncol cells)
    (h : Shown ncol r cells) : AllWhole w ncol r := by
  intro i hi
  have hthis := h i hi
  by_cases hzero : r.v_text i = 0
  · have hhalf : r.cell i = .half := if_pos hzero
    obtain ⟨j, c, color, rfl, hlead, htwo⟩ := htidy.half i hi (hthis.trans hhalf)
    refine .inr (.inr ⟨hzero, Nat.succ_pos j, ?_⟩)
    rw [h j (by omega)] at hlead
    rw [Nat.add_sub_cancel, cell_char hlead]
    exact htwo
  · have hchar : r.cell i = .char (r.v_text i) (r.v_attr i) := if_neg hzero
    rcases htidy.char i hi _ _ (hthis.trans hchar) with hone | ⟨htwo, hlt, hnext⟩
    · exact .inl hone
    · rw [h (i + 1) hlt] at hnext
      exact .inr (.inl ⟨htwo, hlt, cell_half hnext⟩)

/-- A row of whole characters can be shown. -/
theorem AllWhole.tidy (h : AllWhole w ncol r) : Tidy w ncol r.cell := by
  constructor
  · intro j hj hhalf
    have hzero := cell_half hhalf
    rcases h j hj with hone | htwo | hfiller
    · exact absurd hzero (text_ne_zero (w := w) (by rw [hone]; decide))
    · exact absurd hzero (text_ne_zero (w := w) (by rw [htwo.1]; decide))
    · have hne : r.v_text (j - 1) ≠ 0 := text_ne_zero (w := w) (by rw [hfiller.2.2]; decide)
      have hpos := hfiller.2.1
      exact ⟨j - 1, _, _, by omega, if_neg hne, hfiller.2.2⟩
  · intro j hj c color hchar
    have htext := cell_char hchar
    subst htext
    rcases h j hj with hone | htwo | hfiller
    · exact .inl hone
    · exact .inr ⟨htwo.1, htwo.2.1, if_pos htwo.2.2⟩
    · rw [Cells.cell, if_pos hfiller.1] at hchar
      cases hchar

theorem AllWhole.draws (hv : AllWhole w ncol vvp) (hp : AllWhole w ncol pvp)
    (hpair : vvp.Paired w ncol) (hpair' : pvp.Paired w ncol) : DrawsWhole w ncol vvp pvp := by
  refine ⟨fun i j k _ _ hk _ _ => hv j (by omega), fun i hi hsame hdiffer hzero => ?_, fun _ => hv⟩
  rcases hv i hi with hone | htwo | hfiller
  · exact text_ne_zero (w := w) (by rw [hone]; decide) hzero
  · exact text_ne_zero (w := w) (by rw [htwo.1]; decide) hzero
  · -- the filler would be the same as well
    obtain ⟨-, hpos, hwide⟩ := hfiller
    obtain ⟨j, rfl⟩ : ∃ j, i = j + 1 := ⟨i - 1, by omega⟩
    rw [Nat.add_sub_cancel] at hwide
    have hlead := hsame j (Nat.lt_succ_self j)
    have hwide' : w.uwidth (pvp.v_text j) = 2 := hlead.1 ▸ hwide
    have hzero' : pvp.v_text (j + 1) = 0 := by
      rcases hp j (by omega) with hone | htwo | hfiller
      · rw [hwide'] at hone
        cases hone
      · exact htwo.2.2
      · have hnull := uwidth_zero w
        rw [hfiller.1] at hwide'
        omega
    refine hdiffer ⟨hzero.trans hzero'.symm, ?_⟩
    rw [hpair j hi hwide hzero, hpair' j hi hwide' hzero', hlead.2]

/-- If the terminal shows the old row, `uline` makes it show the new one. -/
def UlineShows (w : Wcwidth) (ncol : Nat) (tceeol : Int) (vvp pvp : Cells) : Prop :=
  ∀ t : Terminal, Tidy w ncol t.cells → Shown ncol pvp t.cells →
    Shown ncol vvp (uline w ncol tceeol vvp pvp t).cells

/-- **The terminal shows the new row**, if it has shown the old one, exactly if no character of
the new row is cut.  Where characters are cut, but not in what is written, the others are shown
still. -/
theorem uline_shows_iff (w : Wcwidth) (ncol : Nat) (tceeol : Int) (vvp pvp : Cells)
    (hpair : vvp.Paired w ncol) (hpair' : pvp.Paired w ncol) :
    (UlineShows w ncol tceeol vvp pvp ↔ (AllWhole w ncol pvp → AllWhole w ncol vvp)) ∧
      (DrawsWhole w ncol vvp pvp → ∀ t : Terminal, Tidy w ncol t.cells →
        (∀ i < ncol, pvp.Whole w ncol i → t.cells i = pvp.cell i) →
        ∀ i < ncol, vvp.Whole w ncol i →
          (uline w ncol tceeol vvp pvp t).cells i = vvp.cell i) := by
  refine ⟨⟨fun h hp => ?_, fun h t htidy hshown => ?_⟩, fun h t htidy hshown => ?_⟩
  · have hshows := h ⟨pvp.cell, 0, 0⟩ hp.tidy fun _ _ => rfl
    exact allWhole_of_shown (uline_tidy tceeol vvp pvp hp.tidy) hshows
  · have hp := allWhole_of_shown htidy hshown
    have hv := h hp
    intro i hi
    exact uline_whole tceeol (hv.draws hp hpair hpair') htidy (fun j hj _ => hshown j hj) i hi
      (hv i hi)
  · exact uline_whole tceeol h htidy hshown

/-- A row in one color. -/
def cellsOf (r : Row) : Cells := ⟨fun i => r.vttext i, fun _ => CTEXT, CTEXT⟩

/-- A row of three cells, from the start of a line, and one column further to the right. -/
def wideRow (leftcol : Int) : Cells :=
  cellsOf (vtputs someWidths 8 ⟨0, leftcol, 3⟩ ⟨[0xe1, 0x84, 0x80, 0x61, 0x62], []⟩ 3 fun _ => 32)

/-- A row of blanks. -/
def blankRow : Cells := ⟨fun _ => 32, fun _ => CTEXT, CTEXT⟩

theorem uline_shows_wideRow : UlineShows someWidths 3 5 (wideRow 0) blankRow := by
  have hwhole : AllWhole someWidths 3 (wideRow 0) := by
    unfold AllWhole
    decide
  exact (uline_shows_iff someWidths 3 5 (wideRow 0) blankRow (fun _ _ _ _ => rfl)
    (fun _ _ _ _ => rfl)).1.mpr fun _ => hwhole

/-- With its first column cut, the row is shown one cell too far to the left. -/
theorem uline_shifts_wideRow :
    (List.range 3).map (wideRow 1).v_text = [0, 0x61, 0x62] ∧
      (List.range 3).map
          (uline someWidths 3 5 (wideRow 1) blankRow ⟨blankRow.cell, 0, CTEXT⟩).cells =
        [.char 0x61 CTEXT, .char 0x62 CTEXT, .char 32 CTEXT] ∧
      ¬ UlineShows someWidths 3 5 (wideRow 1) blankRow := by
  refine ⟨by decide, by decide, fun h => ?_⟩
  have hblank : AllWhole someWidths 3 blankRow := fun i _ => .inl rfl
  have hshown := h ⟨blankRow.cell, 0, CTEXT⟩ hblank.tidy (fun _ _ => rfl) 1 (by decide)
  exact absurd hshown (by decide)

end Emacs.Screen
