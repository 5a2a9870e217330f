import Zzdwm.Emacs.State
import Zzdwm.Lib.Circular

/-!
# The region (`region.c`)

The region lies between the cursor and the mark.  Two pointers walk away from the
line of the cursor, each with the size of what it has passed.

* `Linked`, `Within` — the lines form one circle, and a position lies in it;
* `Ed.passed` — the number of characters in front of a position, one for each
  newline;
* `getregion_spec` — **the walk finds the mark**, and measures what lies between;
* `getregion_measures` — the same for the routine, with its check of the size.
-/

namespace Emacs

/-- `INT_MAX`, which bounds `l_used` and `r_size`. -/
def INT_MAX : Nat := 2 ^ 31 - 1

/-- `lback`. -/
def Ed.lback (e : Ed) (lp : LineId) : LineId := (e.lines.takeWhile (· ≠ lp)).getLastD e.b_linep

/-- `firstline`. -/
def Ed.firstline (e : Ed) : LineId := e.lforw e.b_linep

/-- `REGION`. -/
structure REGION where
  r_pos : POS
  r_size : Int

/-- What a routine returns that fills in a region: `TRUE`, or `FALSE` after a
message. -/
abbrev Filled := REGION × Option String

/-- `setsize`; `size` is a `long`, the field an `int`. -/
def setsize (rp : REGION) (size : Int) : Filled :=
  let rp := { rp with r_size := size.bmod (2 ^ 32) }
  (rp, if rp.r_size ≠ size then some "Region is too large" else none)

/-- The step of the loop of `getregion` that goes forward, unless `flp` is the
header line: the new `flp` and `fsize`, and the result if the mark is there. -/
def getregionForw (e : Ed) (rp : REGION) (flp : LineId) (fsize : Int) :
    Option Filled × LineId × Int :=
  if flp = e.b_linep then (none, flp, fsize)
  else
    let flp := e.lforw flp
    if flp = e.curwp.w_mark.p then
      (some (setsize { rp with r_pos := e.dot } (fsize + e.curwp.w_mark.o)), flp, fsize)
    else (none, flp, fsize + ((e.line flp).wllength + 1))

/-- The step that goes back, unless `blp` is the first line. -/
def getregionBack (e : Ed) (rp : REGION) (blp : LineId) (bsize : Int) :
    Option Filled × LineId × Int :=
  if blp = e.firstline then (none, blp, bsize)
  else
    let blp := e.lback blp
    let bsize := bsize + ((e.line blp).wllength + 1)
    if blp = e.curwp.w_mark.p then
      (some (setsize { rp with r_pos := ⟨blp, e.curwp.w_mark.o⟩ } (bsize - e.curwp.w_mark.o)),
        blp, bsize)
    else (none, blp, bsize)

/-- The loop of `getregion`; in every round one of the pointers moves. -/
def getregionLoop (e : Ed) (rp : REGION) : Nat → LineId → LineId → Int → Int → Filled
  | 0, _, _, _, _ => (rp, some "Bug: lost mark")
  | f + 1, flp, blp, fsize, bsize =>
      if flp ≠ e.b_linep ∨ blp ≠ e.firstline then
        match getregionForw e rp flp fsize with
        | (some r, _, _) => r
        | (none, flp, fsize) =>
            match getregionBack e rp blp bsize with
            | (some r, _, _) => r
            | (none, blp, bsize) => getregionLoop e rp f flp blp fsize bsize
      else (rp, some "Bug: lost mark")

/-- `getregion`. -/
def getregion (e : Ed) (rp : REGION) : Filled :=
  let dot := e.dot
  let mark := e.curwp.w_mark
  if mark.p = null then (rp, some "No mark in this window")
  else if dot.p = mark.p then
    if dot.o < mark.o then (⟨dot, mark.o - dot.o⟩, none)
    else (⟨⟨dot.p, mark.o⟩, dot.o - mark.o⟩, none)
  else
    let bsize : Int := dot.o
    let fsize : Int := (e.line dot.p).wllength - bsize + 1
    getregionLoop e rp (e.lines.length + 1) dot.p dot.p fsize bsize

/-- The lines of the buffer and its header line form one circle of `LINE`s, and
`l_used` is an `int`. -/
structure Linked (e : Ed) : Prop where
  nodup : e.lines.Nodup
  header : e.b_linep ∉ e.lines
  nonnull : null ∉ e.b_linep :: e.lines
  fits : ∀ p, (e.line p).wllength ≤ INT_MAX

/-- A position in the buffer. -/
def Within (e : Ed) (pos : POS) : Prop :=
  (pos.p ∈ e.lines ∨ pos.p = e.b_linep) ∧ pos.o ≤ (e.line pos.p).wllength

theorem Within.nonnull {e : Ed} {pos : POS} (hpos : Within e pos) (h : Linked e) : pos.p ≠ null := by
  intro heq
  have hmem : null ∈ e.b_linep :: e.lines := by
    rcases hpos.1 with hmem | hlast
    · exact List.mem_cons_of_mem _ (heq ▸ hmem)
    · rw [← heq, hlast]
      exact List.mem_cons_self
  exact h.nonnull hmem

/-- The number of characters in front of a position, one for each newline. -/
def Ed.passed (e : Ed) (pos : POS) : Nat :=
  Circular.before (fun p => (e.line p).wllength + 1) e.lines pos.p + pos.o

/-- The first position is not after the second one. -/
def Ed.inOrder (e : Ed) (a b : POS) : Prop :=
  e.lines.idxOf a.p < e.lines.idxOf b.p ∨ a.p = b.p ∧ a.o ≤ b.o

variable {e : Ed} {g : REGION} {flp blp : LineId} {fsize bsize : Int}

theorem lforw_eq (e : Ed) (lp : LineId) : e.lforw lp = Circular.next e.b_linep e.lines lp := rfl

theorem lback_eq (e : Ed) (lp : LineId) : e.lback lp = Circular.prev e.b_linep e.lines lp := rfl

/-- The characters in front of the beginning of a line. -/
def Ed.charsBefore (e : Ed) (lp : LineId) : Nat :=
  Circular.before (fun p => (e.line p).wllength + 1) e.lines lp

theorem passed_eq (e : Ed) (pos : POS) : e.passed pos = e.charsBefore pos.p + pos.o := rfl

namespace Linked

variable (h : Linked e)

include h

theorem charsBefore_lforw {lp : LineId} (hlp : lp ∈ e.lines) :
    e.charsBefore (e.lforw lp) = e.charsBefore lp + ((e.line lp).wllength + 1) :=
  Circular.before_next h.nodup h.header hlp

theorem idxOf_lforw {lp : LineId} (hlp : lp ∈ e.lines) :
    e.lines.idxOf (e.lforw lp) = e.lines.idxOf lp + 1 :=
  Circular.idxOf_next h.nodup h.header hlp

theorem charsBefore_lback {lp : LineId} (hlp : lp ∈ e.lines ∨ lp = e.b_linep)
    (hfirst : lp ≠ e.firstline) :
    e.charsBefore lp = e.charsBefore (e.lback lp) + ((e.line (e.lback lp)).wllength + 1) :=
  Circular.before_prev h.nodup hlp h.header hfirst

theorem idxOf_lback {lp : LineId} (hlp : lp ∈ e.lines ∨ lp = e.b_linep)
    (hfirst : lp ≠ e.firstline) : e.lines.idxOf lp = e.lines.idxOf (e.lback lp) + 1 :=
  Circular.idxOf_prev h.nodup hlp h.header hfirst

theorem lback_mem {lp : LineId} (hlp : lp ∈ e.lines ∨ lp = e.b_linep)
    (hfirst : lp ≠ e.firstline) : e.lback lp ∈ e.lines :=
  (Circular.prev_spec h.nodup hlp h.header hfirst).1

/-- The place of a line tells which line it is; the header line comes last. -/
theorem idxOf_inj {p q : LineId} (hp : p ∈ e.lines ∨ p = e.b_linep)
    (hq : q ∈ e.lines ∨ q = e.b_linep) (hpq : e.lines.idxOf p = e.lines.idxOf q) : p = q := by
  have hend : e.lines.idxOf e.b_linep = e.lines.length := List.idxOf_of_notMem h.header
  rcases hp with hp | rfl
  · exact (List.idxOf_inj hp).mp hpq
  · rcases hq with hq | rfl
    · have hlt := List.idxOf_lt_length_of_mem hq
      omega
    · rfl

omit h in
theorem idxOf_le (hp : flp ∈ e.lines ∨ flp = e.b_linep) : e.lines.idxOf flp ≤ e.lines.length := by
  rcases hp with hp | rfl
  · exact (List.idxOf_lt_length_of_mem hp).le
  · exact List.idxOf_le_length

omit h in
/-- Positions in order have no fewer characters in front of them. -/
theorem passed_le {a b : POS} (ha : Within e a) (hab : e.inOrder a b) : e.passed a ≤ e.passed b := by
  rcases hab with hlt | ⟨hp, ho⟩
  · have hmem : a.p ∈ e.lines := by
      by_contra hno
      have hidx : e.lines.idxOf a.p = e.lines.length := List.idxOf_of_notMem hno
      have hle : e.lines.idxOf b.p ≤ e.lines.length := List.idxOf_le_length
      omega
    have hbefore : Circular.before (fun p => (e.line p).wllength + 1) e.lines a.p
        + ((e.line a.p).wllength + 1)
        ≤ Circular.before (fun p => (e.line p).wllength + 1) e.lines b.p :=
      Circular.before_lt hmem hlt
    have hin := ha.2
    unfold Ed.passed
    omega
  · unfold Ed.passed
    rw [hp]
    omega

end Linked

/-- What holds when a round of the loop begins: the mark lies outside of what has
been passed, and the sizes are those of what has been passed. -/
structure Scanning (e : Ed) (flp blp : LineId) (fsize bsize : Int) : Prop where
  forw : flp ∈ e.lines ∨ flp = e.b_linep
  back : blp ∈ e.lines ∨ blp = e.b_linep
  outside : e.lines.idxOf e.curwp.w_mark.p < e.lines.idxOf blp ∨
    e.lines.idxOf flp < e.lines.idxOf e.curwp.w_mark.p
  passed_forw : flp ≠ e.b_linep →
    fsize = e.charsBefore flp + ((e.line flp).wllength + 1) - e.passed e.dot
  passed_back : bsize = e.passed e.dot - e.charsBefore blp
  around : e.lines.idxOf blp ≤ e.lines.idxOf e.dot.p ∧ e.lines.idxOf e.dot.p ≤ e.lines.idxOf flp

/-- What the walk may return: the region, measured and then checked. -/
def Measured (e : Ed) (r : Filled) : Prop :=
  ∃ a b, (a = e.dot ∧ b = e.curwp.w_mark ∨ a = e.curwp.w_mark ∧ b = e.dot) ∧ e.inOrder a b ∧
    r = setsize ⟨a, 0⟩ (e.passed b - e.passed a)

variable (h : Linked e) (hdot : Within e e.dot) (hmark : Within e e.curwp.w_mark)

include h hmark in
/-- The step forward finds the mark, or leaves it outside. -/
theorem getregionForw_spec (hs : Scanning e flp blp fsize bsize) :
    (∃ r q, getregionForw e g flp fsize = (some r, q) ∧ Measured e r) ∨
    ∃ flp' fsize', getregionForw e g flp fsize = (none, flp', fsize') ∧
      Scanning e flp' blp fsize' bsize ∧
      (flp ≠ e.b_linep → e.lines.idxOf flp' = e.lines.idxOf flp + 1) ∧
      (flp = e.b_linep → flp' = flp) := by
  unfold getregionForw
  by_cases hend : flp = e.b_linep
  · rw [if_pos hend]
    exact .inr ⟨flp, fsize, rfl, hs, fun hne => absurd hend hne, fun _ => rfl⟩
  have hflp : flp ∈ e.lines := hs.forw.resolve_right hend
  have hidx := h.idxOf_lforw hflp
  have hchars := h.charsBefore_lforw hflp
  have hsize := hs.passed_forw hend
  have hnext : e.lforw flp ∈ e.lines ∨ e.lforw flp = e.b_linep := Circular.next_mem e.lines flp
  rw [if_neg hend]
  dsimp only
  by_cases hfound : e.lforw flp = e.curwp.w_mark.p
  · rw [if_pos hfound]
    refine .inl ⟨_, _, rfl, e.dot, e.curwp.w_mark, .inl ⟨rfl, rfl⟩, .inl ?_, ?_⟩
    · have haround := hs.around.2
      rw [← hfound, hidx]
      omega
    · have heq : fsize + e.curwp.w_mark.o = (e.passed e.curwp.w_mark : Int) - e.passed e.dot := by
        rw [passed_eq e e.curwp.w_mark, ← hfound, hchars, hsize]
        omega
      exact congrArg (setsize ⟨e.dot, 0⟩) heq
  · rw [if_neg hfound]
    refine .inr ⟨_, _, rfl, ⟨hnext, hs.back, ?_, fun _ => ?_, hs.passed_back, ?_⟩,
      fun _ => hidx, fun heq => absurd heq hend⟩
    · rcases hs.outside with hlt | hlt
      · exact .inl hlt
      · refine .inr (lt_of_le_of_ne (by omega) fun heq => hfound ?_)
        exact h.idxOf_inj hnext hmark.1 heq
    · rw [hchars, hsize]
      omega
    · have haround := hs.around
      omega

include h hmark in
/-- So does the step back. -/
theorem getregionBack_spec (hs : Scanning e flp blp fsize bsize) :
    (∃ r q, getregionBack e g blp bsize = (some r, q) ∧ Measured e r) ∨
    ∃ blp' bsize', getregionBack e g blp bsize = (none, blp', bsize') ∧
      Scanning e flp blp' fsize bsize' ∧
      (blp ≠ e.firstline → e.lines.idxOf blp = e.lines.idxOf blp' + 1) ∧
      (blp = e.firstline → blp' = blp) := by
  unfold getregionBack
  by_cases hfirst : blp = e.firstline
  · rw [if_pos hfirst]
    exact .inr ⟨blp, bsize, rfl, hs, fun hne => absurd hfirst hne, fun _ => rfl⟩
  have hmem := h.lback_mem hs.back hfirst
  have hidx := h.idxOf_lback hs.back hfirst
  have hchars := h.charsBefore_lback hs.back hfirst
  have hsize := hs.passed_back
  rw [if_neg hfirst]
  dsimp only
  by_cases hfound : e.lback blp = e.curwp.w_mark.p
  · rw [if_pos hfound]
    refine .inl ⟨_, _, rfl, e.curwp.w_mark, e.dot, .inr ⟨rfl, rfl⟩, .inl ?_, ?_⟩
    · have haround := hs.around.1
      rw [← hfound]
      omega
    · have heq : bsize + ((e.line (e.lback blp)).wllength + 1) - e.curwp.w_mark.o =
          (e.passed e.dot : Int) - e.passed e.curwp.w_mark := by
        rw [passed_eq e e.curwp.w_mark, ← hfound]
        omega
      rw [hfound] at heq ⊢
      exact congrArg (setsize ⟨e.curwp.w_mark, 0⟩) heq
  · rw [if_neg hfound]
    refine .inr ⟨_, _, rfl, ⟨hs.forw, .inl hmem, ?_, hs.passed_forw, ?_, ?_⟩,
      fun _ => hidx, fun heq => absurd heq hfirst⟩
    · rcases hs.outside with hlt | hlt
      · refine .inl (lt_of_le_of_ne (by omega) fun heq => hfound ?_)
        exact (h.idxOf_inj hmark.1 (.inl hmem) heq).symm
      · exact .inr hlt
    · rw [hsize, hchars]
      omega
    · have haround := hs.around
      omega

include h in
/-- While the mark is outside of what has been passed, one of the pointers can
move. -/
theorem Scanning.moves (hs : Scanning e flp blp fsize bsize) :
    flp ≠ e.b_linep ∨ blp ≠ e.firstline := by
  by_contra hno
  rw [not_or, not_not, not_not] at hno
  obtain ⟨hend, hfirst⟩ := hno
  have hlast : e.lines.idxOf e.b_linep = e.lines.length := List.idxOf_of_notMem h.header
  have hzero : e.lines.idxOf e.firstline = 0 := by
    unfold Ed.firstline Ed.lforw
    rw [if_pos rfl]
    cases hl : e.lines with
    | nil => rfl
    | cons p ps => exact List.idxOf_cons_self
  have hle : e.lines.idxOf e.curwp.w_mark.p ≤ e.lines.length := List.idxOf_le_length
  have hout := hs.outside
  rw [hend, hfirst, hlast, hzero] at hout
  omega

include h hmark in
/-- The walk finds the mark in so many rounds as there are lines to pass. -/
theorem getregionLoop_spec (f : Nat) (hs : Scanning e flp blp fsize bsize)
    (hf : e.lines.length - e.lines.idxOf flp + e.lines.idxOf blp < f) :
    Measured e (getregionLoop e g f flp blp fsize bsize) := by
  induction f generalizing flp blp fsize bsize with
  | zero => omega
  | succ f ih =>
    have hmoves := hs.moves h
    rw [getregionLoop, if_pos hmoves]
    rcases getregionForw_spec (g := g) h hmark hs with
      ⟨r, q, heq, hm⟩ | ⟨flp', fsize', heq, hs', hidx, hsame⟩
    · rw [heq]
      exact hm
    rw [heq]
    rcases getregionBack_spec (g := g) h hmark hs' with
      ⟨r, q, heq', hm⟩ | ⟨blp', bsize', heq', hs'', hidx', hsame'⟩
    · dsimp only
      rw [heq']
      exact hm
    dsimp only
    rw [heq']
    refine ih hs'' ?_
    have hend : flp ≠ e.b_linep → e.lines.idxOf flp < e.lines.length := fun hne =>
      List.idxOf_lt_length_of_mem (hs.forw.resolve_right hne)
    rcases hmoves with hne | hne
    · have hlt := hend hne
      have hstep := hidx hne
      by_cases hfirst : blp = e.firstline
      · rw [hsame' hfirst]
        omega
      · have hstep' := hidx' hfirst
        omega
    · have hstep' := hidx' hne
      by_cases hlast : flp = e.b_linep
      · rw [hsame hlast]
        omega
      · have hstep := hidx hlast
        omega

include h hdot hmark in
/-- **The walk of `getregion` finds a mark on another line**, whichever way it
lies. -/
theorem getregion_spec (hne : e.dot.p ≠ e.curwp.w_mark.p) : Measured e (getregion e g) := by
  have hnull := hmark.nonnull h
  have hscan : Scanning e e.dot.p e.dot.p ((e.line e.dot.p).wllength - e.dot.o + 1) e.dot.o := by
    refine ⟨hdot.1, hdot.1, ?_, fun _ => ?_, ?_, le_refl _, le_refl _⟩
    · have hidx : e.lines.idxOf e.dot.p ≠ e.lines.idxOf e.curwp.w_mark.p := fun heq =>
        hne (h.idxOf_inj hdot.1 hmark.1 heq)
      omega
    · rw [passed_eq]
      omega
    · rw [passed_eq]
      omega
  have hle := Linked.idxOf_le hdot.1
  unfold getregion
  rw [if_neg hnull, if_neg hne]
  exact getregionLoop_spec h hmark _ hscan (by omega)

/-- A size that the field can hold is stored. -/
theorem setsize_fits {size : Int} (hpos : 0 ≤ size) (hle : size ≤ INT_MAX) :
    setsize g size = ({ g with r_size := size }, none) := by
  have hmod : size.bmod (2 ^ 32) = size := by
    unfold INT_MAX at hle
    exact Int.bmod_eq_of_le (by omega) (by omega)
  unfold setsize
  dsimp only
  rw [hmod, if_neg (not_not.mpr rfl)]

/-- Any other size is reported. -/
theorem setsize_too_large {size : Int} (hlt : INT_MAX < size) :
    (setsize g size).1.r_pos = g.r_pos ∧ (setsize g size).2 = some "Region is too large" := by
  have hmod : size.bmod (2 ^ 32) ≠ size := by
    have hbound : size.bmod (2 ^ 32) < ((2 ^ 32 : Nat) + 1) / 2 := Int.bmod_lt (by decide)
    unfold INT_MAX at hlt
    omega
  unfold setsize
  dsimp only
  rw [if_pos hmod]
  exact ⟨rfl, rfl⟩

/-- **The region lies between the cursor and the mark**: it begins at the one that
comes first, and its size is the number of characters up to the other one, unless
that is too large for an `int`, which is reported. -/
theorem getregion_measures (e : Ed) (rp : REGION) (h : Linked e) (hdot : Within e e.dot)
    (hmark : Within e e.curwp.w_mark) :
    ∃ a b, (a = e.dot ∧ b = e.curwp.w_mark ∨ a = e.curwp.w_mark ∧ b = e.dot) ∧ e.inOrder a b ∧
      (e.passed b - e.passed a ≤ INT_MAX →
        getregion e rp = (⟨a, (e.passed b - e.passed a : Nat)⟩, none)) ∧
      (INT_MAX < e.passed b - e.passed a →
        (getregion e rp).1.r_pos = a ∧ (getregion e rp).2 = some "Region is too large") := by
  by_cases hne : e.dot.p = e.curwp.w_mark.p
  · have hnull : e.curwp.w_mark.p ≠ null := by
      intro heq
      rcases hmark.1 with hmem | hlast
      · exact h.nonnull (List.mem_cons_of_mem _ (heq ▸ hmem))
      · exact h.nonnull (by rw [← heq, hlast]; exact List.mem_cons_self)
    have hpass : ∀ a b : POS, a.p = b.p → e.passed b - e.passed a = b.o - a.o := by
      intro a b hab
      rw [passed_eq, passed_eq, hab]
      omega
    have hfits := h.fits e.dot.p
    have hdoto := hdot.2
    have hmarko := hmark.2
    rw [← hne] at hmarko
    unfold getregion
    rw [if_neg hnull, if_pos hne]
    by_cases hlt : e.dot.o < e.curwp.w_mark.o
    · refine ⟨e.dot, e.curwp.w_mark, .inl ⟨rfl, rfl⟩, .inr ⟨hne, hlt.le⟩, fun _ => ?_, fun hbig => ?_⟩
      · rw [if_pos hlt, hpass _ _ hne, Int.ofNat_sub hlt.le]
      · rw [hpass _ _ hne] at hbig
        omega
    · refine ⟨e.curwp.w_mark, e.dot, .inr ⟨rfl, rfl⟩, .inr ⟨hne.symm, by omega⟩, fun _ => ?_,
        fun hbig => ?_⟩
      · rw [if_neg hlt, hpass _ _ hne.symm, Int.ofNat_sub (by omega), hne]
      · rw [hpass _ _ hne.symm] at hbig
        omega
  · obtain ⟨a, b, hab, hord, hr⟩ := getregion_spec (g := rp) h hdot hmark hne
    have hin : Within e a := by
      rcases hab with ⟨rfl, -⟩ | ⟨rfl, -⟩
      · exact hdot
      · exact hmark
    have hle := Linked.passed_le hin hord
    rw [← Int.ofNat_sub hle] at hr
    refine ⟨a, b, hab, hord, fun hsmall => ?_, fun hbig => ?_⟩
    · rw [hr, setsize_fits (Int.natCast_nonneg _) (by omega)]
    · rw [hr]
      exact setsize_too_large (by omega)

theorem noGroups_count : 0 = ([] : List UNDOGROUP).length + ([] : List UNDOGROUP).length := rfl

theorem oneMark_le : 1 ≤ RINGSIZE := by decide

/-- A buffer with some lines, whose addresses follow that of the header line, and
one window with the cursor and the mark at two places. -/
def Ed.holding (texts : List (List Byte)) (dot mark : POS) : Ed where
  line p := if p < 2 then lallocx [] else lallocx (texts.getD (p - 2) [])
  nextline := texts.length + 2
  b_linep := 1
  lines := List.range' 2 texts.length
  bfchg := false
  bfro := false
  b_fname := ""
  b_undo := ⟨[], [], 0, noGroups_count⟩
  curwp :=
    { w_linep := 1
      w_savep := null
      w_dot := dot
      w_ring := ⟨1, fun _ => mark, oneMark_le⟩ }
  others := []
  start := none
  undoing := false
  b_flag := false

theorem Ed.linked_holding {texts : List (List Byte)} {dot mark : POS}
    (hfits : ∀ s ∈ texts, unslen s ≤ INT_MAX) : Linked (Ed.holding texts dot mark) where
  nodup := List.nodup_range'
  header := by
    intro hmem
    have hle := List.mem_range'_1.mp hmem
    simp [Ed.holding] at hle
  nonnull := by
    intro hmem
    rcases List.mem_cons.mp hmem with heq | hmem
    · cases heq
    · have hle := List.mem_range'_1.mp hmem
      simp [null] at hle
  fits := by
    intro p
    have hnil : unslen [] ≤ INT_MAX := by decide
    show LINE.wllength (if p < 2 then lallocx [] else lallocx (texts.getD (p - 2) [])) ≤ INT_MAX
    split
    · exact hnil
    · show unslen (texts.getD (p - 2) []) ≤ INT_MAX
      rw [List.getD_eq_getElem?_getD]
      cases hget : texts[p - 2]? with
      | none => exact hnil
      | some s => exact hfits s (List.mem_of_getElem? hget)

/-- A line of `n` letters. -/
theorem unslen_letters (n : Nat) : unslen (List.replicate n 97) = n := by
  have hchar : IsUChar [97] := by decide
  have h := unslen_flatten (AllUChars.replicate hchar n)
  rwa [List.flatten_replicate_singleton, List.length_replicate] at h

/-- Two lines of `n` letters, with the mark at their end. -/
def letterLines (n : Nat) : Ed :=
  Ed.holding [List.replicate n 97, List.replicate n 97] ⟨2, 0⟩ ⟨3, n⟩

theorem linked_letters {n : Nat} (hn : n ≤ INT_MAX) : Linked (letterLines n) := by
  refine Ed.linked_holding fun s hs => ?_
  have heq : s = List.replicate n 97 := by simpa using hs
  rw [heq, unslen_letters]
  exact hn

theorem within_letters (n : Nat) :
    Within (letterLines n) (letterLines n).dot ∧ Within (letterLines n) (letterLines n).curwp.w_mark := by
  refine ⟨⟨.inl (by simp [letterLines, Ed.holding, Ed.dot]), Nat.zero_le _⟩,
    .inl (by simp [letterLines, Ed.holding, EWINDOW.w_mark]), ?_⟩
  show n ≤ unslen (List.replicate n 97)
  rw [unslen_letters]

theorem passed_letters (n : Nat) :
    (letterLines n).passed (letterLines n).dot = 0 ∧
      (letterLines n).passed (letterLines n).curwp.w_mark = 2 * n + 1 := by
  refine ⟨rfl, ?_⟩
  show unslen (List.replicate n 97) + 1 + 0 + n = 2 * n + 1
  rw [unslen_letters]
  omega

/-- The region of two short lines. -/
theorem getregion_measures_letters :
    getregion (letterLines 2) ⟨⟨null, 0⟩, 0⟩ = (⟨⟨2, 0⟩, 5⟩, none) := by
  obtain ⟨hdot, hmark⟩ := within_letters 2
  obtain ⟨hd, hm⟩ := passed_letters 2
  obtain ⟨a, b, hab, hord, hsmall, -⟩ :=
    getregion_measures (letterLines 2) ⟨⟨null, 0⟩, 0⟩ (linked_letters (by decide)) hdot hmark
  rcases hab with ⟨rfl, rfl⟩ | ⟨rfl, rfl⟩
  · rw [hd, hm] at hsmall
    exact hsmall (by decide)
  · have hle := Linked.passed_le hmark hord
    omega

/-- **A region of more than `INT_MAX` characters is refused**: two lines of
2³⁰ letters. -/
theorem large_region_refused :
    ¬ ∀ (e : Ed) (rp : REGION), Linked e → Within e e.dot → Within e e.curwp.w_mark →
      ∃ a b, (a = e.dot ∧ b = e.curwp.w_mark ∨ a = e.curwp.w_mark ∧ b = e.dot) ∧ e.inOrder a b ∧
        getregion e rp = (⟨a, (e.passed b - e.passed a : Nat)⟩, none) := by
  intro hall
  obtain ⟨hdot, hmark⟩ := within_letters (2 ^ 30)
  obtain ⟨hd, hm⟩ := passed_letters (2 ^ 30)
  have hl : Linked (letterLines (2 ^ 30)) := linked_letters (by decide)
  obtain ⟨_, _, _, _, hr⟩ := hall (letterLines (2 ^ 30)) ⟨⟨null, 0⟩, 0⟩ hl hdot hmark
  obtain ⟨a, b, hab, hord, hr'⟩ := getregion_spec (g := ⟨⟨null, 0⟩, 0⟩) hl hdot hmark (by decide)
  have hbig : (INT_MAX : Int) < (letterLines (2 ^ 30)).passed b - (letterLines (2 ^ 30)).passed a := by
    rcases hab with ⟨rfl, rfl⟩ | ⟨rfl, rfl⟩
    · rw [hd, hm]
      decide
    · have hle := Linked.passed_le hmark hord
      omega
  have hsome := (setsize_too_large (g := ⟨a, 0⟩) hbig).2
  rw [← hr', hr] at hsome
  cases hsome

end Emacs
