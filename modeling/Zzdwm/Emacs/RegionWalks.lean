import Zzdwm.Emacs.LineLoops

/-!
# Going over a region (`osc52.c`, `region.c`)

`region_size_bytes`, `copy_region_bytes` and `copyregion` go over a region in the same way:
stretch after stretch of a line, and the ends of the lines between them.  They take the bytes
of a stretch from memory, as many as its characters announce, so that a character that is cut
off at the end of a line makes them read on behind it.

* `walkRegion` — the loop;
* `LINE.overrun` — how far the last character of a line reaches beyond the line;
* `stretch_eq` — the bytes of a stretch, whatever they are;
* `walkRegion_eq` — **the loop** goes over the pieces of the region.
-/

namespace Emacs

section Source

variable (behind : LineId → Nat → Byte) (e : Ed)

/-- The memory from the first byte of a line on.  No character has more than six bytes, so
that nothing further is read. -/
def Ed.memory (p : LineId) : List Byte := (e.line p).l_text ++ (List.range 6).map (behind p)

/-- `wlgetcptr`: what can be read from a character on. -/
def Ed.wlgetcptr (p : LineId) (o : Nat) : List Byte :=
  (e.memory behind p).drop (uoffset (e.memory behind p) o)

variable {S : Type} (eol : S → S) (stretch : S → List Byte → Nat → S)

/-- The loop over a region, with what is done at the end of a line and with a stretch of one.
Every round passes at least one character. -/
def walkRegion : Nat → LineId → Nat → Nat → S → S
  | 0, _, _, _, s => s
  | f + 1, linep, offset, remaining, s =>
      if remaining > 0 then
        if offset = (e.line linep).wllength then
          walkRegion f (e.lforw linep) 0 (remaining - 1) (eol s)
        else
          let chunk := (e.line linep).wllength - offset
          let chunk := if chunk > remaining then remaining else chunk
          walkRegion f linep (offset + chunk) (remaining - chunk)
            (stretch s (e.wlgetcptr behind linep offset) chunk)
      else s

end Source

/-! ## Any bytes -/

/-- How far the last character of a line reaches beyond the line. -/
def LINE.overrun (l : LINE) : Nat := uoffset l.l_text l.wllength - l.l_used

variable {t b m : List Byte} {a k n : Nat}

theorem uclen_le (x : Byte) : uclen x ≤ 6 := by
  unfold uclen
  repeat' split
  all_goals decide

theorem unslenLoop_enough (f g : Nat) (hf : t.length ≤ f) (hg : t.length ≤ g) :
    unslenLoop f t = unslenLoop g t := by
  induction f generalizing t g with
  | zero =>
      obtain rfl : t = [] := List.length_eq_zero_iff.mp (Nat.le_zero.mp hf)
      cases g <;> rfl
  | succ f ih =>
      cases t with
      | nil => cases g <;> rfl
      | cons x t =>
          obtain ⟨g, rfl⟩ : ∃ j, g = j + 1 := ⟨g - 1, by rw [List.length_cons] at hg; omega⟩
          have hpos := uclen_pos x
          have hdrop : ((x :: t).drop (uclen x)).length ≤ t.length := by
            rw [List.length_drop, List.length_cons]
            omega
          rw [List.length_cons] at hf hg
          rw [unslenLoop, unslenLoop, ih g (by omega) (by omega)]

/-- Counting from the second character on. -/
theorem unslen_cons (x : Byte) (t : List Byte) :
    unslen (x :: t) = unslen ((x :: t).drop (uclen x)) + 1 := by
  have hpos := uclen_pos x
  have hdrop : ((x :: t).drop (uclen x)).length ≤ t.length := by
    rw [List.length_drop, List.length_cons]
    omega
  rw [unslen, List.length_cons, unslenLoop, unslen, unslenLoop_enough _ _ hdrop (Nat.le_refl _)]

theorem ucharsLoop_enough (f g : Nat) (hf : t.length ≤ f) (hg : t.length ≤ g) :
    ucharsLoop f t = ucharsLoop g t := by
  induction f generalizing t g with
  | zero =>
      obtain rfl : t = [] := List.length_eq_zero_iff.mp (Nat.le_zero.mp hf)
      cases g <;> rfl
  | succ f ih =>
      cases t with
      | nil => cases g <;> rfl
      | cons x t =>
          obtain ⟨g, rfl⟩ : ∃ j, g = j + 1 := ⟨g - 1, by rw [List.length_cons] at hg; omega⟩
          have hpos := uclen_pos x
          have hdrop : ((x :: t).drop (uclen x)).length ≤ t.length := by
            rw [List.length_drop, List.length_cons]
            omega
          rw [List.length_cons] at hf hg
          rw [ucharsLoop, ucharsLoop, ih g (by omega) (by omega)]

theorem uchars_cons (x : Byte) (t : List Byte) :
    uchars (x :: t) = (x :: t).take (uclen x) :: uchars ((x :: t).drop (uclen x)) := by
  have hpos := uclen_pos x
  have hdrop : ((x :: t).drop (uclen x)).length ≤ t.length := by
    rw [List.length_drop, List.length_cons]
    omega
  rw [uchars, List.length_cons, ucharsLoop, uchars, ucharsLoop_enough _ _ hdrop (Nat.le_refl _)]

theorem length_uchars (t : List Byte) : (uchars t).length = unslen t := by
  induction hn : t.length using Nat.strong_induction_on generalizing t with
  | _ n ih =>
    cases t with
    | nil => rfl
    | cons x t =>
        have hpos := uclen_pos x
        rw [List.length_cons] at hn
        rw [uchars_cons, unslen_cons, List.length_cons, ih _ _ _ rfl]
        rw [List.length_drop, List.length_cons]
        omega

/-- The bytes of the first characters. -/
theorem take_uchars (t : List Byte) (k : Nat) :
    ((uchars t).take k).flatten = t.take (uoffset t k) := by
  induction k generalizing t with
  | zero => rfl
  | succ k ih =>
      cases t with
      | nil => rfl
      | cons x t =>
          rw [uchars_cons, List.take_succ_cons, List.flatten_cons, ih, uoffset, List.take_add]

theorem uoffset_add (m : List Byte) (a k : Nat) :
    uoffset m (a + k) = uoffset m a + uoffset (m.drop (uoffset m a)) k := by
  induction a generalizing m with
  | zero =>
      rw [Nat.zero_add, uoffset, List.drop_zero, Nat.zero_add]
  | succ a ih =>
      rw [Nat.add_right_comm]
      cases m with
      | nil =>
          cases k <;> rfl
      | cons x m =>
          rw [uoffset, uoffset, ih, List.drop_drop, Nat.add_assoc]

theorem uoffset_append (hk : k ≤ unslen t) (b : List Byte) :
    uoffset (t ++ b) k = uoffset t k := by
  induction k generalizing t with
  | zero => rw [uoffset, uoffset]
  | succ k ih =>
      cases t with
      | nil => exact absurd hk (Nat.not_succ_le_zero k)
      | cons x t =>
          rw [unslen_cons] at hk
          rw [List.cons_append, uoffset, uoffset, ← List.cons_append]
          by_cases hle : uclen x ≤ (x :: t).length
          · rw [List.drop_append_of_le_length hle, ih (by omega)]
          · have hnil : (x :: t).drop (uclen x) = [] := List.drop_eq_nil_of_le (by omega)
            rw [hnil] at hk
            obtain rfl : k = 0 := Nat.le_zero.mp (Nat.succ_le_succ_iff.mp hk)
            rw [uoffset, uoffset]

theorem uoffset_lt (hk : k < unslen t) : uoffset t k < t.length := by
  induction k generalizing t with
  | zero =>
      cases t with
      | nil => exact absurd hk (Nat.lt_irrefl 0)
      | cons x t => exact Nat.succ_pos _
  | succ k ih =>
      cases t with
      | nil => exact absurd hk (Nat.not_lt_zero _)
      | cons x t =>
          rw [unslen_cons] at hk
          have hrest := ih (Nat.succ_lt_succ_iff.mp hk)
          rw [List.length_drop] at hrest
          rw [uoffset]
          omega

/-- The last character ends with the text, or behind it. -/
theorem uoffset_unslen (t : List Byte) :
    t.length ≤ uoffset t (unslen t) ∧ uoffset t (unslen t) ≤ t.length + 5 := by
  induction hn : t.length using Nat.strong_induction_on generalizing t with
  | _ n ih =>
    cases t with
    | nil => exact ⟨hn ▸ Nat.le_refl _, Nat.zero_le _⟩
    | cons x t =>
        have hpos := uclen_pos x
        have hle := uclen_le x
        have hdrop : ((x :: t).drop (uclen x)).length = n - uclen x := by rw [List.length_drop, hn]
        rw [List.length_cons] at hn
        rw [unslen_cons, uoffset]
        by_cases hwhole : uclen x ≤ n
        · obtain ⟨hge, hover⟩ := ih _ (by omega) ((x :: t).drop (uclen x)) hdrop
          omega
        · have hnil : (x :: t).drop (uclen x) = [] := List.length_eq_zero_iff.mp (by omega)
          rw [hnil]
          change n ≤ uclen x + 0 ∧ uclen x + 0 ≤ n + 5
          omega

/-- **The bytes of a stretch**, and of the memory behind the line if the stretch reaches to
the end of the line and the last character is cut off there. -/
theorem stretch_eq (ha : a < unslen t) (hk : a + k ≤ unslen t) (hb : 5 ≤ b.length) :
    let text := (t ++ b).drop (uoffset (t ++ b) a)
    text.take (unblen text k) = (((uchars t).drop a).take k).flatten ++
        (if a + k = unslen t then b.take (uoffset t (unslen t) - t.length) else []) ∧
      unblen text k = ((((uchars t).drop a).take k).flatten ++
        (if a + k = unslen t then b.take (uoffset t (unslen t) - t.length) else [])).length := by
  intro text
  have hlt := uoffset_lt ha
  obtain ⟨hge, hover⟩ := uoffset_unslen t
  have hsum := uoffset_add (t ++ b) a k
  rw [uoffset_append hk, uoffset_append (Nat.le_of_lt ha)] at hsum
  have htext : text = t.drop (uoffset t a) ++ b := by
    change (t ++ b).drop (uoffset (t ++ b) a) = _
    rw [uoffset_append (Nat.le_of_lt ha), List.drop_append_of_le_length hlt.le]
  have hunblen : uoffset text k = uoffset t (a + k) - uoffset t a := by
    change uoffset ((t ++ b).drop (uoffset (t ++ b) a)) k = _
    rw [uoffset_append (Nat.le_of_lt ha)]
    omega
  have hchars : (((uchars t).drop a).take k).flatten =
      (t.drop (uoffset t a)).take (uoffset t (a + k) - uoffset t a) := by
    have hall := take_uchars t (a + k)
    have hfront := take_uchars t a
    rw [List.take_add, List.flatten_append, hfront] at hall
    have hmono : uoffset t a ≤ uoffset t (a + k) := by rw [uoffset_add]; omega
    have hsplit : t.take (uoffset t (a + k)) =
        t.take (uoffset t a) ++ (t.drop (uoffset t a)).take (uoffset t (a + k) - uoffset t a) := by
      rw [← List.take_add, Nat.add_sub_cancel' hmono]
    rw [hsplit] at hall
    exact List.append_cancel_left hall
  have htake : text.take (unblen text k) = (((uchars t).drop a).take k).flatten ++
      (if a + k = unslen t then b.take (uoffset t (unslen t) - t.length) else []) := by
    rw [unblen, hunblen, htext, List.take_append, hchars, List.length_drop]
    congr 1
    split
    · rename_i hend
      rw [hend]
      congr 1
      omega
    · have hinside := uoffset_lt (t := t) (k := a + k) (by omega)
      have hzero : uoffset t (a + k) - uoffset t a - (t.length - uoffset t a) = 0 := by omega
      rw [hzero, List.take_zero]
  refine ⟨htake, ?_⟩
  rw [← htake, List.length_take, unblen, hunblen, htext, List.length_append, List.length_drop]
  by_cases hend : a + k = unslen t
  · rw [hend]
    omega
  · have hinside := uoffset_lt (t := t) (k := a + k) (by omega)
    omega

/-! ## The pieces of a region -/

/-- A piece of a region: the end of a line, or some characters of one. -/
inductive RegionPart
  | eol
  | line (p : LineId) (o k : Nat)
  deriving DecidableEq

section Spec

variable (behind : LineId → Nat → Byte) (e : Ed)

/-- The pieces of `n` characters, from an offset in the first of some lines on. -/
def Ed.pieces : List LineId → Nat → Nat → List RegionPart
  | [], _, _ => []
  | p :: ps, o, n =>
      let rest := (e.line p).wllength - o
      (if min rest n = 0 then [] else [.line p o (min rest n)]) ++
        if n ≤ rest then [] else .eol :: Ed.pieces ps 0 (n - rest - 1)

/-- The pieces of a region. -/
def Ed.regionPieces (region : REGION) : List RegionPart :=
  e.pieces (e.lines.dropWhile (· ≠ region.r_pos.p)) region.r_pos.o region.r_size.toNat

/-- The text of a region. -/
def Ed.textIn (region : REGION) : List UChar :=
  (e.setDot region.r_pos).after.take region.r_size.toNat

/-- The text of a piece. -/
def RegionPart.text : RegionPart → List UChar
  | eol => [nl]
  | line p o k => ((e.chars p).drop o).take k

/-- What the loops take for the bytes of a piece. -/
def RegionPart.bytes : RegionPart → List Byte
  | eol => [newline]
  | line p o k => (e.wlgetcptr behind p o).take (unblen (e.wlgetcptr behind p o) k)

/-- The last character of the piece is not cut off at the end of the line. -/
def RegionPart.Whole : RegionPart → Prop
  | eol => True
  | line p o k => o + k = (e.line p).wllength → (e.line p).overrun = 0

/-- The piece is a part of a line. -/
def RegionPart.InLine : RegionPart → Prop
  | eol => True
  | line p o k => o < (e.line p).wllength ∧ o + k ≤ (e.line p).wllength

instance (e : Ed) (x : RegionPart) : Decidable (x.Whole e) := by
  cases x
  · exact inferInstanceAs (Decidable True)
  · exact inferInstanceAs (Decidable (_ → _))

end Spec

section Pieces

variable {behind : LineId → Nat → Byte} {e : Ed} {as ps : List LineId} {o f : Nat} {S : Type}
  {eol : S → S} {stretch : S → List Byte → Nat → S} {region : REGION}

/-- A piece in the loop. -/
def RegionPart.act (behind : LineId → Nat → Byte) (e : Ed) (eol : S → S)
    (stretch : S → List Byte → Nat → S) (s : S) : RegionPart → S
  | .eol => eol s
  | line p o k => stretch s (e.wlgetcptr behind p o) k

theorem pieces_inLine (ps : List LineId) (o n : Nat) : ∀ x ∈ e.pieces ps o n, x.InLine e := by
  induction ps generalizing o n with
  | nil => exact fun x hx => absurd hx List.not_mem_nil
  | cons p ps ih =>
      intro x hx
      rw [Ed.pieces] at hx
      rcases List.mem_append.mp hx with hx | hx
      · split at hx
        · cases hx
        · rename_i hpos
          rw [List.mem_singleton.mp hx]
          exact ⟨by omega, by omega⟩
      · split at hx
        · cases hx
        · rcases List.mem_cons.mp hx with rfl | hx
          · trivial
          · exact ih _ _ x hx

/-- The lines of the pieces. -/
theorem pieces_mem (ps : List LineId) (o n : Nat) {p : LineId} {i k : Nat}
    (h : .line p i k ∈ e.pieces ps o n) : p ∈ ps := by
  induction ps generalizing o n with
  | nil => exact absurd h List.not_mem_nil
  | cons q ps ih =>
      rw [Ed.pieces] at h
      rcases List.mem_append.mp h with h | h
      · split at h
        · cases h
        · cases List.mem_singleton.mp h
          exact List.mem_cons_self
      · split at h
        · cases h
        · rcases List.mem_cons.mp h with h | h
          · cases h
          · exact List.mem_cons_of_mem _ (ih _ _ h)

/-- **The loop** goes over the pieces. -/
theorem walkRegion_eq (hnd : e.lines.Nodup) (hh : e.b_linep ∉ e.lines) (hl : e.lines = as ++ ps)
    (ho : ∀ p ∈ ps.head?, o ≤ (e.line p).wllength)
    (hn : n + o ≤ (ps.map fun p => (e.line p).wllength + 1).sum) (hf : n ≤ f) (s : S) :
    walkRegion behind e eol stretch f (ps.headD e.b_linep) o n s =
      (e.pieces ps o n).foldl (RegionPart.act behind e eol stretch) s := by
  induction f generalizing as ps o n s with
  | zero =>
      obtain rfl : n = 0 := Nat.le_zero.mp hf
      cases ps with
      | nil => rfl
      | cons p ps =>
          rw [walkRegion, Ed.pieces, if_pos (Nat.min_zero _), if_pos (Nat.zero_le _)]
          rfl
  | succ f ih =>
      rw [walkRegion]
      by_cases hzero : n = 0
      · subst hzero
        rw [if_neg (Nat.lt_irrefl 0)]
        cases ps with
        | nil => rfl
        | cons p ps =>
            rw [Ed.pieces, if_pos (Nat.min_zero _), if_pos (Nat.zero_le _)]
            rfl
      rw [if_pos (Nat.pos_of_ne_zero hzero)]
      cases ps with
      | nil =>
          rw [List.map_nil, List.sum_nil] at hn
          omega
      | cons p ps =>
          have hop := ho p rfl
          rw [List.map_cons, List.sum_cons] at hn
          rw [List.headD_cons]
          by_cases hend : o = (e.line p).wllength
          · -- the end of a line
            have hnext : e.lforw p = ps.headD e.b_linep := by
              have has : p ∉ as := by
                rw [hl] at hnd
                exact fun hmem => (List.nodup_append.mp hnd).2.2 p hmem p List.mem_cons_self rfl
              have hne : p ≠ e.b_linep := fun heq => hh (by rw [← heq, hl]; simp)
              change Circular.next e.b_linep e.lines p = _
              rw [hl, Circular.next_append has hne]
            have hpieces : e.pieces (p :: ps) o n = .eol :: e.pieces ps 0 (n - 1) := by
              rw [Ed.pieces]
              rw [hend, Nat.sub_self, Nat.zero_min, if_pos rfl, if_neg (by omega)]
              rfl
            rw [if_pos hend, hnext, hpieces, List.foldl_cons]
            refine @ih _ (as ++ [p]) ps 0 (by rw [hl]; simp) ?_ (by omega) (by omega) _
            exact fun q _ => Nat.zero_le _
          · -- a stretch of it
            rw [if_neg hend]
            dsimp only
            have hmin : (if (e.line p).wllength - o > n then n else (e.line p).wllength - o) =
                min ((e.line p).wllength - o) n := by
              split <;> omega
            rw [hmin]
            have hpieces : e.pieces (p :: ps) o n =
                .line p o (min ((e.line p).wllength - o) n) ::
                  e.pieces (p :: ps) (o + min ((e.line p).wllength - o) n)
                    (n - min ((e.line p).wllength - o) n) := by
              rw [Ed.pieces, Ed.pieces]
              by_cases hle : n ≤ (e.line p).wllength - o
              · have hrest : min ((e.line p).wllength - o) n = n := Nat.min_eq_right hle
                rw [hrest, Nat.sub_self, Nat.min_zero, if_neg hzero, if_pos hle, if_pos rfl,
                  if_pos (Nat.zero_le _)]
                rfl
              · have hrest : min ((e.line p).wllength - o) n = (e.line p).wllength - o :=
                  Nat.min_eq_left (by omega)
                have hnone : (e.line p).wllength - (o + ((e.line p).wllength - o)) = 0 := by omega
                rw [hrest, hnone, Nat.zero_min, if_neg (by omega), if_neg hle, if_pos rfl,
                  if_neg (by omega), Nat.sub_zero]
                rfl
            rw [hpieces, List.foldl_cons]
            refine ih (n := n - min ((e.line p).wllength - o) n)
              (o := o + min ((e.line p).wllength - o) n) hl ?_ ?_ (by omega) _
            · intro q hq
              obtain rfl := Option.some.inj hq
              omega
            · rw [List.map_cons, List.sum_cons]
              omega

/-- The text of the pieces, if that of those on the next lines is known. -/
theorem pieces_line (p : LineId) (qs : List LineId) (n : Nat)
    (hqs : (e.pieces qs 0 (n - ((e.line p).wllength - o) - 1)).flatMap (RegionPart.text e) =
      (qs.flatMap e.row).take (n - ((e.line p).wllength - o) - 1)) :
    (e.pieces (p :: qs) o n).flatMap (RegionPart.text e) =
      ((e.chars p).drop o ++ nl :: qs.flatMap e.row).take n := by
  have hlen : ((e.chars p).drop o).length = (e.line p).wllength - o := by
    rw [List.length_drop, Ed.chars, length_uchars]
    rfl
  have hpart : (if min ((e.line p).wllength - o) n = 0 then []
      else [RegionPart.line p o (min ((e.line p).wllength - o) n)]).flatMap (RegionPart.text e) =
      ((e.chars p).drop o).take n := by
    have htake : ((e.chars p).drop o).take (min ((e.line p).wllength - o) n) =
        ((e.chars p).drop o).take n := by
      rw [← hlen, Nat.min_comm, ← List.take_take, List.take_length]
    split
    · rename_i hzero
      rw [← htake, hzero]
      rfl
    · rw [List.flatMap_singleton]
      exact htake
  rw [Ed.pieces]
  rw [List.flatMap_append, hpart, List.take_append, hlen]
  refine congrArg _ ?_
  split
  · rename_i hle
    rw [Nat.sub_eq_zero_of_le hle, List.take_zero]
    rfl
  · rename_i hgt
    obtain ⟨k, hk⟩ : ∃ k, n - ((e.line p).wllength - o) = k + 1 :=
      ⟨n - ((e.line p).wllength - o) - 1, by omega⟩
    rw [hk, Nat.add_sub_cancel] at hqs ⊢
    rw [List.flatMap_cons, hqs, List.take_succ_cons]
    rfl

theorem pieces_text (p : LineId) (qs : List LineId) (n : Nat) (ho : o ≤ (e.line p).wllength) :
    (e.pieces (p :: qs) o n).flatMap (RegionPart.text e) =
      ((e.chars p).drop o ++ nl :: qs.flatMap e.row).take n := by
  induction qs generalizing p o n with
  | nil => exact pieces_line p [] n (by rw [List.flatMap_nil, List.take_nil, Ed.pieces]; rfl)
  | cons q qs ih =>
      refine pieces_line p _ n ?_
      have hrest := ih q (n - ((e.line p).wllength - o) - 1) (Nat.zero_le _)
      rw [hrest, List.drop_zero, List.flatMap_cons, Ed.row, List.append_assoc]
      rfl

/-- A region that is accepted consists of characters of the buffer. -/
structure Ed.Holds (e : Ed) (region : REGION) (as ps : List LineId) : Prop where
  lines : e.lines = as ++ ps
  from_ : e.lines.dropWhile (· ≠ region.r_pos.p) = ps
  head : ps.headD e.b_linep = region.r_pos.p
  offset : ∀ p ∈ ps.head?, region.r_pos.o ≤ (e.line p).wllength
  size : region.r_size.toNat + region.r_pos.o ≤ (ps.map fun p => (e.line p).wllength + 1).sum

theorem Linked.passed_le_sum (h : Linked e) (hempty : (e.line e.b_linep).l_text = []) {b : POS}
    (hb : Within e b) : e.passed b ≤ (e.lines.map fun p => (e.line p).wllength + 1).sum := by
  have hle := hb.2
  rcases hb.1 with hmem | hhead
  · obtain ⟨as, bs, hl, has, -⟩ := Circular.split_of_mem hmem h.nodup
    rw [Ed.passed, hl, Circular.before_append has, List.map_append, List.sum_append, List.map_cons,
      List.sum_cons]
    omega
  · have hzero : (e.line e.b_linep).wllength = 0 := by
      rw [LINE.wllength, hempty]
      rfl
    rw [hhead, hzero] at hle
    rw [Ed.passed, hhead, Circular.before_header h.header]
    omega

theorem holds_of_getregion (h : Linked e) (hempty : (e.line e.b_linep).l_text = [])
    (hdot : Within e e.dot) (hmark : Within e e.curwp.w_mark) {g : REGION}
    (hregion : getregion e g = (region, none)) : ∃ as ps, e.Holds region as ps := by
  obtain ⟨hpos, b, hb, hsize⟩ := getregion_ends h hdot hmark hregion
  have htotal := h.passed_le_sum hempty hb
  rcases hpos.1 with hmem | hhead
  · obtain ⟨as, bs, hl, has, -⟩ := Circular.split_of_mem hmem h.nodup
    refine ⟨as, region.r_pos.p :: bs, hl, ?_, rfl, fun p hp => ?_, ?_⟩
    · rw [hl, Circular.dropWhile_ne_append has]
    · obtain rfl := Option.some.inj hp
      exact hpos.2
    · have ho := hpos.2
      rw [Ed.passed, hl, Circular.before_append has] at hsize
      rw [hl, List.map_append, List.sum_append] at htotal
      rw [List.map_cons, List.sum_cons] at htotal ⊢
      omega
  · have hfrom : e.lines.dropWhile (· ≠ region.r_pos.p) = [] := by
      rw [List.dropWhile_eq_nil_iff]
      intro p hp
      refine decide_eq_true fun heq => h.header ?_
      rw [← hhead, ← heq]
      exact hp
    have ho := hpos.2
    have hzero : (e.line e.b_linep).wllength = 0 := by
      rw [LINE.wllength, hempty]
      rfl
    rw [hhead, hzero] at ho
    rw [Ed.passed, hhead, Circular.before_header h.header] at hsize
    refine ⟨e.lines, [], (List.append_nil _).symm, hfrom, hhead.symm, ?_, ?_⟩
    · exact fun p hp => by cases hp
    rw [List.map_nil, List.sum_nil]
    omega

/-- The text of the region, piece by piece. -/
theorem Ed.Holds.text (h : e.Holds region as ps) (hh : e.b_linep ∉ e.lines) :
    (e.regionPieces region).flatMap (RegionPart.text e) = e.textIn region := by
  have hhead := h.head
  have hdot : (e.setDot region.r_pos).dot = region.r_pos := rfl
  rw [Ed.regionPieces, Ed.textIn, h.from_]
  cases ps with
  | nil =>
      have hafter : (e.setDot region.r_pos).after = [] := if_pos hhead.symm
      rw [hafter, List.take_nil]
      rfl
  | cons p ps =>
      rw [List.headD_cons] at hhead
      subst hhead
      have hne : (e.setDot region.r_pos).dot.p ≠ (e.setDot region.r_pos).b_linep :=
        fun heq : region.r_pos.p = e.b_linep => hh (by rw [← heq, h.lines]; simp)
      have hafter : (e.setDot region.r_pos).after =
          (e.chars region.r_pos.p).drop region.r_pos.o ++ nl :: ps.flatMap e.row := by
        have hbelow : (e.setDot region.r_pos).below = ps := by
          change (e.lines.dropWhile (· ≠ region.r_pos.p)).tail = ps
          rw [h.from_, List.tail_cons]
        rw [Ed.after, if_neg hne, hbelow]
        rfl
      rw [pieces_text _ _ _ (h.offset _ rfl), hafter]

/-- The bytes of a piece, with those that are read behind the line. -/
theorem RegionPart.bytes_eq (behind : LineId → Nat → Byte) {x : RegionPart} (hx : x.InLine e) :
    ∃ extra, x.bytes behind e = (x.text e).flatten ++ extra ∧ (extra = [] ↔ x.Whole e) ∧
      ∀ p o k, x = line p o k →
        unblen (e.wlgetcptr behind p o) k = (x.bytes behind e).length := by
  cases x with
  | eol => exact ⟨[], rfl, iff_of_true rfl trivial, fun p o k h => nomatch h⟩
  | line p o k =>
      obtain ⟨ho, hk⟩ := hx
      have hlen : 5 ≤ ((List.range 6).map (behind p)).length := by
        rw [List.length_map, List.length_range]
        decide
      obtain ⟨htake, hsize⟩ := stretch_eq ho hk hlen
      refine ⟨_, htake, ?_, ?_⟩
      · have hover := (uoffset_unslen (e.line p).l_text).2
        have hspan : (e.line p).overrun =
            uoffset (e.line p).l_text (unslen (e.line p).l_text) - (e.line p).l_text.length := rfl
        change _ ↔ (o + k = unslen (e.line p).l_text → (e.line p).overrun = 0)
        rw [hspan]
        split
        · rename_i hend
          rw [List.take_eq_nil_iff, imp_iff_right hend]
          refine or_iff_left fun hnil => ?_
          rw [hnil] at hlen
          exact absurd hlen (by decide)
        · rename_i hend
          exact iff_of_true rfl fun heq => absurd heq hend
      · rintro _ _ _ ⟨⟩
        change _ = ((e.wlgetcptr behind p o).take (unblen (e.wlgetcptr behind p o) k)).length
        refine hsize.trans (congrArg List.length htake.symm)

/-- In a line of whole characters no character is cut off. -/
theorem RegionPart.whole_of_sound (h : Sound e) {x : RegionPart}
    (hx : ∀ p o k, x = line p o k → p ∈ e.lines) : x.Whole e ∧ AllUChars (x.text e) := by
  cases x with
  | eol =>
      refine ⟨trivial, fun c hc => ?_⟩
      rw [List.mem_singleton.mp hc]
      decide
  | line p o k =>
      obtain ⟨hin, htext⟩ := h.chars (hx p o k rfl)
      refine ⟨fun _ => ?_, fun c hc => ?_⟩
      · change uoffset (e.line p).l_text (unslen (e.line p).l_text) - (e.line p).l_text.length = 0
        rw [htext, unslen_flatten hin.whole, uoffset_flatten hin.whole, List.take_length,
          Nat.sub_self]
      · exact hin.whole c (List.mem_of_mem_drop (List.mem_of_mem_take hc))

/-- **The bytes of a region** are its text exactly if no piece ends with a character that is
cut off. -/
theorem bytes_eq_iff (behind : LineId → Nat → Byte) {xs : List RegionPart}
    (hxs : ∀ x ∈ xs, x.InLine e) :
    xs.flatMap (RegionPart.bytes behind e) = (xs.flatMap (RegionPart.text e)).flatten ↔
      ∀ x ∈ xs, x.Whole e := by
  have hlen : ∀ xs : List RegionPart, (∀ x ∈ xs, x.InLine e) →
      (xs.flatMap (RegionPart.text e)).flatten.length ≤
        (xs.flatMap (RegionPart.bytes behind e)).length := by
    intro xs hxs
    induction xs with
    | nil => exact Nat.le_refl _
    | cons x xs ih =>
        obtain ⟨extra, heq, -, -⟩ := RegionPart.bytes_eq behind (hxs x List.mem_cons_self)
        have hrest := ih fun y hy => hxs y (List.mem_cons_of_mem _ hy)
        rw [List.flatMap_cons, List.flatMap_cons, List.flatten_append, List.length_append,
          List.length_append, heq, List.length_append]
        omega
  induction xs with
  | nil => exact iff_of_true rfl fun x hx => nomatch hx
  | cons x xs ih =>
      obtain ⟨extra, heq, hwhole, -⟩ := RegionPart.bytes_eq behind (hxs x List.mem_cons_self)
      have hrest := fun y hy => hxs y (List.mem_cons_of_mem x hy)
      rw [List.forall_mem_cons, ← hwhole, List.flatMap_cons, List.flatMap_cons,
        List.flatten_append, heq, List.append_assoc, List.append_right_inj]
      refine Iff.trans ?_ (and_congr_right fun _ => ih hrest)
      constructor
      · intro hsame
        have hlens := congrArg List.length hsame
        rw [List.length_append] at hlens
        have hle := hlen xs hrest
        have hnil : extra = [] := List.length_eq_zero_iff.mp (by omega)
        rw [hnil] at hsame
        exact ⟨hnil, hsame⟩
      · rintro ⟨rfl, hsame⟩
        exact hsame

end Pieces

end Emacs
