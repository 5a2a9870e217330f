import Zzdwm.Emacs.Rectangle
import Zzdwm.Lib.Matching

/-!
# Searching forward (`search.c`, `cinfo.c`)

`forwsrch` tries the pattern at one character after the other, and goes on behind the
end of a line with the next one.  A newline in the pattern stands for the end of a line.

* `ceq` — which characters the search takes for equal;
* `Ed.forwsrch` — the search, with its walk over the bytes of the lines;
* `forwsrch_spec` — **the search finds the first match** after the cursor, and puts the
  cursor behind it.
-/

namespace Emacs

open Journal (Zipper)
open Matching

/-- The routines of `wctype.h`, with what is documented about them: `towupper` gives
an upper case letter, or the character itself. -/
structure Wctype where
  iswupper : Nat → Bool
  iswlower : Nat → Bool
  towupper : Nat → Nat
  range : ∀ c, c ≤ 0x7fffffff → towupper c ≤ 0x7fffffff
  letter : ∀ c, 0x80 ≤ c → towupper c ≠ 10

section Source

variable (w : Wctype) (casefold : Bool)

/-- `AISUPPER`. -/
def aisupper (c : Nat) : Bool := 0x41 ≤ c && c ≤ 0x5a

/-- `AISLOWER`. -/
def aislower (c : Nat) : Bool := 0x61 ≤ c && c ≤ 0x7a

/-- `upmap`, as `upmapinit` fills it in. -/
def upmap (c : Nat) : Nat := if aislower c && casefold then c - 0x20 else c

/-- `ceq`. -/
def ceq (c1 c2 : Nat) : Bool :=
  if c1 < 0x80 ∧ c2 < 0x80 then upmap casefold c1 = upmap casefold c2
  else if casefold then w.towupper c1 = w.towupper c2
  else c1 = c2

/-- The loop of `unicodepat`; every round passes at least one byte. -/
def ucodesLoop : Nat → List Byte → List Nat
  | 0, _ => []
  | _ + 1, [] => []
  | f + 1, s => (ugetc s).1 :: ucodesLoop f (s.drop (ugetc s).2)

/-- `unicodepat`: the characters of a string. -/
def ucodes (s : List Byte) : List Nat := ucodesLoop s.length s

/-- How the loop over the rest of the pattern in `forwsrch` ends. -/
inductive Probe
  | found (pos : POS)
  | fail
  | stop

/-- What the search does then, with `next` as the result of going on. -/
def Probe.result (next : Option POS) : Probe → Option POS
  | .found pos => some pos
  | .fail => next
  | .stop => none

/-- The loop over the rest of the pattern: at a line, the number of characters passed
there, and the bytes that are left of it. -/
def matchRest (e : Ed) : List Nat → LineId → Nat → List Byte → Probe
  | [], tlp, tbo, _ => .found ⟨tlp, tbo⟩
  | p :: ps, tlp, tbo, tptr =>
      if tptr = [] then
        let tlp := e.lforw tlp
        if tlp = e.b_linep then .stop
        else if p ≠ 10 then .fail
        else matchRest e ps tlp 0 (e.line tlp).l_text
      else if ceq w casefold (ugetc tptr).1 p then
        matchRest e ps tlp (tbo + 1) (tptr.drop (ugetc tptr).2)
      else .fail

/-- The outer loop, for the pattern `p :: ps`. -/
def forwsrchLoop (e : Ed) (p : Nat) (ps : List Nat) : Nat → LineId → Nat → List Byte → Option POS
  | 0, _, _, _ => none
  | f + 1, clp, cbo, cptr =>
      if cptr = [] then
        let clp := e.lforw clp
        if clp = e.b_linep then none
        else
          let cptr := (e.line clp).l_text
          if p ≠ 10 then forwsrchLoop e p ps f clp 0 cptr
          else (matchRest w casefold e ps clp 0 cptr).result (forwsrchLoop e p ps f clp 0 cptr)
      else
        let uc := (ugetc cptr).1
        let cptr := cptr.drop (ugetc cptr).2
        if ceq w casefold uc p then
          (matchRest w casefold e ps clp (cbo + 1) cptr).result (forwsrchLoop e p ps f clp (cbo + 1) cptr)
        else forwsrchLoop e p ps f clp (cbo + 1) cptr

/-- `forwsrch`: where the cursor is put, if there is a match.  Every round passes a
character. -/
def Ed.forwsrch (e : Ed) (upat : List Nat) : Option POS :=
  match upat with
  | [] => none
  | p :: ps =>
      if e.dot.p = e.b_linep then none
      else
        let l := (e.line e.dot.p).l_text
        forwsrchLoop w casefold e p ps (e.symbols.length + 1) e.dot.p e.dot.o
          (l.drop (uoffset l e.dot.o))

end Source

/-! ## The text that is searched -/

/-- Does a character of the text match one of the pattern? -/
def same (w : Wctype) (casefold : Bool) (c : UChar) (p : Nat) : Bool :=
  if c = nl then p = 10 else ceq w casefold (code c) p

/-- The rest of a line and the lines below it, without the last newline. -/
def Ed.tail (e : Ed) (cs : List UChar) (bs : List LineId) : List UChar :=
  cs ++ bs.flatMap fun p => nl :: e.chars p

variable {w : Wctype} {casefold : Bool} {e : Ed} {z : Zipper UChar} {as bs : List LineId}
  {lp : LineId} {cs : List UChar} {p : Nat} {ps : List Nat} {o f : Nat}

theorem tail_cons (e : Ed) (q : LineId) (bs : List LineId) :
    e.tail [] (q :: bs) = nl :: e.tail (e.chars q) bs := rfl

theorem tail_snoc (e : Ed) (cs : List UChar) (bs : List LineId) :
    e.tail cs bs ++ [nl] = cs ++ nl :: bs.flatMap e.row := by
  induction bs generalizing cs with
  | nil => simp [Ed.tail]
  | cons q bs ih =>
      have hq := ih (e.chars q)
      simp only [Ed.tail, List.flatMap_cons, List.append_assoc, List.cons_append] at hq ⊢
      rw [hq, Ed.row, List.append_assoc, List.singleton_append]

theorem ucodes_flatten (hcs : AllUChars cs) : ucodes cs.flatten = cs.map code := by
  have hloop : ∀ f, cs.flatten.length ≤ f → ucodesLoop f cs.flatten = cs.map code := by
    induction cs with
    | nil => intro f _; cases f <;> rfl
    | cons c cs ih =>
        intro f hf
        have hc := hcs c List.mem_cons_self
        have hpos := List.length_pos_iff.mpr hc.ne_nil
        rw [List.flatten_cons, List.length_append] at hf
        obtain ⟨f, rfl⟩ : ∃ k, f = k + 1 := ⟨f - 1, by omega⟩
        have hget := ugetc_append hc cs.flatten
        have hrest := ih (fun d hd => hcs d (List.mem_cons_of_mem _ hd)) f (by omega)
        cases c with
        | nil => exact absurd rfl hc.ne_nil
        | cons b t =>
            change ucodesLoop (f + 1) (b :: (t ++ cs.flatten)) = _
            rw [ucodesLoop]
            · change ugetc (b :: (t ++ cs.flatten)) = _ at hget
              rw [hget, List.map_cons, ← hrest, ← List.cons_append, List.drop_left]
            · intro hnil
              cases hnil
  exact hloop _ (Nat.le_refl _)

/-- The line after a line. -/
theorem Sound.lforw_of (h : Sound e) (hl : e.lines = as ++ lp :: bs) :
    e.lforw lp = bs.headD e.b_linep := by
  obtain ⟨has, -, -⟩ := h.around hl
  have hne : lp ≠ e.b_linep := fun heq => h.header (by rw [← heq, hl]; simp)
  change Circular.next e.b_linep e.lines lp = _
  rw [hl, Circular.next_append has hne]

/-- The letters of ASCII only. -/
def asciiLetters : Wctype where
  iswupper := aisupper
  iswlower := aislower
  towupper := id
  range _ hc := hc
  letter c hc := by
    change c ≠ 10
    omega

/-! ## Places in the text -/

section Numbers

variable {l x : List UChar} {a : POS}

/-- So many characters are in front of the cursor. -/
theorem Shows.passed (h : Shows e ⟨l, x⟩) : l.length = e.passed e.dot := by
  obtain ⟨as, bs, hl, hz⟩ := h.split
  obtain ⟨has, -, -⟩ := h.sound.around hl
  rw [Zipper.mk.injEq] at hz
  have hbefore : Circular.before (fun p => (e.line p).wllength + 1) e.lines e.dot.p =
      (as.flatMap e.row).length := by
    rw [hl, Circular.before_append has, List.length_flatMap]
    refine congrArg List.sum (List.map_congr_left fun p hp => ?_)
    have hp : p ∈ e.lines := by rw [hl]; simp [hp]
    rw [wllength_eq e p (h.sound.inline p hp), Ed.row, List.length_append, List.length_singleton]
  rw [hz.1, Ed.passed, hbefore, List.length_append, List.length_take, Nat.min_eq_left h.offset]

/-- The text around a position. -/
theorem Sound.shows_within (h : Sound e) (ha : Within e a) (hmem : a.p ∈ e.lines) :
    Shows (e.setDot a) ⟨e.symbols.take (e.passed a), e.symbols.drop (e.passed a)⟩ := by
  obtain ⟨as, bs, hl⟩ := List.append_of_mem hmem
  have ho : a.o ≤ (e.chars a.p).length := ha.2.trans (wllength_eq e a.p (h.inline _ hmem)).le
  have hat : Shows (e.setDot a) _ := h.shows_at hl ho
  have hlen : _ = e.passed a := hat.passed
  have htext : _ = e.symbols := hat.text
  rw [Zipper.text] at htext
  dsimp only at htext
  rw [← hlen, ← htext, List.take_left, List.drop_left]
  exact hat

theorem Sound.passed_lt (h : Sound e) (ha : Within e a) (hmem : a.p ∈ e.lines) :
    e.passed a < e.symbols.length := by
  have hne := (h.shows_within ha hmem).right_ne
  by_contra hge
  exact hne (List.drop_eq_nil_of_le (Nat.not_lt.mp hge))

/-- The header line comes after the whole text. -/
theorem Sound.passed_header (h : Sound e) (ha : Within e a) (hhead : a.p ∉ e.lines) :
    a.p = e.b_linep ∧ e.passed a = e.symbols.length := by
  have heq := ha.1.resolve_left hhead
  have hzero : (e.line a.p).wllength = 0 := by
    rw [heq, LINE.wllength, h.empty]
    rfl
  have ho := ha.2
  have hall : Circular.before (fun p => (e.line p).wllength + 1) e.lines a.p = e.symbols.length := by
    rw [heq, Circular.before_header h.header, Ed.symbols, List.length_flatMap]
    refine congrArg List.sum (List.map_congr_left fun p hp => ?_)
    rw [wllength_eq e p (h.inline p hp), Ed.row, List.length_append, List.length_singleton]
  refine ⟨heq, ?_⟩
  rw [Ed.passed, hall]
  omega

end Numbers

/-! ## What a search finds -/

section Places

variable (eq : UChar → Nat → Bool) (Place : List UChar → List UChar → POS → Prop)

/-- What a loop over the rest of the pattern tells: `l` has been passed, and `t` is still
to come.  `Place` says which position divides the text so. -/
def Probe.TellsAt (l t : List UChar) (ps : List Nat) : Probe → Prop
  | .found pos => heads eq ps t = true ∧ Place (l ++ t.take ps.length) (t.drop ps.length) pos
  | .fail => heads eq ps t = false
  | .stop => t.length < ps.length

/-- A search finds the first match in `t`, after `l`. -/
def FindsAt (upat : List Nat) (l t : List UChar) (res : Option POS) : Prop :=
  match firstMatch eq upat t with
  | none => res = none
  | some (b, r) =>
      ∃ pos, res = some pos ∧ Place (l ++ b ++ r.take upat.length) (r.drop upat.length) pos

variable {eq Place} {l t : List UChar} {c : UChar} {ps upat : List Nat} {p : Nat} {r : Probe}
  {res : Option POS}

/-- One more character in front. -/
theorem Probe.TellsAt.cons (h : r.TellsAt eq Place (l ++ [c]) t ps) (hc : eq c p = true) :
    r.TellsAt eq Place l (c :: t) (p :: ps) := by
  cases r with
  | found pos =>
      obtain ⟨hheads, hplace⟩ := h
      rw [List.append_assoc, List.singleton_append] at hplace
      exact ⟨by rw [heads, hc, hheads]; rfl, hplace⟩
  | fail =>
      change heads _ _ _ = false at h
      change heads _ (p :: ps) (c :: t) = false
      rw [heads, h, Bool.and_false]
  | stop => exact Nat.succ_lt_succ h

/-- Where the pattern does not stand, the search goes on with the next character. -/
theorem FindsAt.skip (h : FindsAt eq Place upat (l ++ [c]) t res)
    (hc : heads eq upat (c :: t) = false) : FindsAt eq Place upat l (c :: t) res := by
  unfold FindsAt at h ⊢
  rw [firstMatch, hc, if_neg Bool.false_ne_true]
  cases hfirst : firstMatch eq upat t with
  | none =>
      rw [hfirst] at h
      exact h
  | some r =>
      rw [hfirst] at h
      obtain ⟨b, r⟩ := r
      dsimp only at h
      rw [List.append_assoc l, List.singleton_append] at h
      exact h

/-- Nothing is found in a text that is too short. -/
theorem findsAt_short (h : t.length < upat.length) : FindsAt eq Place upat l t none := by
  unfold FindsAt
  rw [first_of_short h]

/-- The search stops where the rest of the pattern has been found, and where the text
has come to its end. -/
theorem Probe.TellsAt.finds (h : r.TellsAt eq Place l t upat) (hne : t ≠ [])
    (hfail : heads eq upat t = false → FindsAt eq Place upat l t res) :
    FindsAt eq Place upat l t (r.result res) := by
  cases r with
  | found pos =>
      obtain ⟨hheads, hplace⟩ := h
      unfold FindsAt
      cases t with
      | nil => exact absurd rfl hne
      | cons c t =>
          rw [firstMatch, if_pos hheads]
          exact ⟨pos, rfl, by rw [List.append_nil]; exact hplace⟩
  | fail => exact hfail h
  | stop => exact findsAt_short h

end Places

/-! ## Searching forward -/

/-- What the loop over the rest of the pattern tells, with the text `l` in front of it
and the text `t` after it. -/
def Probe.Tells (w : Wctype) (casefold : Bool) (e : Ed) (l t : List UChar) (ps : List Nat) :
    Probe → Prop
  | .found pos => heads (same w casefold) ps t = true ∧
      Shows (e.setDot pos) ⟨l ++ t.take ps.length, t.drop ps.length ++ [nl]⟩
  | .fail => heads (same w casefold) ps t = false
  | .stop => t.length < ps.length

/-- The place between two texts, up to the newline at the end of the last line. -/
def Between (e : Ed) (l t : List UChar) (pos : POS) : Prop := Shows (e.setDot pos) ⟨l, t ++ [nl]⟩

theorem Probe.Tells.at {r : Probe} {l t : List UChar} :
    r.Tells w casefold e l t ps ↔ r.TellsAt (same w casefold) (Between e) l t ps := by
  cases r <;> rfl

/-- One more character in front. -/
theorem Probe.Tells.cons {r : Probe} {l t : List UChar} {c : UChar}
    (h : r.Tells w casefold e (l ++ [c]) t ps) (hc : same w casefold c p = true) :
    r.Tells w casefold e l (c :: t) (p :: ps) :=
  Probe.Tells.at.mpr ((Probe.Tells.at.mp h).cons hc)

variable (w casefold) in
/-- **The loop over the rest of the pattern.** -/
theorem matchRest_spec (ps : List Nat) (h : Sound e) {ds : List UChar} (hl : e.lines = as ++ lp :: bs)
    (hcs : e.chars lp = ds ++ cs) :
    (matchRest w casefold e ps lp ds.length cs.flatten).Tells w casefold e
      (as.flatMap e.row ++ ds) (e.tail cs bs) ps := by
  have hin : Inline (e.chars lp) := (h.chars (by rw [hl]; simp)).1
  induction ps generalizing as lp bs ds cs with
  | nil =>
      have hat := h.shows_at hl (o := ds.length) (by rw [hcs, List.length_append]; omega)
      rw [hcs, List.take_left, List.drop_left, ← tail_snoc] at hat
      refine ⟨rfl, ?_⟩
      rw [List.length_nil, List.take_zero, List.append_nil, List.drop_zero]
      exact hat
  | cons p ps ih =>
      cases cs with
      | nil =>
          -- at the end of the line
          rw [matchRest, List.flatten_nil, if_pos rfl, h.lforw_of hl]
          dsimp only
          cases bs with
          | nil =>
              rw [List.headD_nil, if_pos rfl]
              exact Nat.succ_pos _
          | cons q bs =>
              have hl' : e.lines = (as ++ [lp]) ++ q :: bs := by rw [hl]; simp
              have hq : q ∈ e.lines := by rw [hl]; simp
              have hne : q ≠ e.b_linep := fun heq => h.header (heq ▸ hq)
              rw [List.headD_cons, if_neg hne, tail_cons]
              split
              · rename_i hp
                change heads (same w casefold) (p :: ps) (nl :: _) = false
                rw [heads, same, if_pos rfl, decide_eq_false hp, Bool.false_and]
              · rename_i hp
                have hrow : (as ++ [lp]).flatMap e.row ++ [] = as.flatMap e.row ++ ds ++ [nl] := by
                  rw [List.flatMap_append, List.flatMap_singleton, Ed.row, hcs]
                  simp
                have hnext := @ih _ _ _ _ [] hl' rfl (h.chars hq).1
                rw [hrow] at hnext
                rw [(h.chars hq).2]
                exact hnext.cons (by rw [same, if_pos rfl]; exact decide_eq_true (not_not.mp hp))
      | cons c cs =>
          have hc : IsUChar c := hin.whole c (by rw [hcs]; simp)
          have hnl : c ≠ nl := fun heq => hin.noBreak (by rw [hcs, heq]; simp)
          have hget := ugetc_append hc cs.flatten
          have hne : (c :: cs).flatten ≠ [] := fun hnil =>
            hc.ne_nil (List.append_eq_nil_iff.mp hnil).1
          have hsame : same w casefold c p = ceq w casefold (code c) p := by rw [same, if_neg hnl]
          rw [matchRest, if_neg hne]
          rw [List.flatten_cons, hget, List.drop_left]
          split
          · rename_i hceq
            have hnext := @ih _ _ _ cs (ds ++ [c]) hl (by rw [hcs]; simp) hin
            rw [List.length_append, List.length_singleton, ← List.append_assoc] at hnext
            exact hnext.cons (hsame.trans hceq)
          · rename_i hceq
            change heads (same w casefold) (p :: ps) (c :: _) = false
            rw [heads, hsame, Bool.eq_false_iff.mpr hceq, Bool.false_and]

/-- The search finds the first match in the text `t`, with the text `l` in front of it. -/
def Finds (w : Wctype) (casefold : Bool) (e : Ed) (upat : List Nat) (l t : List UChar)
    (res : Option POS) : Prop :=
  match firstMatch (same w casefold) upat t with
  | none => res = none
  | some (b, r) => ∃ pos, res = some pos ∧
      Shows (e.setDot pos) ⟨l ++ b ++ r.take upat.length, r.drop upat.length ++ [nl]⟩

theorem finds_at {upat : List Nat} {l t : List UChar} {res : Option POS} :
    Finds w casefold e upat l t res ↔ FindsAt (same w casefold) (Between e) upat l t res := Iff.rfl

/-- Where the pattern does not stand, the search goes on with the next character. -/
theorem Finds.skip {upat : List Nat} {l t : List UChar} {c : UChar} {res : Option POS}
    (h : Finds w casefold e upat (l ++ [c]) t res)
    (hc : heads (same w casefold) upat (c :: t) = false) :
    Finds w casefold e upat l (c :: t) res :=
  finds_at.mpr ((finds_at.mp h).skip hc)

/-- Nothing is found in a text that is too short. -/
theorem finds_short {upat : List Nat} {l t : List UChar} (h : t.length < upat.length) :
    Finds w casefold e upat l t none :=
  finds_at.mpr (findsAt_short h)

/-- The search stops where the rest of the pattern has been found, and where the text
has come to its end. -/
theorem Probe.Tells.finds {upat : List Nat} {r : Probe} {l t : List UChar} {res : Option POS}
    (h : r.Tells w casefold e l t upat) (hne : t ≠ [])
    (hfail : heads (same w casefold) upat t = false → Finds w casefold e upat l t res) :
    Finds w casefold e upat l t (r.result res) :=
  finds_at.mpr ((Probe.Tells.at.mp h).finds hne hfail)

variable (w casefold) in
/-- **The loop of the search.** -/
theorem forwsrchLoop_spec (p : Nat) (ps : List Nat) (h : Sound e) {ds : List UChar} (hl : e.lines = as ++ lp :: bs)
    (hcs : e.chars lp = ds ++ cs) (hf : (e.tail cs bs).length < f) :
    Finds w casefold e (p :: ps) (as.flatMap e.row ++ ds) (e.tail cs bs)
      (forwsrchLoop w casefold e p ps f lp ds.length cs.flatten) := by
  have hin : Inline (e.chars lp) := (h.chars (by rw [hl]; simp)).1
  induction f generalizing as lp bs ds cs with
  | zero => exact absurd hf (Nat.not_lt_zero _)
  | succ f ih =>
      cases cs with
      | nil =>
          rw [forwsrchLoop, List.flatten_nil, if_pos rfl, h.lforw_of hl]
          dsimp only
          cases bs with
          | nil =>
              rw [List.headD_nil, if_pos rfl]
              exact finds_short (Nat.succ_pos _)
          | cons q bs =>
              have hl' : e.lines = (as ++ [lp]) ++ q :: bs := by rw [hl]; simp
              have hq : q ∈ e.lines := by rw [hl]; simp
              have hne : q ≠ e.b_linep := fun heq => h.header (heq ▸ hq)
              have hrow : (as ++ [lp]).flatMap e.row ++ [] = as.flatMap e.row ++ ds ++ [nl] := by
                rw [List.flatMap_append, List.flatMap_singleton, Ed.row, hcs]
                simp
              rw [tail_cons] at hf ⊢
              have hnext := @ih _ _ _ _ [] hl' rfl (Nat.lt_of_succ_lt_succ hf) (h.chars hq).1
              rw [hrow] at hnext
              rw [List.headD_cons, if_neg hne, (h.chars hq).2]
              split
              · rename_i hp
                refine hnext.skip ?_
                rw [heads, same, if_pos rfl, decide_eq_false hp, Bool.false_and]
              · rename_i hp
                have htells := @matchRest_spec w casefold e _ _ _ _ ps h [] hl' rfl
                rw [hrow] at htells
                have hfront := htells.cons (p := p) (by
                  rw [same, if_pos rfl]
                  exact decide_eq_true (not_not.mp hp))
                exact hfront.finds (List.cons_ne_nil _ _) hnext.skip
      | cons c cs =>
          have hc : IsUChar c := hin.whole c (by rw [hcs]; simp)
          have hnl : c ≠ nl := fun heq => hin.noBreak (by rw [hcs, heq]; simp)
          have hget := ugetc_append hc cs.flatten
          have hne : (c :: cs).flatten ≠ [] := fun hnil =>
            hc.ne_nil (List.append_eq_nil_iff.mp hnil).1
          have hsame : same w casefold c p = ceq w casefold (code c) p := by rw [same, if_neg hnl]
          have hcs' : e.chars lp = (ds ++ [c]) ++ cs := by rw [hcs]; simp
          have hnext := ih hl hcs' (Nat.lt_of_succ_lt_succ hf) hin
          rw [List.length_append, List.length_singleton, ← List.append_assoc] at hnext
          rw [forwsrchLoop, if_neg hne]
          rw [List.flatten_cons, hget, List.drop_left]
          dsimp only
          split
          · rename_i hceq
            have htells := matchRest_spec w casefold ps h hl hcs'
            rw [List.length_append, List.length_singleton, ← List.append_assoc] at htells
            have hfront := htells.cons (hsame.trans hceq)
            exact hfront.finds (List.cons_ne_nil _ _) hnext.skip
          · rename_i hceq
            refine hnext.skip ?_
            rw [heads, hsame, Bool.eq_false_iff.mpr hceq, Bool.false_and]

/-- **`forwsrch`** finds the first match after the cursor. -/
theorem forwsrch_spec (h : Shows e z) (upat : List Nat) (hne : upat ≠ []) :
    ∃ t, z.right = t ++ [nl] ∧ Finds w casefold e upat z.left t (e.forwsrch w casefold upat) := by
  obtain ⟨-, hdrop⟩ := h.cut
  obtain ⟨as, bs, hl, hz⟩ := h.split
  have htail := tail_snoc e ((e.chars e.dot.p).drop e.dot.o) bs
  have hright : z.right = e.tail ((e.chars e.dot.p).drop e.dot.o) bs ++ [nl] := by
    rw [htail, hz]
  refine ⟨_, hright, ?_⟩
  obtain ⟨p, ps, rfl⟩ := List.exists_cons_of_ne_nil hne
  have hlen : ((e.chars e.dot.p).take e.dot.o).length = e.dot.o := by
    rw [List.length_take, Nat.min_eq_left h.offset]
  have hsize : (e.tail ((e.chars e.dot.p).drop e.dot.o) bs).length < e.symbols.length + 1 := by
    rw [← h.text, Zipper.text, List.length_append, hright, List.length_append, List.length_singleton]
    omega
  have hloop := forwsrchLoop_spec w casefold p ps h.sound hl
    (List.take_append_drop e.dot.o (e.chars e.dot.p)).symm hsize
  rw [hlen, ← hdrop] at hloop
  rw [Ed.forwsrch, if_neg h.ne_header, hz]
  exact hloop

end Emacs
