import Zzdwm.Emacs.Search
import Zzdwm.Lib.Utf8

/-!
# Searching backward (`search.c`, `utf8.c`)

`backsrch` is the mirror image of the search forward: it goes back over the characters,
and over the ends of the lines, and compares the pattern from its end on.

* `ugetprevc` — the character in front of a place in a line;
* `Ed.backsrch` — the search, with its walk over the bytes of the lines;
* `backsrch_spec` — **the search finds the last match** in front of the cursor, and puts
  the cursor there;
* `searches_find` — both searches, by the places of the matches in the text.
-/

namespace Emacs

open Journal (Zipper)
open Matching

section Source

variable (w : Wctype) (casefold : Bool)

/-- The loop of `ugetprevc`: where the character in front of a place begins. -/
def prevStart (s : List Byte) : Nat → Nat
  | 0 => 0
  | i + 1 => if Utf8.continues (s.getD i 0) then prevStart s i else i

/-- `ugetprevc`: the character, and its length. -/
def ugetprevc (s : List Byte) (i : Nat) : Nat × Nat := ugetc (s.drop (prevStart s i))

/-- The loop over the rest of the pattern in `backsrch`, with the pattern from its end on:
at a line, the number of characters in front, and the number of their bytes. -/
def matchBack (e : Ed) : List Nat → LineId → Nat → Nat → Probe
  | [], tlp, tbo, _ => .found ⟨tlp, tbo⟩
  | p :: ps, tlp, tbo, tptr =>
      if tbo = 0 then
        let tlp := e.lback tlp
        if tlp = e.b_linep then .stop
        else if p ≠ 10 then .fail
        else matchBack e ps tlp (e.line tlp).wllength (e.line tlp).l_text.length
      else
        let (uc, ulen) := ugetprevc (e.line tlp).l_text tptr
        if ceq w casefold uc p then matchBack e ps tlp (tbo - 1) (tptr - ulen) else .fail

/-- The outer loop, for a pattern that ends in `p`, with `ps` in front of it from its end
on. -/
def backsrchLoop (e : Ed) (p : Nat) (ps : List Nat) : Nat → LineId → Nat → Nat → Option POS
  | 0, _, _, _ => none
  | f + 1, clp, cbo, cptr =>
      if cbo = 0 then
        let clp := e.lback clp
        if clp = e.b_linep then none
        else
          let cbo := (e.line clp).wllength
          let cptr := uoffset (e.line clp).l_text cbo
          if p ≠ 10 then backsrchLoop e p ps f clp cbo cptr
          else (matchBack w casefold e ps clp cbo cptr).result (backsrchLoop e p ps f clp cbo cptr)
      else
        let (uc, ulen) := ugetprevc (e.line clp).l_text cptr
        let cptr := cptr - ulen
        let cbo := cbo - 1
        if ceq w casefold uc p then
          (matchBack w casefold e ps clp cbo cptr).result (backsrchLoop e p ps f clp cbo cptr)
        else backsrchLoop e p ps f clp cbo cptr

/-- `backsrch`: where the cursor is put, if there is a match.  Every round passes a
character. -/
def Ed.backsrch (e : Ed) (upat : List Nat) : Option POS :=
  match upat.reverse with
  | [] => none
  | p :: ps =>
      backsrchLoop w casefold e p ps (e.symbols.length + 1) e.dot.p e.dot.o
        (uoffset (e.line e.dot.p).l_text e.dot.o)

end Source

/-! ## The character in front -/

/-- A character whose bytes tell where it begins. -/
def Marked (c : UChar) : Prop :=
  ∃ b t, c = b :: t ∧ Utf8.continues b = false ∧ ∀ x ∈ t, Utf8.continues x = true

theorem marked_iff : ∀ c : UChar, Marked c ↔ c ≠ [] ∧ Utf8.continues (c.headD 0) = false ∧
    ∀ x ∈ c.tail, Utf8.continues x = true
  | [] => iff_of_false (fun ⟨_, _, h, _⟩ => List.cons_ne_nil _ _ h.symm) fun h => h.1 rfl
  | b :: t => by
      constructor
      · rintro ⟨b', t', h, hb, ht⟩
        cases h
        exact ⟨List.cons_ne_nil _ _, hb, ht⟩
      · rintro ⟨-, hb, ht⟩
        exact ⟨b, t, rfl, hb, ht⟩

instance : DecidablePred Marked := fun c => decidable_of_iff' _ (marked_iff c)

/-- The bytes of all characters tell where these begin, as in UTF-8. -/
def Ed.AllMarked (e : Ed) : Prop := ∀ p ∈ e.lines, ∀ c ∈ e.chars p, Marked c

variable {w : Wctype} {casefold : Bool} {e : Ed} {as bs : List LineId} {lp : LineId}
  {cs ds : List UChar} {p : Nat} {ps : List Nat} {l x : List UChar} {c : UChar}

theorem prevStart_trail (s t u : List Byte) (ht : ∀ x ∈ t, Utf8.continues x = true) :
    prevStart (s ++ t ++ u) (s.length + t.length) = prevStart (s ++ t ++ u) s.length := by
  induction t using List.reverseRecOn generalizing u with
  | nil => rfl
  | append_singleton t b ih =>
      have hb : Utf8.continues b = true := ht b (by simp)
      have hget : (s ++ (t ++ [b]) ++ u).getD (s.length + t.length) 0 = b := by
        simp [List.getD_eq_getElem?_getD]
      rw [List.length_append, List.length_singleton, ← Nat.add_assoc, prevStart, hget, if_pos hb]
      have hrest := ih (b :: u) fun x hx => ht x (by simp [hx])
      simp only [List.append_assoc, List.singleton_append] at hrest ⊢
      exact hrest

/-- **The character in front** of a place. -/
theorem ugetprevc_append (hc : IsUChar c) (hmark : Marked c) (s u : List Byte) :
    ugetprevc (s ++ c ++ u) (s ++ c).length = (code c, c.length) := by
  obtain ⟨b, t, rfl, hb, ht⟩ := hmark
  have hget : ((s ++ [b]) ++ t ++ u).getD s.length 0 = b := by
    simp [List.getD_eq_getElem?_getD]
  have hstart : prevStart (s ++ (b :: t) ++ u) (s ++ b :: t).length = s.length := by
    have htrail := prevStart_trail (s ++ [b]) t u ht
    rw [List.length_append, List.length_singleton, prevStart, hget, hb,
      if_neg Bool.false_ne_true] at htrail
    have hassoc : s ++ (b :: t) ++ u = (s ++ [b]) ++ t ++ u := by simp
    have hlen : (s ++ b :: t).length = s.length + 1 + t.length := by
      rw [List.length_append, List.length_cons]
      omega
    rw [hassoc, hlen]
    exact htrail
  rw [ugetprevc, hstart, List.append_assoc, List.drop_left]
  exact ugetc_append hc u

/-! ## Searching backward -/

/-- The place between two texts that have been turned around; `x` is the text after the
place where the search began. -/
def FromEnd (e : Ed) (x l t : List UChar) (pos : POS) : Prop :=
  Shows (e.setDot pos) ⟨t.reverse, l.reverse ++ x⟩

/-- The line in front of a line. -/
theorem Sound.lback_of (h : Sound e) (hl : e.lines = as ++ lp :: bs) :
    e.lback lp = as.getLastD e.b_linep := by
  obtain ⟨has, -, -⟩ := h.around hl
  change Circular.prev e.b_linep e.lines lp = _
  rw [hl, Circular.prev_append has]

/-- The bytes up to a place in a line. -/
theorem Sound.front_length (h : Sound e) (hlp : lp ∈ e.lines) (hcs : e.chars lp = cs ++ ds) :
    uoffset (e.line lp).l_text cs.length = cs.flatten.length := by
  obtain ⟨hin, htext⟩ := h.chars hlp
  rw [htext, uoffset_flatten hin.whole, hcs, List.take_left]

/-- The character in front of a place in a line. -/
theorem Sound.prevc (h : Sound e) (hmark : e.AllMarked) (hlp : lp ∈ e.lines)
    (hcs : e.chars lp = cs ++ c :: ds) :
    ugetprevc (e.line lp).l_text (cs ++ [c]).flatten.length = (code c, c.length) ∧ c ≠ nl := by
  obtain ⟨hin, htext⟩ := h.chars hlp
  have hc : c ∈ e.chars lp := by rw [hcs]; simp
  have hflat : (e.line lp).l_text = cs.flatten ++ c ++ ds.flatten := by
    rw [htext, hcs]
    simp
  refine ⟨?_, fun heq => hin.noBreak (heq ▸ hc)⟩
  rw [hflat, List.flatten_append, List.flatten_singleton]
  exact ugetprevc_append (hin.whole c hc) (hmark lp hlp c hc) _ _

/-- The text in front of a line, up to the line above. -/
theorem rows_turned {q : LineId} (e : Ed) (as : List LineId) :
    ((as ++ [q]).flatMap e.row).reverse = nl :: (as.flatMap e.row ++ e.chars q).reverse := by
  rw [List.flatMap_append, List.flatMap_singleton, Ed.row, ← List.append_assoc,
    List.reverse_append, List.reverse_singleton, List.singleton_append]

variable (w casefold) in
/-- **The loop over the rest of the pattern**, from its end on. -/
theorem matchBack_spec (ps : List Nat) (h : Sound e) (hmark : e.AllMarked)
    (hl : e.lines = as ++ lp :: bs) (hcs : e.chars lp = cs ++ ds)
    (hx : ds ++ nl :: bs.flatMap e.row = l.reverse ++ x) :
    (matchBack w casefold e ps lp cs.length cs.flatten.length).TellsAt (same w casefold) (FromEnd e x)
      l (as.flatMap e.row ++ cs).reverse ps := by
  induction ps generalizing as lp bs ds cs l with
  | nil =>
      have hat := h.shows_at hl (o := cs.length) (by rw [hcs, List.length_append]; omega)
      rw [hcs, List.take_left, List.drop_left, hx] at hat
      refine ⟨rfl, ?_⟩
      rw [List.length_nil, List.take_zero, List.append_nil, List.drop_zero, FromEnd,
        List.reverse_reverse]
      exact hat
  | cons p ps ih =>
      rcases List.eq_nil_or_concat cs with rfl | ⟨cs, c, rfl⟩
      · -- at the start of the line
        rw [matchBack, List.length_nil, if_pos rfl, h.lback_of hl, List.append_nil]
        dsimp only
        rcases List.eq_nil_or_concat as with rfl | ⟨as, q, rfl⟩
        · rw [List.getLastD_nil, if_pos rfl]
          exact Nat.succ_pos _
        · rw [List.concat_eq_append] at hl ⊢
          have hq : q ∈ e.lines := by rw [hl]; simp
          have hne : q ≠ e.b_linep := fun heq => h.header (heq ▸ hq)
          have hl' : e.lines = as ++ q :: (lp :: bs) := by rw [hl]; simp
          have hlast : (as ++ [q]).getLastD e.b_linep = q := by simp
          rw [hlast, if_neg hne, rows_turned]
          split
          · rename_i hp
            change heads (same w casefold) (p :: ps) (nl :: _) = false
            rw [heads, same, if_pos rfl, decide_eq_false hp, Bool.false_and]
          · rename_i hp
            obtain ⟨hin, htext⟩ := h.chars hq
            have hx' : [] ++ nl :: (lp :: bs).flatMap e.row = (l ++ [nl]).reverse ++ x := by
              rw [List.reverse_append, List.reverse_singleton, List.append_assoc, ← hx,
                List.flatMap_cons, Ed.row, hcs]
              simp
            have hnext := ih hl' (List.append_nil _).symm hx'
            rw [wllength_eq e q (h.inline q hq), htext]
            exact hnext.cons (by rw [same, if_pos rfl]; exact decide_eq_true (not_not.mp hp))
      · rw [List.concat_eq_append] at hcs ⊢
        rw [List.append_assoc, List.singleton_append] at hcs
        have hlp : lp ∈ e.lines := by rw [hl]; simp
        obtain ⟨hprev, hnl⟩ := h.prevc hmark hlp hcs
        have hsame : same w casefold c p = ceq w casefold (code c) p := by rw [same, if_neg hnl]
        have hpos : (cs ++ [c]).length ≠ 0 := by simp
        have hturn : (as.flatMap e.row ++ (cs ++ [c])).reverse =
            c :: (as.flatMap e.row ++ cs).reverse := by simp
        rw [matchBack, if_neg hpos, hprev, hturn]
        dsimp only
        have hone : (cs ++ [c]).length - 1 = cs.length := by simp
        have hbytes : (cs ++ [c]).flatten.length - c.length = cs.flatten.length := by simp
        rw [hone, hbytes]
        split
        · rename_i hceq
          have hnext := ih (l := l ++ [c]) hl hcs (by
            rw [List.reverse_append, List.reverse_singleton, List.append_assoc, ← hx]
            rfl)
          exact hnext.cons (hsame.trans hceq)
        · rename_i hceq
          change heads (same w casefold) (p :: ps) (c :: _) = false
          rw [heads, hsame, Bool.eq_false_iff.mpr hceq, Bool.false_and]

/-- What the loop of the search finds, from a place in a line on. -/
def LoopFinds (w : Wctype) (casefold : Bool) (e : Ed) (x : List UChar) (p : Nat) (ps : List Nat)
    (f : Nat) : Prop :=
  ∀ {as bs : List LineId} {lp : LineId} {cs ds l : List UChar}, e.lines = as ++ lp :: bs →
    e.chars lp = cs ++ ds → ds ++ nl :: bs.flatMap e.row = l.reverse ++ x →
    (as.flatMap e.row ++ cs).length < f →
    FindsAt (same w casefold) (FromEnd e x) (p :: ps) l (as.flatMap e.row ++ cs).reverse
      (backsrchLoop w casefold e p ps f lp cs.length cs.flatten.length)

/-- A round at the start of a line, or at the header line. -/
theorem LoopFinds.up {f : Nat} (ih : LoopFinds w casefold e x p ps f) (h : Sound e)
    (hmark : e.AllMarked) (hl : e.lines = as ++ bs) (hback : e.lback lp = as.getLastD e.b_linep)
    (hx : bs.flatMap e.row = l.reverse ++ x) (hf : (as.flatMap e.row).length < f + 1) (k : Nat) :
    FindsAt (same w casefold) (FromEnd e x) (p :: ps) l (as.flatMap e.row).reverse
      (backsrchLoop w casefold e p ps (f + 1) lp 0 k) := by
  rw [backsrchLoop, if_pos rfl, hback]
  dsimp only
  rcases List.eq_nil_or_concat as with rfl | ⟨as, q, rfl⟩
  · rw [List.getLastD_nil, if_pos rfl]
    exact findsAt_short (Nat.succ_pos _)
  · rw [List.concat_eq_append] at hl hf ⊢
    have hq : q ∈ e.lines := by rw [hl]; simp
    have hne : q ≠ e.b_linep := fun heq => h.header (heq ▸ hq)
    have hl' : e.lines = as ++ q :: bs := by rw [hl]; simp
    have hlast : (as ++ [q]).getLastD e.b_linep = q := by simp
    have hchars : e.chars q = e.chars q ++ [] := (List.append_nil _).symm
    have hx' : [] ++ nl :: bs.flatMap e.row = (l ++ [nl]).reverse ++ x := by
      rw [List.reverse_append, List.reverse_singleton, List.append_assoc, ← hx]
      rfl
    have hsize : (as.flatMap e.row ++ e.chars q).length < f := by
      rw [List.flatMap_append, List.flatMap_singleton, Ed.row, ← List.append_assoc,
        List.length_append, List.length_singleton] at hf
      omega
    have hnext := ih hl' hchars hx' hsize
    rw [hlast, if_neg hne, rows_turned, wllength_eq e q (h.inline q hq), h.front_length hq hchars]
    split
    · rename_i hp
      refine hnext.skip ?_
      rw [heads, same, if_pos rfl, decide_eq_false hp, Bool.false_and]
    · rename_i hp
      have htells := matchBack_spec w casefold ps h hmark hl' hchars hx'
      have hfront := htells.cons (p := p) (by
        rw [same, if_pos rfl]
        exact decide_eq_true (not_not.mp hp))
      exact hfront.finds (List.cons_ne_nil _ _) hnext.skip

variable (w casefold) in
/-- **The loop of the search.** -/
theorem backsrchLoop_spec (h : Sound e) (hmark : e.AllMarked) (x : List UChar) (p : Nat)
    (ps : List Nat) (f : Nat) : LoopFinds w casefold e x p ps f := by
  induction f with
  | zero => exact fun _ _ _ hf => absurd hf (Nat.not_lt_zero _)
  | succ f ih =>
      intro as bs lp cs ds l hl hcs hx hf
      rcases List.eq_nil_or_concat cs with rfl | ⟨cs, c, rfl⟩
      · rw [List.append_nil] at hf ⊢
        refine ih.up h hmark hl (h.lback_of hl) ?_ hf _
        rw [List.flatMap_cons, Ed.row, hcs, List.nil_append, List.append_assoc, ← hx]
        rfl
      · rw [List.concat_eq_append] at hcs hf ⊢
        rw [List.append_assoc, List.singleton_append] at hcs
        have hlp : lp ∈ e.lines := by rw [hl]; simp
        obtain ⟨hprev, hnl⟩ := h.prevc hmark hlp hcs
        have hsame : same w casefold c p = ceq w casefold (code c) p := by rw [same, if_neg hnl]
        have hpos : (cs ++ [c]).length ≠ 0 := by simp
        have hturn : (as.flatMap e.row ++ (cs ++ [c])).reverse =
            c :: (as.flatMap e.row ++ cs).reverse := by simp
        have hone : (cs ++ [c]).length - 1 = cs.length := by simp
        have hbytes : (cs ++ [c]).flatten.length - c.length = cs.flatten.length := by simp
        have hx' : c :: ds ++ nl :: bs.flatMap e.row = (l ++ [c]).reverse ++ x := by
          rw [List.reverse_append, List.reverse_singleton, List.append_assoc, ← hx]
          rfl
        have hsize : (as.flatMap e.row ++ cs).length < f := by
          rw [← List.append_assoc, List.length_append, List.length_singleton] at hf
          omega
        have hnext := ih hl hcs hx' hsize
        rw [backsrchLoop, if_neg hpos, hprev, hturn]
        dsimp only
        rw [hone, hbytes]
        split
        · rename_i hceq
          have htells := matchBack_spec w casefold ps h hmark hl hcs hx'
          have hfront := htells.cons (hsame.trans hceq)
          exact hfront.finds (List.cons_ne_nil _ _) hnext.skip
        · rename_i hceq
          refine hnext.skip ?_
          rw [heads, hsame, Bool.eq_false_iff.mpr hceq, Bool.false_and]

variable (w casefold) in
/-- **`backsrch`** finds the last match in front of the cursor. -/
theorem backsrch_spec (h : Sound e) (hmark : e.AllMarked) (hdot : Within e e.dot) (upat : List Nat)
    (hne : upat ≠ []) :
    FindsAt (same w casefold) (FromEnd e (e.symbols.drop (e.passed e.dot))) upat.reverse []
      (e.symbols.take (e.passed e.dot)).reverse (e.backsrch w casefold upat) := by
  obtain ⟨p, ps, hrev⟩ := List.exists_cons_of_ne_nil (mt List.reverse_eq_nil_iff.mp hne)
  rw [Ed.backsrch, hrev]
  dsimp only
  by_cases hmem : e.dot.p ∈ e.lines
  · have hshows : Shows e ⟨e.symbols.take (e.passed e.dot), e.symbols.drop (e.passed e.dot)⟩ :=
      h.shows_within hdot hmem
    obtain ⟨as, bs, hl, hz⟩ := hshows.split
    rw [Zipper.mk.injEq] at hz
    have hcs : e.chars e.dot.p = (e.chars e.dot.p).take e.dot.o ++ (e.chars e.dot.p).drop e.dot.o :=
      (List.take_append_drop _ _).symm
    have hlen : ((e.chars e.dot.p).take e.dot.o).length = e.dot.o := by
      rw [List.length_take, Nat.min_eq_left hshows.offset]
    have hbytes := h.front_length hmem hcs
    have hspec := backsrchLoop_spec w casefold h hmark (e.symbols.drop (e.passed e.dot)) p ps
      (e.symbols.length + 1) hl hcs (l := []) hz.2.symm (by
        rw [← hz.1, List.length_take]
        omega)
    rw [← hz.1, hlen] at hspec
    rw [hlen] at hbytes
    rw [hbytes]
    exact hspec
  · obtain ⟨heq, hall⟩ := h.passed_header hdot hmem
    have ho : e.dot.o = 0 := by
      have hle := hdot.2
      rw [heq, LINE.wllength, h.empty] at hle
      exact Nat.le_zero.mp hle
    have hback : e.lback e.dot.p = e.lines.getLastD e.b_linep := by
      rw [heq]
      exact Circular.prev_header h.header
    have hspec := LoopFinds.up (backsrchLoop_spec w casefold h hmark [] p ps e.symbols.length) h hmark
      (l := []) (List.append_nil e.lines).symm hback rfl (Nat.lt_succ_self _)
      (uoffset (e.line e.dot.p).l_text e.dot.o)
    rw [hall, List.take_length, List.drop_length]
    rw [ho] at hspec ⊢
    exact hspec

/-! ## Both searches -/

/-- The pattern stands in a text, after `i` characters. -/
def OccursAt (w : Wctype) (casefold : Bool) (upat : List Nat) (t : List UChar) (i : Nat) : Prop :=
  heads (same w casefold) upat (t.drop i) = true

/-- The lines, joined by newlines. -/
def Ed.joined (e : Ed) : List UChar := e.symbols.dropLast

/-- What a search forward is to find: the first match after the cursor, or none. -/
def FindsFirst (w : Wctype) (casefold : Bool) (e : Ed) (upat : List Nat) : Option POS → Prop
  | none => ∀ i, e.passed e.dot ≤ i → ¬ OccursAt w casefold upat e.joined i
  | some pos => Within e pos ∧ ∃ i, e.passed e.dot ≤ i ∧ OccursAt w casefold upat e.joined i ∧
      (∀ j, e.passed e.dot ≤ j → OccursAt w casefold upat e.joined j → i ≤ j) ∧
      e.passed pos = i + upat.length

/-- What a search backward is to find: the last match in the text in front of the cursor,
or none. -/
def FindsLast (w : Wctype) (casefold : Bool) (e : Ed) (upat : List Nat) : Option POS → Prop
  | none => ∀ i, ¬ OccursAt w casefold upat (e.symbols.take (e.passed e.dot)) i
  | some pos => Within e pos ∧ OccursAt w casefold upat (e.symbols.take (e.passed e.dot)) (e.passed pos) ∧
      ∀ j, OccursAt w casefold upat (e.symbols.take (e.passed e.dot)) j → j ≤ e.passed pos

variable {upat : List Nat} {t : List UChar} {a : POS}

/-- An occurrence lies in the text. -/
theorem OccursAt.le_length {i : Nat} (h : OccursAt w casefold upat t i) (hne : upat ≠ []) :
    i + upat.length ≤ t.length := by
  have hlen := heads_length h
  have hpos := List.length_pos_iff.mpr hne
  rw [List.length_drop] at hlen
  omega

/-- Occurrences in the front of a text. -/
theorem occursAt_take {i k : Nat} (hi : i + upat.length ≤ k) (hk : k ≤ t.length) :
    OccursAt w casefold upat (t.take k) i ↔ OccursAt w casefold upat t i := by
  have hsplit : t.drop i = (t.take k).drop i ++ t.drop k := by
    conv_lhs => rw [← List.take_append_drop k t]
    rw [List.drop_append_of_le_length]
    rw [List.length_take]
    omega
  unfold OccursAt
  rw [hsplit, heads_append]
  rw [List.length_drop, List.length_take]
  omega

/-- What the cursor is shown at is a position in the buffer. -/
theorem Shows.within (h : Shows (e.setDot a) ⟨l, x⟩) : Within e a ∧ e.passed a = l.length := by
  have hsize := wllength_eq (e.setDot a) a.p (h.sound.inline a.p h.mem)
  exact ⟨⟨.inl h.mem, h.offset.trans hsize.ge⟩, h.passed.symm⟩

variable (w casefold) in
/-- **The search forward**, by places in the text. -/
theorem forwsrch_finds (h : Sound e) (hdot : Within e e.dot) (hne : upat ≠ []) :
    FindsFirst w casefold e upat (e.forwsrch w casefold upat) := by
  by_cases hmem : e.dot.p ∈ e.lines
  · have hshows : Shows e ⟨e.symbols.take (e.passed e.dot), e.symbols.drop (e.passed e.dot)⟩ :=
      h.shows_within hdot hmem
    obtain ⟨t, hright, hfinds⟩ := @forwsrch_spec w casefold _ _ hshows upat hne
    have hfront : (e.symbols.take (e.passed e.dot)).length = e.passed e.dot := hshows.passed
    have hjoined : e.joined = e.symbols.take (e.passed e.dot) ++ t := by
      have htext : e.symbols = e.symbols.take (e.passed e.dot) ++ t ++ [nl] := by
        rw [List.append_assoc]
        exact hshows.text.symm.trans (congrArg (_ ++ ·) hright)
      rw [Ed.joined, htext, List.dropLast_concat, ← htext]
    have hdrop : ∀ j, e.joined.drop (e.passed e.dot + j) = t.drop j := by
      intro j
      rw [hjoined]
      generalize e.symbols.take (e.passed e.dot) = front at hfront ⊢
      rw [← hfront, List.drop_length_add_append]
    unfold Finds at hfinds
    cases hfirst : firstMatch (same w casefold) upat t with
    | none =>
        rw [hfirst] at hfinds
        rw [hfinds]
        intro i hi
        obtain ⟨j, rfl⟩ := Nat.exists_eq_add_of_le hi
        rw [OccursAt, hdrop, first_none hfirst]
        exact Bool.false_ne_true
    | some br =>
        obtain ⟨b, r⟩ := br
        rw [hfirst] at hfinds
        obtain ⟨pos, hpos, hat⟩ := hfinds
        obtain ⟨hsplit, hheads⟩ := first_split hfirst
        have hlen := heads_length hheads
        obtain ⟨hwithin, hpassed⟩ := hat.within
        rw [hpos]
        refine ⟨hwithin, e.passed e.dot + b.length, Nat.le_add_right _ _, ?_, fun j hj hoccurs => ?_, ?_⟩
        · rw [OccursAt, hdrop, hsplit, List.drop_left]
          exact hheads
        · obtain ⟨j, rfl⟩ := Nat.exists_eq_add_of_le hj
          rw [OccursAt, hdrop] at hoccurs
          exact Nat.add_le_add_left (first_least hfirst hoccurs) _
        · have hsize : (r.take upat.length).length = upat.length := by
            rw [List.length_take, Nat.min_eq_left hlen]
          rw [hpassed, List.length_append, List.length_append, hfront, hsize]
  · -- the cursor is on the header line
    obtain ⟨heq, hall⟩ := h.passed_header hdot hmem
    have hnone : e.forwsrch w casefold upat = none := by
      cases upat with
      | nil => rfl
      | cons p ps => rw [Ed.forwsrch, if_pos heq]
    rw [hnone]
    intro i hi hoccurs
    have hle := hoccurs.le_length hne
    have hpos := List.length_pos_iff.mpr hne
    rw [Ed.joined, List.length_dropLast] at hle
    omega

variable (w casefold) in
/-- **The search backward**, by places in the text. -/
theorem backsrch_finds (h : Sound e) (hmark : e.AllMarked) (hdot : Within e e.dot)
    (hne : upat ≠ []) : FindsLast w casefold e upat (e.backsrch w casefold upat) := by
  have hfinds := backsrch_spec w casefold h hmark hdot upat hne
  generalize hfront : e.symbols.take (e.passed e.dot) = t at hfinds
  unfold FindsAt at hfinds
  have hback : ∀ i, OccursAt w casefold upat t i →
      heads (same w casefold) upat.reverse (t.reverse.drop (t.length - i - upat.length)) = true ∧
        i + upat.length ≤ t.length := by
    intro i hoccurs
    have hle := hoccurs.le_length hne
    refine ⟨?_, hle⟩
    rw [heads_reverse (by omega)]
    have hi : t.length - (t.length - i - upat.length) - upat.length = i := by omega
    rw [hi]
    exact hoccurs
  cases hfirst : firstMatch (same w casefold) upat.reverse t.reverse with
  | none =>
      rw [hfirst] at hfinds
      rw [hfinds]
      intro i hoccurs
      rw [hfront] at hoccurs
      have hno := first_none hfirst (t.length - i - upat.length)
      rw [(hback i hoccurs).1] at hno
      cases hno
  | some br =>
      obtain ⟨b, r⟩ := br
      rw [hfirst] at hfinds
      obtain ⟨pos, hpos, hat⟩ := hfinds
      obtain ⟨hsplit, hheads⟩ := first_split hfirst
      have hlen := heads_length hheads
      have hsize := congrArg List.length hsplit
      rw [List.length_reverse, List.length_append] at hsize
      rw [List.length_reverse] at hlen hat
      obtain ⟨hwithin, hpassed⟩ := Shows.within hat
      rw [List.length_reverse, List.length_drop] at hpassed
      have hplace : t.length - b.length - upat.length = e.passed pos := by omega
      rw [hpos]
      refine ⟨hwithin, ?_, fun j hoccurs => ?_⟩
      · rw [hfront, OccursAt, ← hplace, ← heads_reverse (by omega), hsplit, List.drop_left]
        exact hheads
      · rw [hfront] at hoccurs
        obtain ⟨hthere, hle⟩ := hback j hoccurs
        have hleast := first_least hfirst hthere
        omega

/-- **Both searches find the match that is next to the cursor**, and the search backward
goes back to the start of a match that has just been found. -/
theorem searches_find (w : Wctype) (casefold : Bool) (e : Ed) (hs : Sound e) (hmark : e.AllMarked)
    (hdot : Within e e.dot) (upat : List Nat) (hne : upat ≠ []) :
    FindsFirst w casefold e upat (e.forwsrch w casefold upat) ∧
      FindsLast w casefold e upat (e.backsrch w casefold upat) ∧
      ∀ pos, e.forwsrch w casefold upat = some pos →
        ∃ pos', (e.setDot pos).backsrch w casefold upat = some pos' ∧
          e.passed pos' + upat.length = e.passed pos := by
  have hforw := forwsrch_finds w casefold hs hdot hne
  refine ⟨hforw, backsrch_finds w casefold hs hmark hdot hne, fun pos hpos => ?_⟩
  rw [hpos] at hforw
  obtain ⟨hwithin, i, -, hoccurs, -, hpassed⟩ := hforw
  have hs' : Sound (e.setDot pos) := ⟨hs.nodup, hs.header, hs.fresh, hs.inline, hs.empty⟩
  have hback := backsrch_finds w casefold hs' hmark hwithin hne
  have hjoined : e.joined = e.symbols.take (e.symbols.length - 1) := List.dropLast_eq_take
  have hle := hoccurs.le_length hne
  rw [hjoined, List.length_take] at hle
  have hmine : OccursAt w casefold upat (e.symbols.take (e.passed pos)) i := by
    rw [hjoined, occursAt_take (by omega) (by omega)] at hoccurs
    exact (occursAt_take (by omega) (by omega)).mpr hoccurs
  cases hres : (e.setDot pos).backsrch w casefold upat with
  | none =>
      rw [hres] at hback
      exact absurd hmine (hback i)
  | some pos' =>
      rw [hres] at hback
      obtain ⟨-, hthere, hlast⟩ := hback
      have hbound : e.passed pos' + upat.length ≤ (e.symbols.take (e.passed pos)).length :=
        hthere.le_length hne
      have hge : i ≤ e.passed pos' := hlast i hmine
      rw [List.length_take] at hbound
      refine ⟨pos', rfl, ?_⟩
      omega

/-- Two lines with a letter of two bytes, and the cursor between them. -/
def accents : Ed := Ed.holding [[97, 0xc3, 0xa9], [0xc3, 0xa9, 98]] ⟨2, 2⟩ ⟨2, 0⟩

/-- A pattern that goes over the end of a line. -/
theorem searches_find_accents :
    FindsFirst asciiLetters false accents [10, 0xe9] (accents.forwsrch asciiLetters false [10, 0xe9]) ∧
      FindsLast asciiLetters false accents [10, 0xe9] (accents.backsrch asciiLetters false [10, 0xe9]) ∧
      ∀ pos, accents.forwsrch asciiLetters false [10, 0xe9] = some pos →
        ∃ pos', (accents.setDot pos).backsrch asciiLetters false [10, 0xe9] = some pos' ∧
          accents.passed pos' + 2 = accents.passed pos := by
  have hsound : Sound accents := by
    refine Ed.sound_holding fun s hs => ?_
    have hletters : ∀ cs : List UChar, (∀ c ∈ cs, IsUChar c) → nl ∉ cs →
        ∃ ds, Inline ds ∧ cs.flatten = ds.flatten := fun cs hall hnl => ⟨cs, ⟨hall, hnl⟩, rfl⟩
    rcases List.mem_cons.mp hs with rfl | hs
    · exact hletters [[97], [0xc3, 0xa9]] (by decide) (by decide)
    · obtain rfl := List.mem_singleton.mp hs
      exact hletters [[0xc3, 0xa9], [98]] (by decide) (by decide)
  have hmark : ∀ p ∈ accents.lines, ∀ c ∈ accents.chars p, Marked c := by decide +kernel
  exact searches_find asciiLetters false accents hsound hmark ⟨.inl (by decide), by decide⟩
    [10, 0xe9] (by decide)

end Emacs
