import Zzdwm.Emacs.BackSearch
import Zzdwm.Emacs.Twiddle
import Zzdwm.Lib.Brackets

/-!
# The matching bracket (`search.c`)

`searchparen` walks over the places of the buffer, counts the brackets that are open, and
leaves out what stands in quotes and in comments.  Its offset counts characters, but it
reads the byte with that number.

* `searchparen` — the code, with `searchignore` and its tables;
* `Ed.Partner` — two brackets belong together, by the characters of the text;
* `Ed.Reads` — they do so by the bytes that are read;
* `searchparen_spec` — the scan finds the bracket that belongs to the one at the cursor, by
  the bytes;
* `searchparen_pairs_iff` — **when that is the right one**.
-/

namespace Emacs

open Brackets

section Source

/-- `struct statetrans`. -/
structure Statetrans where
  bslash : Nat
  fslash : Nat
  quote : Nat
  dquote : Nat
  star : Nat
  nl : Nat
  other : Nat
  ignore : Bool
  deriving Inhabited

/-- `forward_trans`. -/
def forward_trans : List Statetrans := [
  ⟨0, 1, 4, 6, 0, 0, 0, false⟩,
  ⟨0, 8, 4, 6, 2, 0, 0, false⟩,
  ⟨2, 2, 2, 2, 3, 2, 2, true⟩,
  ⟨2, 0, 2, 2, 3, 2, 2, true⟩,
  ⟨5, 4, 0, 4, 4, 0, 4, true⟩,
  ⟨4, 4, 4, 4, 4, 4, 4, true⟩,
  ⟨7, 6, 6, 0, 6, 0, 6, true⟩,
  ⟨6, 6, 6, 6, 6, 6, 6, true⟩,
  ⟨8, 8, 8, 8, 8, 0, 8, true⟩]

/-- `backwards_trans`. -/
def backwards_trans : List Statetrans := [
  ⟨0, 1, 4, 6, 0, 0, 0, false⟩,
  ⟨0, 1, 4, 6, 2, 0, 0, false⟩,
  ⟨2, 2, 2, 2, 3, 2, 2, true⟩,
  ⟨2, 0, 2, 2, 3, 2, 2, true⟩,
  ⟨4, 4, 5, 4, 4, 5, 4, true⟩,
  ⟨4, 0, 0, 0, 0, 0, 0, false⟩,
  ⟨6, 6, 6, 7, 6, 7, 6, true⟩,
  ⟨6, 0, 0, 0, 0, 0, 0, false⟩]

/-- `searchignore`: whether the character is left out, and the new `srchstate`. -/
def searchignore (srchstate : Nat) (ch : Byte) (forward : Bool) : Bool × Nat :=
  let trans := (if forward then forward_trans else backwards_trans).getD srchstate default
  let next :=
    if ch = 0x5c then trans.bslash
    else if ch = 0x2f then trans.fslash
    else if ch = 0x27 then trans.quote
    else if ch = 0x22 then trans.dquote
    else if ch = 0x2a then trans.star
    else if ch = newline then trans.nl
    else trans.other
  (trans.ignore, next)

/-- `CEQ` of two values of type `char`.  A byte from 0x80 on is a negative number there,
so `ceq` goes by `AEQ`, which drops the upper bit. -/
def ceqchar (casefold : Bool) (c1 c2 : Byte) : Bool :=
  upmap casefold (c1 &&& 0x7f).toNat = upmap casefold (c2 &&& 0x7f).toNat

/-- `bracket`. -/
def bracket : List (Byte × Byte) := [(0x28, 0x29), (0x3c, 0x3e), (0x5b, 0x5d), (0x7b, 0x7d)]

/-- The two loops over `bracket`: what is looked for, and whether the way is forward. -/
def facing (chinc : Byte) : Byte × Bool :=
  match bracket.find? (·.2 = chinc) with
  | some b => (b.1, false)
  | none => (((bracket.find? (·.1 = chinc)).map (·.2)).getD chinc, true)

/-- What is read at a place. -/
def Ed.reading (e : Ed) (a : POS) : Byte :=
  if a.o < (e.line a.p).wllength then lgetc (e.line a.p).l_text a.o else newline

/-- The next place, or none at the end of the buffer. -/
def Ed.parenStep (e : Ed) (forward : Bool) (a : POS) : Option POS :=
  if forward then
    if (e.line a.p).wllength ≤ a.o then
      let clp := e.lforw a.p
      if clp = e.b_linep then none else some ⟨clp, 0⟩
    else some ⟨a.p, a.o + 1⟩
  else
    if a.o = 0 then
      let clp := e.lback a.p
      if clp = e.b_linep then none else some ⟨clp, (e.line clp).wllength⟩
    else some ⟨a.p, a.o - 1⟩

variable (casefold : Bool)

/-- The loop of `searchparen`, with a bound on the number of rounds. -/
def parenLoop (e : Ed) (forward : Bool) (chinc chdec : Byte) :
    Nat → POS → Nat → Nat → Option (Option POS)
  | 0, _, _, _ => none
  | f + 1, a, srchstate, count =>
      match e.parenStep forward a with
      | none => some none
      | some a =>
          let ch := e.reading a
          let (ignore, srchstate) := searchignore srchstate ch forward
          if !ignore then
            if ceqchar casefold ch chdec then
              if count = 0 then some (some a)
              else parenLoop e forward chinc chdec f a srchstate (count - 1)
            else if ceqchar casefold ch chinc then
              parenLoop e forward chinc chdec f a srchstate (count + 1)
            else parenLoop e forward chinc chdec f a srchstate count
          else parenLoop e forward chinc chdec f a srchstate count

/-- `searchparen`.  Every round goes on by a character. -/
def searchparen (e : Ed) : Option (Ed × Bool) :=
  let chinc := e.reading e.dot
  let (chdec, forward) := facing chinc
  (parenLoop casefold e forward chinc chdec (e.symbols.length + 1) e.dot 0 0).map fun
    | some pos => (e.setDot pos, true)
    | none => (e, false)

end Source

/-! ## Places -/

/-- The places of a line. -/
def Ed.rowPlaces (e : Ed) (p : LineId) : List POS :=
  (List.range ((e.line p).wllength + 1)).map (POS.mk p)

/-- The places of the buffer, in the order of the text. -/
def Ed.places (e : Ed) : List POS := e.lines.flatMap e.rowPlaces

/-- The places in the order in which a search goes over them. -/
def Ed.way (e : Ed) (forward : Bool) : List POS := if forward then e.places else e.places.reverse

/-- The character at a place. -/
def Ed.symbol (e : Ed) (a : POS) : UChar := (e.chars a.p).getD a.o nl

/-- Does the character stand there? -/
def Ed.isAt (e : Ed) (c : Byte) (a : POS) : Bool := e.symbol a = [c]

/-- Is the byte that is read there taken for the character? -/
def Ed.readsAs (casefold : Bool) (e : Ed) (c : Byte) (a : POS) : Bool :=
  ceqchar casefold (e.reading a) c

/-- The bracket of a pair that is met first on the way. -/
def side (p : Byte × Byte) (forward : Bool) : Byte := if forward then p.1 else p.2

/-- **Two brackets belong together**: the brackets of their kind between them are
balanced. -/
def Ed.Partner (e : Ed) (a b : POS) : Prop :=
  ∃ p ∈ bracket, ∃ forward, e.isAt (side p forward) a = true ∧
    Closes (e.isAt (side p forward)) (e.isAt (side p !forward)) (e.way forward) a b

/-- The place that belongs to another one, by the bytes that are read. -/
def Ed.Reads (casefold : Bool) (e : Ed) (a b : POS) : Prop :=
  let chinc := e.reading a
  let (chdec, forward) := facing chinc
  Closes (e.readsAs casefold chinc) (e.readsAs casefold chdec) (e.way forward) a b

/-- No two of these bytes begin or end a comment. -/
def apart (b b' : Byte) : Prop :=
  ¬ (b = 0x2f ∧ (b' = 0x2f ∨ b' = 0x2a)) ∧ ¬ (b = 0x2a ∧ b' = 0x2f)

/-- Neither a quote nor a backslash. -/
def plainByte (b : Byte) : Prop := b ≠ 0x22 ∧ b ≠ 0x27 ∧ b ≠ 0x5c

/-- No quotes, no backslashes and no delimiters of comments. -/
def Ed.Undelimited (e : Ed) : Prop :=
  ∀ p ∈ e.lines, (e.line p).l_text.IsChain apart ∧ ∀ b ∈ (e.line p).l_text, plainByte b

variable {e : Ed} {casefold fw : Bool} {a b : POS} {l r : List POS} {as bs : List LineId}
  {p : LineId} {o s k : Nat} {ch prev inc dec : Byte}

theorem mem_rowPlaces : a ∈ e.rowPlaces p ↔ a.p = p ∧ a.o ≤ (e.line p).wllength := by
  rw [Ed.rowPlaces, List.mem_map]
  constructor
  · rintro ⟨i, hi, rfl⟩
    exact ⟨rfl, Nat.le_of_lt_succ (List.mem_range.mp hi)⟩
  · rintro ⟨rfl, ho⟩
    exact ⟨a.o, List.mem_range.mpr (Nat.lt_succ_of_le ho), rfl⟩

theorem mem_places : a ∈ e.places ↔ a.p ∈ e.lines ∧ a.o ≤ (e.line a.p).wllength := by
  rw [Ed.places, List.mem_flatMap]
  constructor
  · rintro ⟨p, hp, ha⟩
    obtain ⟨rfl, ho⟩ := mem_rowPlaces.mp ha
    exact ⟨hp, ho⟩
  · rintro ⟨hp, ho⟩
    exact ⟨a.p, hp, mem_rowPlaces.mpr ⟨rfl, ho⟩⟩

theorem Sound.places_nodup (h : Sound e) : e.places.Nodup := by
  rw [Ed.places, List.nodup_flatMap]
  refine ⟨fun p _ => ?_, ?_⟩
  · refine List.Nodup.map (fun i j hij => ?_) List.nodup_range
    exact congrArg POS.o hij
  · refine List.Nodup.pairwise_of_forall_ne h.nodup fun p _ q _ hne a hp hq => hne ?_
    exact (mem_rowPlaces.mp hp).1.symm.trans (mem_rowPlaces.mp hq).1

theorem Sound.way_nodup (h : Sound e) (fw : Bool) : (e.way fw).Nodup := by
  unfold Ed.way
  split
  · exact h.places_nodup
  · exact List.nodup_reverse.mpr h.places_nodup

theorem way_not (e : Ed) (fw : Bool) : e.way (!fw) = (e.way fw).reverse := by
  cases fw
  · exact (List.reverse_reverse _).symm
  · rfl

theorem mem_way : a ∈ e.way fw ↔ a ∈ e.places := by
  unfold Ed.way
  split
  · exact Iff.rfl
  · exact List.mem_reverse

theorem rowPlaces_split (ho : o ≤ (e.line p).wllength) :
    e.rowPlaces p = (List.range o).map (POS.mk p) ++ ⟨p, o⟩ ::
      (List.range ((e.line p).wllength - o)).map fun i => ⟨p, o + (i + 1)⟩ := by
  have hlen : (e.line p).wllength + 1 = o + ((e.line p).wllength - o + 1) := by omega
  rw [Ed.rowPlaces, hlen, List.range_add, List.map_append, List.range_succ_eq_map, List.map_cons,
    List.map_cons, List.map_map, List.map_map]
  rfl

theorem places_split (hl : e.lines = as ++ p :: bs) (ho : o ≤ (e.line p).wllength) :
    e.places = (as.flatMap e.rowPlaces ++ (List.range o).map (POS.mk p)) ++ ⟨p, o⟩ ::
      (((List.range ((e.line p).wllength - o)).map fun i => ⟨p, o + (i + 1)⟩) ++
        bs.flatMap e.rowPlaces) := by
  rw [Ed.places, hl, List.flatMap_append, List.flatMap_cons, rowPlaces_split ho]
  simp only [List.append_assoc, List.cons_append]

/-- **The next place** is the next one of the list. -/
theorem Sound.parenStep_eq (h : Sound e) (hw : e.way fw = l ++ a :: r) :
    e.parenStep fw a = r.head? := by
  have hmem : a ∈ e.places := mem_way.mp (by rw [hw]; simp)
  obtain ⟨hp, ho⟩ := mem_places.mp hmem
  obtain ⟨as, bs, hl⟩ := List.append_of_mem hp
  have hsplit := places_split hl ho
  have hnd := h.places_nodup
  rw [hsplit] at hnd
  have hfront := fun hm => (List.nodup_append.mp hnd).2.2 a hm a List.mem_cons_self rfl
  have hrear := (List.nodup_cons.mp (List.nodup_append.mp hnd).2.1).1
  unfold Ed.parenStep
  cases fw with
  | true =>
      have hways : e.places = l ++ a :: r := hw
      have heq := hsplit.symm.trans hways
      obtain ⟨-, -, rfl⟩ := (List.append_cons_inj_of_notMem hfront hrear).mp heq
      rw [if_pos rfl, h.lforw_of hl]
      by_cases hend : (e.line a.p).wllength ≤ a.o
      · rw [if_pos hend, Nat.sub_eq_zero_of_le hend]
        cases bs with
        | nil => exact if_pos rfl
        | cons q bs =>
            have hne : q ≠ e.b_linep := fun hq => h.header (by rw [← hq, hl]; simp)
            dsimp only [List.headD_cons]
            rw [if_neg hne, List.flatMap_cons, rowPlaces_split (Nat.zero_le _)]
            rfl
      · obtain ⟨m, hm⟩ : ∃ m, (e.line a.p).wllength - a.o = m + 1 :=
          ⟨_, (Nat.succ_pred (by omega)).symm⟩
        rw [if_neg hend, hm, List.range_succ_eq_map]
        rfl
  | false =>
      have hrev : e.places = r.reverse ++ a :: l.reverse := by
        have hturn : e.places.reverse = l ++ a :: r := hw
        rw [← List.reverse_reverse e.places, hturn]
        simp
      have heq := hsplit.symm.trans hrev
      obtain ⟨hr, -, -⟩ := (List.append_cons_inj_of_notMem hfront hrear).mp heq
      rw [if_neg Bool.false_ne_true, h.lback_of hl, ← List.getLast?_reverse, ← hr]
      by_cases hzero : a.o = 0
      · rw [if_pos hzero, hzero]
        rcases List.eq_nil_or_concat as with rfl | ⟨as, q, rfl⟩
        · exact if_pos rfl
        · rw [List.concat_eq_append] at hl ⊢
          have hne : q ≠ e.b_linep := fun hq => h.header (by rw [← hq, hl]; simp)
          have hlast : (as ++ [q]).getLastD e.b_linep = q := by simp
          have hrow : e.rowPlaces q = (List.range (e.line q).wllength).map (POS.mk q) ++
              [⟨q, (e.line q).wllength⟩] := by
            rw [Ed.rowPlaces, List.range_succ, List.map_append]
            rfl
          dsimp only
          rw [hlast, if_neg hne, List.flatMap_append, List.flatMap_singleton, hrow]
          simp
      · obtain ⟨m, hm⟩ : ∃ m, a.o = m + 1 := ⟨_, (Nat.succ_pred hzero).symm⟩
        rw [if_neg hzero, hm, List.range_succ]
        simp

/-! ## What is read -/

theorem apart.symm {b b' : Byte} (h : apart b b') : apart b' b := by
  unfold apart at h ⊢
  tauto

theorem apart_newline (b : Byte) : apart b newline := by
  refine ⟨fun h => ?_, fun h => ?_⟩
  · rcases h.2 with h | h <;> exact absurd h (by decide)
  · exact absurd h.2 (by decide)

theorem reading_lt (h : a.o < (e.line a.p).wllength) :
    ∃ h : a.o < (e.line a.p).l_text.length, e.reading a = (e.line a.p).l_text[a.o] := by
  have hle : (e.line a.p).wllength ≤ (e.line a.p).l_text.length := unslen_le_length _
  refine ⟨by omega, ?_⟩
  rw [Ed.reading, if_pos h, lgetc, List.getD_eq_getElem?_getD, List.getElem?_eq_getElem (by omega),
    Option.getD_some]

/-- The bytes that are read at two places next to each other. -/
theorem Ed.Undelimited.apart_right (hu : e.Undelimited) (hp : p ∈ e.lines) (o : Nat) :
    apart (e.reading ⟨p, o⟩) (e.reading ⟨p, o + 1⟩) := by
  by_cases hlt : o + 1 < (e.line p).wllength
  · obtain ⟨hlen, hread⟩ := reading_lt (a := ⟨p, o + 1⟩) hlt
    obtain ⟨_, hread'⟩ := reading_lt (a := ⟨p, o⟩) (Nat.lt_of_succ_lt hlt)
    rw [hread, hread']
    exact List.isChain_iff_getElem.mp (hu p hp).1 o hlen
  · have hnl : e.reading ⟨p, o + 1⟩ = newline := if_neg hlt
    rw [hnl]
    exact apart_newline _

/-- The bytes that are read one after the other. -/
theorem Ed.Undelimited.apart_next (hu : e.Undelimited) (ha : a ∈ e.places)
    (hstep : e.parenStep fw a = some b) : apart (e.reading a) (e.reading b) := by
  have hp := (mem_places.mp ha).1
  unfold Ed.parenStep at hstep
  split at hstep
  · split at hstep
    · rename_i hend
      have hnl : e.reading a = newline := if_neg (Nat.not_lt.mpr hend)
      rw [hnl]
      exact (apart_newline _).symm
    · cases hstep
      exact hu.apart_right hp a.o
  · split at hstep
    · dsimp only at hstep
      split at hstep
      · cases hstep
      · cases hstep
        have hnl : e.reading ⟨e.lback a.p, (e.line (e.lback a.p)).wllength⟩ = newline :=
          if_neg (Nat.lt_irrefl _)
        rw [hnl]
        exact apart_newline _
    · rename_i hpos
      cases hstep
      have hsucc : a = ⟨a.p, a.o - 1 + 1⟩ := by
        rw [Nat.sub_add_cancel (Nat.one_le_iff_ne_zero.mpr hpos)]
      have hright := hu.apart_right hp (a.o - 1)
      rw [← hsucc] at hright
      exact hright.symm

theorem Ed.Undelimited.plain_reading (hu : e.Undelimited) (ha : a ∈ e.places) :
    plainByte (e.reading a) := by
  by_cases hlt : a.o < (e.line a.p).wllength
  · obtain ⟨hlen, hread⟩ := reading_lt hlt
    rw [hread]
    exact (hu a.p (mem_places.mp ha).1).2 _ (List.getElem_mem _)
  · have hnl : e.reading a = newline := if_neg hlt
    rw [hnl]
    exact ⟨by decide, by decide, by decide⟩

/-- The state of `searchignore` outside quotes and comments. -/
def Outside (s : Nat) (prev : Byte) : Prop := s = 0 ∨ s = 1 ∧ prev = 0x2f

variable (fw) in
/-- Without quotes and delimiters of comments nothing is left out. -/
theorem searchignore_outside (hs : Outside s prev) (hap : apart prev ch) (hp : plainByte ch) :
    ∃ s', searchignore s ch fw = (false, s') ∧ Outside s' ch := by
  obtain ⟨hquote, hapos, hback⟩ := hp
  by_cases hslash : ch = 0x2f
  · refine ⟨1, ?_, .inr ⟨rfl, hslash⟩⟩
    rcases hs with rfl | ⟨rfl, hprev⟩
    · rw [hslash]
      cases fw <;> rfl
    · exact absurd ⟨hprev, .inl hslash⟩ hap.1
  · refine ⟨0, ?_, .inl rfl⟩
    unfold searchignore
    dsimp only
    rw [if_neg hback, if_neg hslash, if_neg hapos, if_neg hquote]
    rcases hs with rfl | ⟨rfl, hprev⟩
    · cases fw <;> split_ifs <;> rfl
    · have hstar : ch ≠ 0x2a := fun heq => hap.1 ⟨hprev, .inr heq⟩
      rw [if_neg hstar]
      cases fw <;> split_ifs <;> rfl

/-! ## The scan -/

/-- **The loop** looks for the place that closes the bracket. -/
theorem parenLoop_eq (h : Sound e) (hu : e.Undelimited) (r : List POS) {f : Nat}
    (hw : e.way fw = l ++ a :: r) (hs : Outside s (e.reading a)) (hf : r.length < f) :
    parenLoop casefold e fw inc dec f a s k =
      some (partner (e.readsAs casefold inc) (e.readsAs casefold dec) k r) := by
  induction r generalizing l a s k f with
  | nil =>
      obtain ⟨f, rfl⟩ := Nat.exists_eq_succ_of_ne_zero (Nat.ne_of_gt hf)
      rw [parenLoop, h.parenStep_eq hw]
      rfl
  | cons b r ih =>
      obtain ⟨f, rfl⟩ := Nat.exists_eq_succ_of_ne_zero (Nat.ne_of_gt (Nat.zero_lt_of_lt hf))
      have hnext : e.parenStep fw a = some b := h.parenStep_eq hw
      have ha : a ∈ e.places := mem_way.mp (by rw [hw]; simp)
      have hb : b ∈ e.places := mem_way.mp (by rw [hw]; simp)
      obtain ⟨s', hignore, hs'⟩ :=
        searchignore_outside fw hs (hu.apart_next ha hnext) (hu.plain_reading hb)
      have hw' : e.way fw = (l ++ [a]) ++ b :: r := by rw [hw]; simp
      have hrest := fun j => ih (k := j) hw' hs' (Nat.lt_of_succ_lt_succ hf)
      rw [parenLoop, hnext, partner, step]
      dsimp only
      rw [hignore]
      dsimp only
      rw [Bool.not_false, if_pos rfl]
      change (if e.readsAs casefold dec b = true then _
        else if e.readsAs casefold inc b = true then _ else _) = _
      split_ifs
      · rfl
      · exact hrest _
      · exact hrest _
      · exact hrest _

theorem Sound.symbols_length (h : Sound e) : e.symbols.length = e.places.length := by
  rw [Ed.symbols, Ed.places, List.length_flatMap, List.length_flatMap]
  refine congrArg List.sum (List.map_congr_left fun p hp => ?_)
  rw [Ed.row, Ed.rowPlaces, List.length_append, List.length_map, List.length_range,
    wllength_eq e p (h.inline p hp), List.length_singleton]

variable (casefold) in
/-- **The command** goes to the place that belongs to the one of the cursor, by the bytes
that are read. -/
theorem searchparen_spec (h : Sound e) (hu : e.Undelimited) (hdot : e.dot ∈ e.places) :
    (∀ b, e.Reads casefold e.dot b → searchparen casefold e = some (e.setDot b, true)) ∧
      ((∀ b, ¬ e.Reads casefold e.dot b) → searchparen casefold e = some (e, false)) := by
  obtain ⟨chdec, fw, hface⟩ : ∃ c d, facing (e.reading e.dot) = (c, d) := ⟨_, _, rfl⟩
  obtain ⟨l, r, hw⟩ := List.append_of_mem ((mem_way : _ ∈ e.way fw ↔ _).mpr hdot)
  have hnd := h.way_nodup fw
  rw [hw] at hnd
  have hreads : ∀ b, e.Reads casefold e.dot b ↔
      partner (e.readsAs casefold (e.reading e.dot)) (e.readsAs casefold chdec) 0 r = some b := by
    intro b
    unfold Ed.Reads
    dsimp only
    rw [hface]
    dsimp only
    rw [hw]
    exact closes_iff hnd
  have hlen : r.length < e.symbols.length + 1 := by
    have hall := congrArg List.length hw
    have hway : (e.way fw).length = e.places.length := by
      unfold Ed.way
      split
      · rfl
      · exact List.length_reverse
    rw [hway, List.length_append, List.length_cons, ← h.symbols_length] at hall
    omega
  have hloop : searchparen casefold e = some (match partner (e.readsAs casefold (e.reading e.dot))
      (e.readsAs casefold chdec) 0 r with
    | some pos => (e.setDot pos, true)
    | none => (e, false)) := by
    unfold searchparen
    dsimp only
    rw [hface]
    dsimp only
    rw [parenLoop_eq h hu r hw (.inl rfl) hlen]
    rfl
  rw [hloop]
  refine ⟨fun b hb => ?_, fun hnone => ?_⟩
  · rw [(hreads b).mp hb]
  · rw [Option.eq_none_iff_forall_ne_some.mpr fun b hb => hnone b ((hreads b).mpr hb)]

/-! ## Characters and bytes -/

/-- What is asked of `searchparen`: from a bracket to the one that belongs to it and back
again, and where there is none the cursor stays. -/
structure PairsUp (casefold : Bool) (e : Ed) : Prop where
  there : ∀ b, e.Partner e.dot b → searchparen casefold e = some (e.setDot b, true) ∧
    searchparen casefold (e.setDot b) = some (e, true)
  alone : (∀ b, ¬ e.Partner e.dot b) → searchparen casefold e = some (e, false)

/-- The bytes lead to the same places as the characters. -/
structure ReadsAlike (casefold : Bool) (e : Ed) : Prop where
  there : ∀ b, e.Partner e.dot b ↔ e.Reads casefold e.dot b
  back : ∀ b, e.Partner e.dot b → e.Reads casefold b e.dot

/-- Of two brackets, the byte read at a place is the one that stands there; where neither
of them stands, the byte without its upper bit is neither of them. -/
def Ed.Agrees (e : Ed) (c d : Byte) (a : POS) : Prop :=
  if e.symbol a = [c] ∨ e.symbol a = [d] then e.symbol a = [e.reading a]
  else e.reading a &&& 0x7f ≠ c ∧ e.reading a &&& 0x7f ≠ d

/-- The bytes agree with the characters at the cursor, and wherever the search for the
bracket that belongs there has to look. -/
def Ed.AgreesOnWay (e : Ed) : Prop :=
  ∀ p ∈ bracket, ∀ fw l r, e.isAt (side p fw) e.dot = true → e.way fw = l ++ e.dot :: r →
    ∀ a ∈ e.dot :: scanned (e.isAt (side p fw)) (e.isAt (side p !fw)) 0 r,
      e.Agrees (side p fw) (side p !fw) a

theorem isAt_iff {c : Byte} : e.isAt c a = true ↔ e.symbol a = [c] := decide_eq_true_iff

theorem bracket_cases {p : Byte × Byte} (hp : p ∈ bracket) :
    p = (0x28, 0x29) ∨ p = (0x3c, 0x3e) ∨ p = (0x5b, 0x5d) ∨ p = (0x7b, 0x7d) := by
  unfold bracket at hp
  rwa [List.mem_cons, List.mem_cons, List.mem_cons, List.mem_singleton] at hp

/-- No bracket is of two kinds. -/
theorem side_inj {p q : Byte × Byte} {fw fw' : Bool} (hp : p ∈ bracket) (hq : q ∈ bracket)
    (h : side p fw = side q fw') : p = q ∧ fw = fw' := by
  rcases bracket_cases hp with rfl | rfl | rfl | rfl <;>
    rcases bracket_cases hq with rfl | rfl | rfl | rfl <;> cases fw <;> cases fw' <;>
    first
    | exact ⟨rfl, rfl⟩
    | exact absurd h (by decide)

theorem side_ne {p : Byte × Byte} (hp : p ∈ bracket) (fw : Bool) : side p fw ≠ side p !fw :=
  by
  intro heq
  have hfw := (side_inj hp hp heq).2
  cases fw <;> cases hfw

/-- From a bracket the search looks for the other one of the pair. -/
theorem facing_side {p : Byte × Byte} (hp : p ∈ bracket) (fw : Bool) :
    facing (side p fw) = (side p !fw, fw) := by
  rcases bracket_cases hp with rfl | rfl | rfl | rfl <;> cases fw <;> rfl

theorem side_mask {p : Byte × Byte} (hp : p ∈ bracket) (fw : Bool) :
    side p fw &&& 0x7f = side p fw := by
  rcases bracket_cases hp with rfl | rfl | rfl | rfl <;> cases fw <;> decide

/-- A byte is taken for a bracket if it is one without the upper bit. -/
theorem ceqchar_side {p : Byte × Byte} (hp : p ∈ bracket) (b : Byte) :
    ceqchar casefold b (side p fw) = true ↔ b &&& 0x7f = side p fw := by
  have hfix : upmap casefold (side p fw).toNat = (side p fw).toNat ∧
      aisupper (side p fw).toNat = false := by
    rcases bracket_cases hp with rfl | rfl | rfl | rfl <;> cases fw <;> cases casefold <;>
      exact ⟨rfl, rfl⟩
  obtain ⟨hup, hletter⟩ := hfix
  rw [ceqchar, decide_eq_true_iff, side_mask hp, hup, ← UInt8.toNat_inj]
  refine ⟨fun h => ?_, fun h => ?_⟩
  · unfold upmap at h
    split at h
    · -- a small letter becomes a capital letter
      rename_i hlower
      rw [Bool.and_eq_true, aislower, Bool.and_eq_true, decide_eq_true_iff,
        decide_eq_true_iff] at hlower
      rw [aisupper, ← h] at hletter
      simp only [Bool.and_eq_false_iff, decide_eq_false_iff_not] at hletter
      omega
    · exact h
  · rw [h]
    exact hup

/-- The byte of a place that agrees tells the brackets of the pair. -/
theorem Ed.Agrees.reads {p : Byte × Byte} (hp : p ∈ bracket)
    (h : e.Agrees (side p fw) (side p !fw) a) :
    e.readsAs casefold (side p fw) a = e.isAt (side p fw) a ∧
      e.readsAs casefold (side p !fw) a = e.isAt (side p !fw) a := by
  have hread : ∀ fw', e.readsAs casefold (side p fw') a = true ↔
      e.reading a &&& 0x7f = side p fw' := fun fw' => ceqchar_side hp _
  suffices hiff : (e.reading a &&& 0x7f = side p fw ↔ e.symbol a = [side p fw]) ∧
      (e.reading a &&& 0x7f = side p !fw ↔ e.symbol a = [side p !fw]) from
    ⟨Bool.eq_iff_iff.mpr ((hread _).trans (hiff.1.trans isAt_iff.symm)),
      Bool.eq_iff_iff.mpr ((hread _).trans (hiff.2.trans isAt_iff.symm))⟩
  unfold Ed.Agrees at h
  split at h
  · rename_i hone
    have hbyte : e.reading a &&& 0x7f = e.reading a := by
      rcases hone with hone | hone <;>
      · rw [h] at hone
        rw [(List.cons.inj hone).1]
        exact side_mask hp _
    rw [hbyte, h, List.singleton_inj, List.singleton_inj]
    exact ⟨Iff.rfl, Iff.rfl⟩
  · rename_i hnone
    rw [not_or] at hnone
    exact ⟨iff_of_false h.1 hnone.1, iff_of_false h.2 hnone.2⟩

/-- Where the bytes agree with the characters, they lead to the same places. -/
theorem Ed.AgreesOnWay.alike (h : e.AgreesOnWay) (hs : Sound e) (hdot : e.dot ∈ e.places)
    (hbr : ∃ p ∈ bracket, ∃ fw, e.isAt (side p fw) e.dot = true) :
    ReadsAlike casefold e := by
  obtain ⟨p, hp, fw, hat⟩ := hbr
  obtain ⟨l, r, hw⟩ := List.append_of_mem ((mem_way : _ ∈ e.way fw ↔ _).mpr hdot)
  have hagrees := h p hp fw l r hat hw
  have hexact : ∀ {a fw'}, e.Agrees (side p fw) (side p !fw) a → e.isAt (side p fw') a = true →
      e.reading a = side p fw' := by
    intro a fw' hagree hisAt
    have hsym := isAt_iff.mp hisAt
    have hone : e.symbol a = [side p fw] ∨ e.symbol a = [side p !fw] := by
      cases fw <;> cases fw' <;> simp_all
    rw [Ed.Agrees, if_pos hone, hsym] at hagree
    exact (List.cons.inj hagree).1.symm
  have hread : e.reading e.dot = side p fw := hexact (hagrees _ List.mem_cons_self) hat
  have hnd := hs.way_nodup fw
  -- the brackets of a pair are found alike, by characters and by bytes
  have hpartner : ∀ b, e.Partner e.dot b ↔
      partner (e.isAt (side p fw)) (e.isAt (side p !fw)) 0 r = some b := by
    intro b
    rw [hw] at hnd
    rw [← closes_iff hnd, ← hw]
    constructor
    · rintro ⟨q, hq, fw', hat', hcloses⟩
      have hsame := (isAt_iff.mp hat).symm.trans (isAt_iff.mp hat')
      obtain ⟨rfl, rfl⟩ := side_inj hp hq (List.cons.inj hsame).1
      exact hcloses
    · intro hcloses
      exact ⟨p, hp, fw, hat, hcloses⟩
  have hcongr : partner (e.readsAs casefold (side p fw)) (e.readsAs casefold (side p !fw)) 0 r =
      partner (e.isAt (side p fw)) (e.isAt (side p !fw)) 0 r :=
    partner_congr fun a ha => (hagrees a (List.mem_cons_of_mem _ ha)).reads hp
  have hreads : ∀ b, e.Reads casefold e.dot b ↔ Closes (e.readsAs casefold (side p fw))
      (e.readsAs casefold (side p !fw)) (e.way fw) e.dot b := by
    intro b
    unfold Ed.Reads
    dsimp only
    rw [hread, facing_side hp fw]
  have hiff : ∀ b, e.Partner e.dot b ↔ e.Reads casefold e.dot b := by
    intro b
    rw [hpartner, hreads, ← hcongr, hw]
    rw [hw] at hnd
    exact (closes_iff hnd).symm
  refine ⟨hiff, fun b hb => ?_⟩
  have hmem := partner_mem ((hpartner b).mp hb)
  obtain ⟨w, r', hr, hcb, -⟩ := partner_eq_some.mp ((hpartner b).mp hb)
  have hreadb : e.reading b = side p !fw := hexact (hagrees b (List.mem_cons_of_mem _ hmem)) hcb
  have hone : ∀ c ∈ e.way fw, e.readsAs casefold (side p fw) c = false ∨
      e.readsAs casefold (side p !fw) c = false := by
    intro c _
    by_contra hboth
    rw [not_or, Bool.not_eq_false, Bool.not_eq_false] at hboth
    have hfirst := (ceqchar_side hp _).mp hboth.1
    have hsecond := (ceqchar_side hp _).mp hboth.2
    exact side_ne hp fw (hfirst.symm.trans hsecond)
  have hself : e.readsAs casefold (side p fw) e.dot = true := by
    unfold Ed.readsAs
    rw [hread]
    exact decide_eq_true rfl
  have hback := ((hreads b).mp ((hiff b).mp hb)).turned hself hone
  unfold Ed.Reads
  dsimp only
  rw [hreadb, facing_side hp]
  dsimp only
  rw [Bool.not_not, way_not]
  exact hback

theorem setDot_here (e : Ed) : e.setDot e.dot = e := rfl

/-- **When the bracket is found that belongs to the one at the cursor**: exactly when the
bytes that are read lead to the same place as the characters, and that is so where the bytes
agree with the characters. -/
theorem searchparen_pairs_iff (hs : Sound e) (hu : e.Undelimited) (hdot : e.dot ∈ e.places)
    (hbr : ∃ p ∈ bracket, ∃ fw, e.isAt (side p fw) e.dot = true) :
    (PairsUp casefold e ↔ ReadsAlike casefold e) ∧ (e.AgreesOnWay → PairsUp casefold e) := by
  obtain ⟨hfound, hnone⟩ := searchparen_spec casefold hs hu hdot
  have hpairs : ReadsAlike casefold e → PairsUp casefold e := by
    intro halike
    refine ⟨fun b hb => ⟨hfound b ((halike.there b).mp hb), ?_⟩, fun hno => ?_⟩
    · -- back from the other bracket
      have hmem : b ∈ e.places := by
        obtain ⟨p, -, fw, -, l, w, r, hw, -⟩ := hb
        exact mem_way.mp (by rw [hw]; simp)
      have hback := (searchparen_spec casefold (hs.setDot b) hu hmem).1 e.dot
        (halike.back b hb)
      rw [setDot_setDot, setDot_here] at hback
      exact hback
    · exact hnone fun b hb => hno b ((halike.there b).mpr hb)
  refine ⟨⟨fun h => ?_, hpairs⟩, fun hagree => hpairs (hagree.alike hs hdot hbr)⟩
  have hdots : ∀ {b b'}, some (e.setDot b, true) = some (e.setDot b', true) → b = b' := by
    intro b b' heq
    exact congrArg (fun r => r.1.dot) (Option.some.inj heq)
  have hends : ∀ b, some (e.setDot b, true) ≠ some (e, false) := by
    intro b heq
    exact Bool.noConfusion (congrArg Prod.snd (Option.some.inj heq))
  have hreads : ∀ b, e.Partner e.dot b → e.Reads casefold e.dot b := by
    intro b hb
    by_contra hno
    have hthere := (h.there b hb).1
    by_cases hany : ∃ b', e.Reads casefold e.dot b'
    · obtain ⟨b', hb'⟩ := hany
      exact hno (hdots ((hfound b' hb').symm.trans hthere) ▸ hb')
    · exact hends b (hthere.symm.trans (hnone (not_exists.mp hany)))
  refine ⟨fun b => ⟨hreads b, fun hb => ?_⟩, fun b hb => ?_⟩
  · by_cases hany : ∃ b', e.Partner e.dot b'
    · obtain ⟨b', hb'⟩ := hany
      exact hdots ((h.there b' hb').1.symm.trans (hfound b hb)) ▸ hb'
    · exact absurd ((hfound b hb).symm.trans (h.alone (not_exists.mp hany))) (hends b)
  · have hmem : b ∈ e.places := by
      obtain ⟨p, -, fw, -, l, w, r, hw, -⟩ := hb
      exact mem_way.mp (by rw [hw]; simp)
    obtain ⟨hfound', hnone'⟩ := searchparen_spec casefold (hs.setDot b) hu hmem
    have hthere := (h.there b hb).2
    by_contra hno
    by_cases hany : ∃ a, e.Reads casefold b a
    · obtain ⟨a, ha⟩ := hany
      have heq := (hfound' a ha).symm.trans hthere
      have hdot' : a = e.dot := congrArg (fun r => r.1.dot) (Option.some.inj heq)
      exact hno (hdot' ▸ ha)
    · have heq := (hnone' (not_exists.mp hany)).symm.trans hthere
      exact Bool.noConfusion (congrArg Prod.snd (Option.some.inj heq))

/-- Characters of one byte are read as they stand there. -/
theorem agrees_of_single (hs : Sound e) (h : ∀ p ∈ e.lines, ∀ c ∈ e.chars p, Single c) :
    e.AgreesOnWay := by
  have hread : ∀ a ∈ e.places, e.symbol a = [e.reading a] ∧
      e.reading a &&& 0x7f = e.reading a := by
    intro a ha
    obtain ⟨hp, -⟩ := mem_places.mp ha
    have hlen := wllength_eq e a.p (hs.inline _ hp)
    by_cases hlt : a.o < (e.line a.p).wllength
    · have hmem := List.getElem_mem (hlen ▸ hlt)
      have hsplit : (e.chars a.p).take a.o ++
          (e.chars a.p)[a.o] :: (e.chars a.p).drop (a.o + 1) = e.chars a.p := by
        rw [← List.drop_eq_getElem_cons, List.take_append_drop]
      obtain ⟨b, hb, hchar⟩ := h a.p hp _ hmem
      have hget := lgetc_at (v := (e.chars a.p).drop (a.o + 1))
        (fun c hc => h a.p hp c (List.mem_of_mem_take (i := a.o) hc))
        (hchar ▸ List.cons_ne_nil b [])
      rw [hsplit, List.length_take, Nat.min_eq_left (by omega), hchar] at hget
      rw [Ed.symbol, Ed.reading, if_pos hlt, (hs.chars hp).2, hget, List.getD_eq_getElem?_getD,
        List.getElem?_eq_getElem (hlen ▸ hlt), Option.getD_some, hchar]
      refine ⟨rfl, ?_⟩
      change b &&& 0x7f = b
      rw [← UInt8.toNat_inj, UInt8.toNat_and]
      exact (Nat.and_two_pow_sub_one_eq_mod b.toNat 7).trans (Nat.mod_eq_of_lt hb)
    · rw [Ed.symbol, Ed.reading, if_neg hlt, List.getD_eq_getElem?_getD,
        List.getElem?_eq_none (by omega), Option.getD_none]
      exact ⟨rfl, rfl⟩
  intro p _ fw l r _ hw a ha
  have hmem : a ∈ e.places := by
    have hway : a ∈ e.way fw := by
      rw [hw]
      exact List.mem_append_right l (List.cons_subset_cons e.dot (scanned_subset _ _) ha)
    exact mem_way.mp hway
  obtain ⟨hsym, hmask⟩ := hread a hmem
  unfold Ed.Agrees
  split
  · exact hsym
  · rename_i hnone
    rw [hsym, List.singleton_inj, List.singleton_inj, not_or] at hnone
    rw [hmask]
    exact hnone

instance : DecidableRel apart := fun b b' =>
  inferInstanceAs (Decidable (¬ (b = 0x2f ∧ (b' = 0x2f ∨ b' = 0x2a)) ∧ ¬ (b = 0x2a ∧ b' = 0x2f)))

instance : DecidablePred plainByte := fun b =>
  inferInstanceAs (Decidable (b ≠ 0x22 ∧ b ≠ 0x27 ∧ b ≠ 0x5c))

instance (e : Ed) : Decidable e.Undelimited :=
  inferInstanceAs (Decidable (∀ p ∈ e.lines, _ ∧ _))

/-- A bracket that is closed on the next line. -/
def nested : Ed := Ed.holding [[0x28, 0x61], [0x28, 0x29, 0x29]] ⟨2, 0⟩ ⟨2, 0⟩

theorem sound_nested : Sound nested := by
  refine Ed.sound_holding fun t ht => ?_
  have hall : ∀ t ∈ ([[0x28, 0x61], [0x28, 0x29, 0x29]] : List (List Byte)),
      (∀ c ∈ t.map fun b => [b], IsUChar c) ∧ (nl ∉ t.map fun b => [b]) ∧
        t = (t.map fun b => [b]).flatten := by decide
  obtain ⟨hwhole, hnl, hflat⟩ := hall t ht
  exact ⟨_, ⟨hwhole, hnl⟩, hflat⟩

/-- The search goes to the second line and back. -/
theorem searchparen_pairs_nested : PairsUp true nested := by
  have hbr : ∃ p ∈ bracket, ∃ fw, nested.isAt (side p fw) nested.dot = true :=
    ⟨(0x28, 0x29), List.mem_cons_self, true, by decide⟩
  refine (searchparen_pairs_iff sound_nested (by decide +kernel) (by decide +kernel) hbr).2
    (agrees_of_single sound_nested ?_)
  have hall : ∀ p ∈ nested.lines, ∀ c ∈ nested.chars p, c.length = 1 ∧ c.headD 0 < 0x80 := by
    decide
  intro p hp c hc
  obtain ⟨hlen, hlt⟩ := hall p hp c hc
  obtain ⟨b, rfl⟩ := List.length_eq_one_iff.mp hlen
  exact ⟨b, hlt, rfl⟩

/-- A character of two bytes, and a bracket that is closed behind it. -/
def shifted : Ed := Ed.holding [[0xc3, 0xa9, 0x28, 0x61, 0x29]] ⟨2, 1⟩ ⟨2, 1⟩

theorem sound_shifted : Sound shifted := by
  refine Ed.sound_holding fun t ht => ?_
  have hwhole : ∀ c ∈ ([[0xc3, 0xa9], [0x28], [0x61], [0x29]] : List UChar), IsUChar c := by
    decide
  refine ⟨[[0xc3, 0xa9], [0x28], [0x61], [0x29]], ⟨hwhole, by decide⟩, ?_⟩
  rw [List.mem_singleton.mp ht]
  rfl

/-- The byte read at the cursor is the second one of the character in front of it, and the
bracket is not found. -/
theorem searchparen_misses : Sound shifted ∧ shifted.Undelimited ∧
    shifted.dot ∈ shifted.places ∧
    (∃ p ∈ bracket, ∃ fw, shifted.isAt (side p fw) shifted.dot = true) ∧
    ¬ PairsUp true shifted := by
  have hdot : shifted.isAt (side (0x28, 0x29) true) shifted.dot = true := by decide
  refine ⟨sound_shifted, by decide +kernel, by decide +kernel,
    ⟨(0x28, 0x29), List.mem_cons_self, true, hdot⟩, fun h => ?_⟩
  have hpartner : shifted.Partner shifted.dot ⟨2, 3⟩ :=
    ⟨(0x28, 0x29), List.mem_cons_self, true, hdot, [⟨2, 0⟩], [⟨2, 2⟩], [⟨2, 4⟩], by decide,
      by decide, by decide⟩
  have hthere := congrArg (Option.map Prod.snd) (h.there _ hpartner).1
  have hmissed : (searchparen true shifted).map Prod.snd = some false := by decide
  exact Bool.noConfusion (Option.some.inj (hmissed.symm.trans hthere))

end Emacs
