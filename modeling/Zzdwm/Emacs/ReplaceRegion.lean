import Zzdwm.Emacs.Replace

/-!
# Replacing in the region (`region.c`)

`replaceregion` goes from match to match, from the start of the region on.  Where the
region ends, it knows by the line of the cursor and an offset in it, and goes on with
both while that line is being edited.

* `replaceregion` — with the query for each match;
* `Shows.behind_iff` — the test for the end of the region, in terms of the text;
* `LineHolds` — the line of the cursor survives a replacement, and the offset is right;
* `replaceregion_replaces` — **the matches in the region are replaced** if the mark comes
  first and the line of the cursor holds, and for strings within a line only then.
-/

namespace Emacs

open Journal (Zipper)
open Matching

section Source

variable (w : Wctype) (casefold : Bool) (junk : Nat)

/-- What the loop of `replaceregion` does with a match, after the query. -/
inductive Query
  | stop
  | skip
  | put (replace_all : Bool)

/-- The query, and the key `c` that answers it; with `replace_all` there is none. -/
def query (replace_all : Bool) (c : Nat) : Query :=
  if replace_all then .put true
  else if c = 7 then .stop
  else if c = 33 then .put true
  else if c ≠ 121 ∧ c ≠ 89 ∧ c ≠ 32 then .skip
  else .put false

/-- The loop of `replaceregion`, and what follows it.  `limit_p` is also `orig_p`, and
`keys` are the answers to come.  Every round passes a character. -/
def replaceregionLoop (upat : List Nat) (rpat : List Byte) (limit_p : LineId) :
    Nat → (Nat → Nat) → Bool → Int → Int → Ed → Ed × Bool
  | 0, _, _, _, orig_o, e => (e.setDot ⟨limit_p, orig_o.toNat⟩, true)
  | f + 1, keys, replace_all, limit_o, orig_o, e =>
      match e.forwsrch w casefold upat with
      | none => (e.setDot ⟨limit_p, orig_o.toNat⟩, true)
      | some pos =>
          let e := e.setDot pos
          if e.lcmp e.dot.p limit_p > 0 ∨ e.dot.p = limit_p ∧ (e.dot.o : Int) > limit_o then
            (e.setDot ⟨limit_p, orig_o.toNat⟩, true)
          else
            let rest := if replace_all then keys else keys ∘ Nat.succ
            match query replace_all (keys 0) with
            | .stop => (e.setDot ⟨limit_p, orig_o.toNat⟩, true)
            | .skip => replaceregionLoop upat rpat limit_p f rest replace_all limit_o orig_o e
            | .put replace_all =>
                let grown : Int := (unslen rpat : Int) - upat.length
                let limit_o := if e.dot.p = limit_p then limit_o + grown else limit_o
                match lreplace w casefold junk upat.length rpat false e with
                | (e, false) => (e.setDot ⟨limit_p, orig_o.toNat⟩, false)
                | (e, true) =>
                    let orig_o :=
                      if e.dot.p = limit_p ∧ (e.dot.o : Int) < orig_o then orig_o + grown
                      else orig_o
                    replaceregionLoop upat rpat limit_p f rest replace_all limit_o orig_o e

/-- `replaceregion`, with the answers to its two prompts, and to the queries. -/
def replaceregion (pat rpat : List Byte) (keys : Nat → Nat) (e : Ed) : Ed × Bool :=
  if e.curwp.w_mark.p = null then (e, false)
  else
    match getregion e ⟨⟨null, 0⟩, 0⟩ with
    | (_, some _) => (e, false)
    | (region, none) =>
        replaceregionLoop w casefold junk (ucodes pat) rpat e.dot.p (e.symbols.length + 1) keys
          false e.dot.o e.dot.o (e.setDot region.r_pos)

end Source

variable {w : Wctype} {casefold : Bool} {e : Ed} {l m x y : List UChar} {a b : POS}
  {as bs : List LineId} {p q : LineId}

/-! ## The end of the region -/

@[simp] theorem setDot_lcmp (e : Ed) (pos : POS) : (e.setDot pos).lcmp = e.lcmp := rfl

@[simp] theorem setDot_setDot (e : Ed) (a b : POS) : (e.setDot a).setDot b = e.setDot b := rfl

/-- `lcmp` tells which of two lines comes last. -/
theorem Sound.lcmp_pos (h : Sound e) (hp : p ∈ e.lines) (hq : q ∈ e.lines) :
    e.lcmp p q > 0 ↔ e.lines.idxOf q < e.lines.idxOf p := by
  obtain ⟨as, bs, hl⟩ := List.append_of_mem hp
  obtain ⟨has, -, -⟩ := h.around hl
  have hnd := h.nodup
  have hidx : e.lines.idxOf p = as.length := by
    rw [hl, List.idxOf_append_of_notMem has, List.idxOf_cons_self, Nat.add_zero]
  unfold Ed.lcmp
  rw [hidx]
  rw [hl] at hq hnd ⊢
  rw [Circular.dropWhile_ne_append has]
  split_ifs with heq hmem
  · subst heq
    simp [List.idxOf_append_of_notMem has]
  · have hnot : q ∉ as := fun hin => (List.nodup_append.mp hnd).2.2 q hin q hmem rfl
    simp [List.idxOf_append_of_notMem hnot]
  · have hin : q ∈ as := (List.mem_append.mp hq).resolve_right hmem
    simp [List.idxOf_append_of_mem hin, List.idxOf_lt_length_of_mem hin]

/-- **The test for the end of the region**: the first place is behind the second one. -/
theorem Shows.behind_iff (ha : Shows (e.setDot a) ⟨l, x⟩) (hb : Shows (e.setDot b) ⟨m, y⟩) :
    e.lcmp a.p b.p > 0 ∨ a.p = b.p ∧ a.o > b.o ↔ m.length < l.length := by
  have hlen : ∀ {c : POS} {l x : List UChar}, Shows (e.setDot c) ⟨l, x⟩ →
      l.length = Circular.before (fun p => (e.line p).wllength + 1) e.lines c.p + c.o ∧
        c.o ≤ (e.line c.p).wllength := by
    intro c l x h
    refine ⟨h.passed, ?_⟩
    have hsize := wllength_eq (e.setDot c) c.p (h.sound.inline c.p h.mem)
    have ho := h.offset
    exact ho.trans hsize.ge
  obtain ⟨hla, hoa⟩ := hlen ha
  obtain ⟨hlb, hob⟩ := hlen hb
  have hlcmp : e.lcmp a.p b.p > 0 ↔ e.lines.idxOf b.p < e.lines.idxOf a.p :=
    ha.sound.lcmp_pos ha.mem hb.mem
  rw [hlcmp, hla, hlb]
  rcases Nat.lt_trichotomy (e.lines.idxOf b.p) (e.lines.idxOf a.p) with hlt | heq | hgt
  · have hbefore : e.charsBefore b.p + ((e.line b.p).wllength + 1) ≤ e.charsBefore a.p :=
      Circular.before_lt hb.mem hlt
    refine iff_of_true (.inl hlt) ?_
    change e.charsBefore b.p + b.o < e.charsBefore a.p + a.o
    omega
  · have hp : b.p = a.p := (List.idxOf_inj hb.mem).mp heq
    rw [hp]
    constructor
    · rintro (hlt | ⟨-, ho⟩)
      · exact absurd hlt (Nat.lt_irrefl _)
      · exact Nat.add_lt_add_left ho _
    · intro hlt
      exact .inr ⟨rfl, Nat.lt_of_add_lt_add_left hlt⟩
  · have hbefore : e.charsBefore a.p + ((e.line a.p).wllength + 1) ≤ e.charsBefore b.p :=
      Circular.before_lt ha.mem hgt
    have hne : a.p ≠ b.p := fun heq => by
      rw [heq] at hgt
      exact Nat.lt_irrefl _ hgt
    refine iff_of_false (not_or.mpr ⟨Nat.not_lt.mpr hgt.le, fun h => hne h.1⟩) ?_
    change ¬ e.charsBefore b.p + b.o < e.charsBefore a.p + a.o
    omega

theorem row_pos_iff : 0 < Journal.row isBreak m ↔ nl ∈ m := by
  rw [Journal.row, List.countP_pos_iff]
  simp [isBreak]

/-- Two places are on one line if there is no newline between them. -/
theorem Shows.same_line_iff (ha : Shows (e.setDot a) ⟨l, m ++ x⟩)
    (hb : Shows (e.setDot b) ⟨l ++ m, x⟩) : a.p = b.p ↔ nl ∉ m := by
  have hidx : ∀ {c : POS} {z : Zipper UChar}, Shows (e.setDot c) z →
      e.lines.idxOf c.p = Journal.row isBreak z.left := by
    intro c z h
    have hlt : e.lines.idxOf c.p < e.lines.length := List.idxOf_lt_length_of_mem h.mem
    rw [← h.position.1]
    exact (Nat.min_eq_left (Nat.le_sub_one_of_lt hlt)).symm
  have hrows : e.lines.idxOf b.p = e.lines.idxOf a.p + Journal.row isBreak m := by
    rw [hidx ha, hidx hb, Journal.row_append]
  have hinj : e.lines.idxOf a.p = e.lines.idxOf b.p ↔ a.p = b.p := List.idxOf_inj ha.mem
  rw [← row_pos_iff, ← hinj]
  omega

/-! ## The line of the cursor -/

/-- The line that a match ends on survives the replacement, and what follows the match
there moves by the difference of the lengths.  `size` is the room of the line, and `l`
and `x` are the text around the match. -/
inductive LineHolds (size : Nat) (l m r x : List UChar) : Prop
  | inline (hm : nl ∉ m) (hr : nl ∉ r) (hfits : MatchFits size (lineFront l) m r (lineRest x))
  | aligned (m₁ m₂ r₁ r₂ : List UChar) (hm : m = m₁ ++ nl :: m₂) (hr : r = r₁ ++ nl :: r₂)
      (hlen : m₁.length = r₁.length) (hlen' : m₂.length = r₂.length) (hm₂ : nl ∉ m₂)
      (hr₂ : nl ∉ r₂) (hroom : Roomy size (lineRest x) [] m₂ r₂)

variable {t : Rtype} {cs : List Nat} {ws : List UChar}

theorem spelled_length (t : Rtype) (cs : List Nat) : (spelled w t cs).length = cs.length := by
  induction cs generalizing t with
  | nil => rfl
  | cons n cs ih => exact congrArg Nat.succ (ih t.next)

/-- A character of the replacement, and when it is written. -/
theorem spelled_split {r₁ r₂ : List UChar} {d : UChar} (h : spelled w t cs = r₁ ++ d :: r₂) :
    ∃ (cs₁ : List Nat) (c : Nat) (cs₂ : List Nat) (t' : Rtype), cs = cs₁ ++ c :: cs₂ ∧
      spelled w t cs₁ = r₁ ∧ uputc (t'.put w c) = d ∧ spelled w t'.next cs₂ = r₂ ∧
      ∀ e, writeLoop w t cs e =
        writeLoop w t'.next cs₂ (writeChar (t'.put w c) (writeLoop w t cs₁ e)) := by
  induction r₁ generalizing t cs with
  | nil =>
      cases cs with
      | nil => cases h
      | cons c cs =>
          obtain ⟨hc, hcs⟩ := List.cons.inj h
          exact ⟨[], c, cs, t, rfl, rfl, hc, hcs, fun _ => rfl⟩
  | cons b r₁ ih =>
      cases cs with
      | nil => cases h
      | cons c cs =>
          obtain ⟨hc, hcs⟩ := List.cons.inj h
          obtain ⟨cs₁, c', cs₂, t', rfl, h₁, hd, h₂, hloop⟩ := ih hcs
          refine ⟨c :: cs₁, c', cs₂, t', rfl, ?_, hd, h₂, fun e => hloop _⟩
          rw [spelled, hc, h₁]

/-- The foot of the lines that begins where the text `x` does. -/
theorem Foot.begins {e₀ : Ed} (hf : Foot e₀ (p :: bs) e)
    (h : Shows (e.setDot a) ⟨l, x⟩) (hx : x = (p :: bs).flatMap e₀.row) : a = ⟨p, 0⟩ := by
  obtain ⟨xs, hxs⟩ := hf.lines
  have hat : Shows (e.setDot ⟨p, 0⟩) _ := h.sound.shows_at (p := p) (o := 0) hxs (Nat.zero_le _)
  refine Shows.pos_unique h ?_
  rw [List.take_zero, List.append_nil, List.drop_zero] at hat
  have hrows : e.chars p ++ nl :: bs.flatMap e.row = x := by
    rw [hx, ← hf.rows, List.flatMap_cons, Ed.row, List.append_assoc, List.singleton_append]
  have hat' : Shows (e.setDot ⟨p, 0⟩) ⟨xs.flatMap e.row, x⟩ := by
    rw [← hrows]
    exact hat
  have htext : l ++ x = xs.flatMap e.row ++ x := h.text.trans hat'.text.symm
  rw [List.append_cancel_right htext]
  exact hat'

variable (w casefold) in
/-- **A line that holds** is the line of the cursor afterwards, with the same room. -/
theorem lreplace_holds (h : Shows e ⟨l ++ m, x⟩) (hx : x ≠ []) (hro : e.bfro = false)
    (junk : Nat) (hws : AllUChars ws) (f : Bool)
    (hholds : LineHolds (e.line e.dot.p).l_size l m
      (spelled w (capital w junk (f || !casefold) (m ++ x)) (ws.map code)) x) :
    (lreplace w casefold junk m.length ws.flatten f e).1.dot.p = e.dot.p ∧
      ((lreplace w casefold junk m.length ws.flatten f e).1.line e.dot.p).l_size =
        (e.line e.dot.p).l_size := by
  cases hholds with
  | inline hm hr hfits =>
      have hstays := lreplace_stays w casefold h hx hro junk hws f hm hr hfits
      exact ⟨hstays.here, hstays.room⟩
  | aligned m₁ m₂ r₁ r₂ hm hr hlen hlen' hm₂ hr₂ hroom =>
      obtain ⟨pos, hat, heq⟩ := lreplace_eq w casefold h hx hro junk hws f
      obtain ⟨cs₁, c, cs₂, t, hcs, h₁, hd, h₂, hloop⟩ := spelled_split hr
      have hle : ∀ n ∈ cs₁ ++ c :: cs₂, n ≤ 0x7fffffff := hcs ▸ codes_le ws
      have hlen₁ : m₁.length = cs₁.length := by rw [hlen, ← h₁, spelled_length]
      have hlen₂ : m₂.length = cs₂.length := by rw [hlen', ← h₂, spelled_length]
      have hsize : m.length = ws.length := by
        have hmap : (ws.map code).length = ws.length := List.length_map _
        rw [← hmap, hcs, hm]
        simp only [List.length_append, List.length_cons]
        omega
      -- nothing is deleted or inserted before the loop
      have hready : Shows (ready m.length ws.length pos e) ⟨l, m ++ x⟩ ∧
          (ready m.length ws.length pos e).lines = e.lines ∧
          (ready m.length ws.length pos e).line = e.line := by
        have hpad : pad m.length ws.length (e.moved pos) = e.moved pos := by
          unfold pad
          rw [if_neg (by omega), if_neg (by omega)]
        unfold ready
        rw [hpad]
        refine ⟨(hat.saveundo ..).saveundo .., ?_, ?_⟩
        · exact (saveundo_lines ..).trans (saveundo_lines ..)
        · exact (saveundo_line ..).trans (saveundo_line ..)
      have hsro := (ready_bfro m.length ws.length pos e).trans hro
      rw [heq, hloop]
      generalize ready m.length ws.length pos e = s at hready hsro ⊢
      obtain ⟨hs, hlines, hline⟩ := hready
      rw [hm, List.append_assoc, List.cons_append] at hs
      -- the line of the cursor begins behind the newline
      obtain ⟨as, bs, hl, hz⟩ := h.split
      rw [Zipper.mk.injEq] at hz
      obtain ⟨hleft, hright⟩ := hz
      have hm₂' : m₂ = (e.chars e.dot.p).take e.dot.o := by
        have ho : e.dot.o = m₂.length := by
          rw [h.position.2, hm, ← List.append_assoc, Journal.col_append_break (by rfl),
            Journal.col_of_row (noBreak_row hm₂)]
        have hassoc : l ++ (m₁ ++ nl :: m₂) = (l ++ m₁ ++ [nl]) ++ m₂ := by simp
        rw [hm, hassoc] at hleft
        refine (List.append_inj' hleft ?_).2
        have hoff := h.offset
        rw [List.length_take, ho]
        omega
      have hrows : (e.dot.p :: bs).flatMap e.row = m₂ ++ x := by
        rw [List.flatMap_cons, Ed.row, hm₂', hright, ← List.append_assoc, List.take_append_drop,
          List.append_assoc, List.singleton_append]
      have hfoot : Foot e (e.dot.p :: bs) s := ⟨⟨as, hlines.trans hl⟩, fun q _ => by rw [hline]⟩
      have hlt : ((e.dot.p :: bs).flatMap e.row).length < (nl :: (m₂ ++ x)).length := by
        rw [hrows]
        exact Nat.lt_succ_self _
      have hle₁ : ∀ n ∈ cs₁, n ≤ 0x7fffffff := fun n hn => hle n (List.mem_append_left _ hn)
      have hfoot₁ := writeLoop_foot (w := w) (t := capital w junk (f || !casefold) (m ++ x)) hfoot hs
        hlen₁ hsro hle₁ hlt
      have hs₁ := writeLoop_shows (w := w) (t := capital w junk (f || !casefold) (m ++ x)) hs hlen₁
        (List.cons_ne_nil _ _) hsro hle₁
      have hsro₁ := (writeLoop_bfro (w := w) (capital w junk (f || !casefold) (m ++ x)) cs₁ s).trans hsro
      rw [h₁] at hs₁
      generalize writeLoop w (capital w junk (f || !casefold) (m ++ x)) cs₁ s = s₁ at *
      -- the newline is passed
      have hten : t.put w c = 10 := by
        by_contra hne
        exact uputc_ne_nl hne (put_le (hle c (by simp))) hd
      have hend := hs₁.eol_iff.mpr (hs₁.line_rest.symm.trans (by simp))
      obtain ⟨pos', hforw, hat'⟩ := hs₁.forw (by simp [hx]) hend
      have hpos' : pos' = ⟨e.dot.p, 0⟩ := hfoot₁.begins hat' hrows.symm
      subst hpos'
      have hstep : writeChar (t.put w c) s₁ = s₁.setDot ⟨e.dot.p, 0⟩ := by
        unfold writeChar
        rw [if_pos hten, if_pos hend, hforw]
      have hroom₁ : ((s₁.setDot ⟨e.dot.p, 0⟩).line (s₁.setDot ⟨e.dot.p, 0⟩).dot.p).l_size =
          (e.line e.dot.p).l_size := congrArg LINE.l_size (hfoot₁.same _ List.mem_cons_self)
      have hfront : lineFront (l ++ r₁ ++ [nl]) = [] := by
        unfold lineFront
        rw [List.rtakeWhile_concat_neg]
        simp
      have hstays := writeLoop_stays (w := w) (t := t.next) hat' hlen₂ hx hsro₁
        (fun n hn => hle n (by simp [hn])) hm₂ (h₂.symm ▸ hr₂)
        (by rw [hroom₁, hfront, h₂]; exact hroom)
      rw [hstep]
      exact ⟨hstays.here, hstays.room.trans hroom₁⟩

/-! ## One round -/

/-- What a match is replaced by, with the text from the match on. -/
def replacement (w : Wctype) (casefold : Bool) (junk : Nat) (ws x : List UChar) : List UChar :=
  spelled w (capital w junk (!casefold) x) (ws.map code)

/-- The state at the start of a round, when everything is replaced: the cursor is between
the texts `l` and `t`, and the text `u` follows the region. -/
structure Replacing (e : Ed) (limit_p : LineId) (size : Nat) (limit_o : Int) (l t u : List UChar) :
    Prop where
  here : Shows e ⟨l, t ++ u⟩
  limit : ∃ o : Nat, limit_o = o ∧ Shows (e.setDot ⟨limit_p, o⟩) ⟨l ++ t, u⟩
  room : (e.line limit_p).l_size = size
  writable : e.bfro = false

variable {upat : List Nat} {limit_p : LineId} {size : Nat} {limit_o : Int} {b r u : List UChar}
  {t : List UChar} {junk : Nat}

variable (w casefold) in
/-- What the search finds from the cursor on: the first match in the region, or a match
that ends behind the region, or none. -/
theorem Replacing.finds (h : Replacing e limit_p size limit_o l t u) (hne : upat ≠ []) :
    match firstMatch (same w casefold) upat t with
    | none => ∀ pos, e.forwsrch w casefold upat = some pos →
        e.lcmp pos.p limit_p > 0 ∨ pos.p = limit_p ∧ (pos.o : Int) > limit_o
    | some (b, r) => ∃ pos, e.forwsrch w casefold upat = some pos ∧
        Shows (e.setDot pos) ⟨l ++ b ++ r.take upat.length, r.drop upat.length ++ u⟩ ∧
        ¬ (e.lcmp pos.p limit_p > 0 ∨ pos.p = limit_p ∧ (pos.o : Int) > limit_o) := by
  obtain ⟨o, rfl, hlimit⟩ := h.limit
  obtain ⟨t₀, hright, hfinds⟩ := @forwsrch_spec w casefold _ _ h.here upat hne
  obtain ⟨u, c, rfl⟩ : ∃ v c, u = v ++ [c] := by
    rcases List.eq_nil_or_concat u with rfl | ⟨v, c, rfl⟩
    · exact absurd rfl hlimit.right_ne
    · exact ⟨v, c, List.concat_eq_append⟩
  dsimp only at hright hfinds
  rw [← List.append_assoc] at hright
  obtain ⟨rfl, hc⟩ := List.append_inj' hright rfl
  unfold Finds at hfinds
  -- a place behind the end of the region
  have hbehind : ∀ {pos : POS} {m x : List UChar}, Shows (e.setDot pos) ⟨m, x⟩ →
      (e.lcmp pos.p limit_p > 0 ∨ pos.p = limit_p ∧ (pos.o : Int) > o ↔
        (l ++ t).length < m.length) := by
    intro pos m x hm
    rw [← hm.behind_iff hlimit]
    simp only [gt_iff_lt, Int.ofNat_lt]
  cases hfirst : firstMatch (same w casefold) upat t with
  | none =>
      intro pos hpos
      cases hall : firstMatch (same w casefold) upat (t ++ u) with
      | none =>
          rw [hall] at hfinds
          rw [hfinds] at hpos
          cases hpos
      | some br =>
          obtain ⟨b, r⟩ := br
          rw [hall] at hfinds
          obtain ⟨pos', hpos', hat⟩ := hfinds
          obtain rfl : pos' = pos := Option.some.inj (hpos'.symm.trans hpos)
          have hlt := first_append_none hfirst hall
          have hlen := heads_length (first_split hall).2
          refine (hbehind hat).mpr ?_
          rw [List.length_append, List.length_append, List.length_append, List.length_take]
          omega
  | some br =>
      obtain ⟨b, r⟩ := br
      obtain ⟨hsplit, hheads⟩ := first_split hfirst
      have hlen := heads_length hheads
      rw [first_append hfirst] at hfinds
      obtain ⟨pos, hpos, hat⟩ := hfinds
      rw [List.take_append_of_le_length hlen, List.drop_append_of_le_length hlen,
        List.append_assoc _ u, ← hc] at hat
      refine ⟨pos, hpos, hat, fun hgt => ?_⟩
      have hlt := (hbehind hat).mp hgt
      rw [hsplit, List.length_append, List.length_append, List.length_append, List.length_append,
        List.length_take] at hlt
      omega

/-- Going forward within the line. -/
theorem Shows.advance (h : Shows e ⟨l, m ++ x⟩) (hm : nl ∉ m) :
    Shows (e.setDot ⟨e.dot.p, e.dot.o + m.length⟩) ⟨l ++ m, x⟩ := by
  obtain ⟨as, bs, hl, hz⟩ := h.split
  rw [Zipper.mk.injEq] at hz
  obtain ⟨hleft, hright⟩ := hz
  obtain ⟨c, hdrop, hx⟩ : ∃ c, (e.chars e.dot.p).drop e.dot.o = m ++ c ∧
      x = c ++ nl :: bs.flatMap e.row := by
    rcases List.append_eq_append_iff.mp hright with ⟨c, hc, hx⟩ | ⟨c, hc, hx⟩
    · exact ⟨c, hc, hx⟩
    · cases c with
      | nil => exact ⟨[], by rw [hc]; simp, by rw [← List.nil_append x, ← hx]; rfl⟩
      | cons d c =>
          obtain ⟨rfl, -⟩ := List.cons.inj hx
          exact absurd (by rw [hc]; simp) hm
  have hsize := congrArg List.length hdrop
  rw [List.length_drop, List.length_append] at hsize
  have hat := h.sound.shows_at hl (o := e.dot.o + m.length) (by
    have := h.offset
    omega)
  have htake : (e.chars e.dot.p).take (e.dot.o + m.length) = (e.chars e.dot.p).take e.dot.o ++ m := by
    rw [List.take_add, hdrop, List.take_left]
  have hdrop' : (e.chars e.dot.p).drop (e.dot.o + m.length) = c := by
    rw [← List.drop_drop, hdrop, List.drop_left]
  rw [htake, hdrop', ← List.append_assoc, ← hleft, ← hx] at hat
  exact hat

/-- The characters after the last newline of a replacement that holds. -/
theorem LineHolds.col {size : Nat} {r : List UChar} (h : LineHolds size l m r x) :
    Journal.col isBreak (l ++ r) + m.length = Journal.col isBreak (l ++ m) + r.length := by
  cases h with
  | inline hm hr =>
      rw [Journal.col_append_of_row (noBreak_row hm), Journal.col_append_of_row (noBreak_row hr)]
      omega
  | aligned m₁ m₂ r₁ r₂ hm hr hlen hlen' hm₂ hr₂ =>
      rw [hm, hr, ← List.append_assoc, ← List.append_assoc, Journal.col_append_break (by rfl),
        Journal.col_append_break (by rfl), Journal.col_of_row (noBreak_row hm₂),
        Journal.col_of_row (noBreak_row hr₂)]
      simp only [List.length_append, List.length_cons]
      omega

/-- The column behind a text with a newline in it. -/
theorem col_lt_of_mem (h : nl ∈ m) : Journal.col isBreak (l ++ m) < m.length := by
  obtain ⟨v₁, v₂, rfl⟩ := List.append_of_mem h
  rw [← List.append_assoc, Journal.col_append_break (by rfl), List.length_append, List.length_cons]
  have hle : Journal.col isBreak v₂ ≤ v₂.length :=
    (List.takeWhile_prefix _).length_le.trans (List.length_reverse).le
  omega

/-- Where the text `u` begins in the foot of the lines. -/
theorem Foot.shows_at {e₀ : Ed} {o : Nat} (hf : Foot e₀ (p :: bs) e) (h : Shows e ⟨l, m ++ u⟩)
    (ho : o ≤ (e₀.chars p).length) (hu : u = (e₀.chars p).drop o ++ nl :: bs.flatMap e₀.row) :
    Shows (e.setDot ⟨p, o⟩) ⟨l ++ m, u⟩ := by
  obtain ⟨xs, hxs⟩ := hf.lines
  have hchars : e.chars p = e₀.chars p := congrArg uchars (congrArg LINE.l_text
    (hf.same p List.mem_cons_self))
  have hrows : bs.flatMap e.row = bs.flatMap e₀.row :=
    flatMap_row_congr fun q hq => hf.same q (List.mem_cons_of_mem _ hq)
  have hat := h.sound.shows_at hxs (o := o) (hchars ▸ ho)
  rw [hchars, hrows, ← hu] at hat
  have htext : l ++ m ++ u = (xs.flatMap e.row ++ (e₀.chars p).take o) ++ u := by
    rw [List.append_assoc]
    exact h.text.trans hat.text.symm
  rw [List.append_cancel_right htext]
  exact hat

/-- The end of the region, from the end of a match. -/
theorem Replacing.limit_behind (h : Replacing e limit_p size limit_o l t u)
    (hfirst : firstMatch (same w casefold) upat t = some (b, r)) :
    ∃ o : Nat, limit_o = o ∧ Shows (e.setDot ⟨limit_p, o⟩)
      ⟨l ++ b ++ r.take upat.length ++ r.drop upat.length, u⟩ := by
  obtain ⟨o, ho, hlimit⟩ := h.limit
  refine ⟨o, ho, ?_⟩
  rw [List.append_assoc _ _ (r.drop _), List.take_append_drop, List.append_assoc l,
    ← (first_split hfirst).1]
  exact hlimit

/-- **One round**: the match is replaced, and the region still ends where it did. -/
theorem Replacing.next (h : Replacing e limit_p size limit_o l t u) (hws : AllUChars ws)
    (hfirst : firstMatch (same w casefold) upat t = some (b, r)) {pos : POS}
    (hat : Shows (e.setDot pos) ⟨l ++ b ++ r.take upat.length, r.drop upat.length ++ u⟩)
    (hholds : nl ∈ r.drop upat.length ∨
      LineHolds size (l ++ b) (r.take upat.length) (replacement w casefold junk ws (r ++ u))
        (r.drop upat.length ++ u)) :
    (lreplace w casefold junk upat.length ws.flatten false (e.setDot pos)).2 = true ∧
      Replacing (lreplace w casefold junk upat.length ws.flatten false (e.setDot pos)).1 limit_p size
        (if pos.p = limit_p then limit_o + ((ws.length : Int) - upat.length) else limit_o)
        (l ++ b ++ replacement w casefold junk ws (r ++ u)) (r.drop upat.length) u := by
  obtain ⟨o, rfl, hlimit'⟩ := h.limit_behind hfirst
  have hlen := heads_length (first_split hfirst).2
  have hu : u ≠ [] := hlimit'.right_ne
  have hsize : (r.take upat.length).length = upat.length := by rw [List.length_take]; omega
  have htext : r.take upat.length ++ (r.drop upat.length ++ u) = r ++ u := by
    rw [← List.append_assoc, List.take_append_drop]
  have hx : r.drop upat.length ++ u ≠ [] := by simp [hu]
  have hrep := lreplace_shows w casefold hat hx h.writable junk hws false
  have hsame := hat.same_line_iff hlimit'
  rw [hsize, htext] at hrep
  obtain ⟨hshows, htrue, hro⟩ := hrep
  by_cases hnl : nl ∈ r.drop upat.length
  · -- the match ends above the line of the cursor
    have hne : pos.p ≠ limit_p := fun heq => hsame.mp heq hnl
    obtain ⟨as, bs, hl, hz⟩ := hlimit'.split
    rw [Zipper.mk.injEq] at hz
    have ho : o ≤ (e.chars limit_p).length := hlimit'.offset
    have hcol : o < (r.drop upat.length).length := by
      have hpos : o = Journal.col isBreak _ := hlimit'.position.2
      rw [hpos]
      exact col_lt_of_mem hnl
    have hright : u = (e.chars limit_p).drop o ++ nl :: bs.flatMap e.row := hz.2
    have hbegin : Foot e (limit_p :: bs) (e.setDot pos) := ⟨⟨as, hl⟩, fun _ _ => rfl⟩
    have hfoot := lreplace_foot w casefold hbegin hat h.writable junk hws false (by
      rw [List.length_drop] at hcol
      rw [List.length_append, hright, List.flatMap_cons, Ed.row]
      simp only [List.length_append, List.length_cons, List.length_nil, List.length_drop]
      omega)
    rw [hsize] at hfoot
    rw [if_neg hne]
    refine ⟨htrue, hshows, ⟨o, rfl, hfoot.shows_at hshows ho hright⟩, ?_, hro⟩
    rw [hfoot.same limit_p List.mem_cons_self, h.room]
  · -- the match ends on the line of the cursor
    have heq : pos.p = limit_p := hsame.mpr hnl
    have hline := hholds.resolve_left hnl
    have hkept := lreplace_holds w casefold hat hx h.writable junk hws false (by
      rw [htext]
      change LineHolds (e.line pos.p).l_size _ _ _ _
      rw [heq, h.room]
      exact hline)
    rw [hsize] at hkept
    obtain ⟨hhere, hroom⟩ := hkept
    have hhere : _ = limit_p := hhere.trans heq
    have hend := hshows.advance hnl
    have hcol := hline.col
    have ho : o = Journal.col isBreak _ := hlimit'.position.2
    rw [Journal.col_append_of_row (noBreak_row hnl)] at ho
    rw [hhere, hshows.position.2] at hend
    have hlen' : (replacement w casefold junk ws (r ++ u)).length = ws.length := by
      rw [replacement, spelled_length, List.length_map]
    rw [hsize, hlen'] at hcol
    rw [if_pos heq]
    refine ⟨htrue, hshows, ⟨_, ?_, hend⟩, ?_, hro⟩
    · rw [replacement] at hcol
      change (o : Int) + _ = ((Journal.col isBreak (l ++ b ++ spelled w _ _) + _ : Nat) : Int)
      change Journal.col isBreak (l ++ b ++ spelled w (capital w junk (!casefold) (r ++ u))
        (ws.map code)) + _ = _ at hcol
      rw [Bool.false_or]
      omega
    · change LINE.l_size (Ed.line _ pos.p) = LINE.l_size (e.line pos.p) at hroom
      rw [heq, h.room] at hroom
      exact hroom

/-! ## The whole region -/

/-- The line of the cursor holds at the matches in the text `t`, with `l` in front of it
and `u` after it; `k` bounds how many they are. -/
def LineHoldsAll (w : Wctype) (casefold : Bool) (size : Nat) (upat : List Nat)
    (f : List UChar → List UChar) (u : List UChar) : Nat → List UChar → List UChar → Prop
  | 0, _, _ => True
  | k + 1, l, t =>
      match firstMatch (same w casefold) upat t with
      | none => True
      | some (b, r) =>
          (nl ∈ r.drop upat.length ∨
            LineHolds size (l ++ b) (r.take upat.length) (f (r ++ u)) (r.drop upat.length ++ u)) ∧
          LineHoldsAll w casefold size upat f u k (l ++ b ++ f (r ++ u)) (r.drop upat.length)

/-- What the loop does with a match that it replaces. -/
theorem replaceregionLoop_put {pos : POS} {keys : Nat → Nat} {all : Bool} (f : Nat) (orig_o : Int)
    {rpat : List Byte} (hfound : e.forwsrch w casefold upat = some pos)
    (hin : ¬ (e.lcmp pos.p limit_p > 0 ∨ pos.p = limit_p ∧ (pos.o : Int) > limit_o))
    (hkey : all = true ∨ keys 0 = 33)
    (htrue : (lreplace w casefold junk upat.length rpat false (e.setDot pos)).2 = true) :
    ∃ keys' orig_o', replaceregionLoop w casefold junk upat rpat limit_p (f + 1) keys all limit_o
        orig_o e =
      replaceregionLoop w casefold junk upat rpat limit_p f keys' true
        (if pos.p = limit_p then limit_o + ((unslen rpat : Int) - upat.length) else limit_o) orig_o'
        (lreplace w casefold junk upat.length rpat false (e.setDot pos)).1 := by
  have hquery : query all (keys 0) = .put true := by
    rcases hkey with rfl | hkey
    · rfl
    · cases all
      · rw [hkey]
        rfl
      · rfl
  rw [replaceregionLoop, hfound]
  dsimp only
  rw [setDot_lcmp, setDot_dot, if_neg hin, hquery]
  dsimp only
  generalize lreplace w casefold junk upat.length rpat false (e.setDot pos) = r at htrue ⊢
  obtain ⟨s, ok⟩ := r
  obtain rfl : ok = true := htrue
  exact ⟨_, _, rfl⟩

/-- **The whole loop**, from a state where the line of the cursor holds. -/
theorem replaceregionLoop_replaces (hws : AllUChars ws) (hne : upat ≠ []) {f k : Nat}
    (keys : Nat → Nat) {all : Bool} (orig_o : Int)
    (h : Replacing e limit_p size limit_o l t u) (hkey : all = true ∨ keys 0 = 33)
    (hholds : LineHoldsAll w casefold size upat (replacement w casefold junk ws) u k l t)
    (hk : t.length ≤ k) (hf : t.length < f) :
    let s := (replaceregionLoop w casefold junk upat ws.flatten limit_p f keys all limit_o orig_o e).1
    s.symbols = l ++ replace (same w casefold) (replacement w casefold junk ws) upat u k t ++ u ∧
      s.dot.p = limit_p ∧ limit_p ∈ s.lines := by
  induction f generalizing e l t k limit_o keys all orig_o with
  | zero => exact absurd hf (Nat.not_lt_zero _)
  | succ f ih =>
      have hfinds := h.finds w casefold hne
      cases hfirst : firstMatch (same w casefold) upat t with
      | none =>
          -- the loop ends
          rw [hfirst] at hfinds
          have hdone : replaceregionLoop w casefold junk upat ws.flatten limit_p (f + 1) keys all
              limit_o orig_o e = (e.setDot ⟨limit_p, orig_o.toNat⟩, true) ∨
              ∃ pos, replaceregionLoop w casefold junk upat ws.flatten limit_p (f + 1) keys all
              limit_o orig_o e = ((e.setDot pos).setDot ⟨limit_p, orig_o.toNat⟩, true) := by
            rw [replaceregionLoop]
            cases hfound : e.forwsrch w casefold upat with
            | none => exact .inl rfl
            | some pos =>
                refine .inr ⟨pos, ?_⟩
                dsimp only
                rw [setDot_lcmp, setDot_dot, if_pos (hfinds pos hfound)]
          have hnone : replace (same w casefold) (replacement w casefold junk ws) upat u k t = t := by
            cases k with
            | zero => rfl
            | succ k => rw [replace, hfirst]
          have htext : l ++ t ++ u = e.symbols := by
            rw [List.append_assoc]
            exact h.here.text
          obtain ⟨o, -, hlimit⟩ := h.limit
          have hmem : limit_p ∈ e.lines := hlimit.mem
          rw [hnone, htext]
          rcases hdone with heq | ⟨pos, heq⟩
          · rw [heq]
            exact ⟨rfl, rfl, hmem⟩
          · rw [heq]
            exact ⟨rfl, rfl, hmem⟩
      | some br =>
          obtain ⟨b, r⟩ := br
          rw [hfirst] at hfinds
          obtain ⟨pos, hfound, hat, hin⟩ := hfinds
          obtain ⟨hsplit, hheads⟩ := first_split hfirst
          have hlen := heads_length hheads
          have hpos := List.length_pos_iff.mpr hne
          have hsize : t.length = b.length + r.length := by rw [hsplit, List.length_append]
          cases k with
          | zero => omega
          | succ k =>
              rw [LineHoldsAll, hfirst] at hholds
              obtain ⟨htrue, hnext⟩ := h.next hws hfirst hat hholds.1
              obtain ⟨keys', orig_o', hstep⟩ := replaceregionLoop_put f orig_o
                hfound hin hkey htrue
              rw [unslen_flatten hws] at hstep
              have hrest := ih keys' orig_o' hnext (.inl rfl) hholds.2
                (by rw [List.length_drop]; omega) (by rw [List.length_drop]; omega)
              rw [hstep, replace, hfirst]
              dsimp only at hrest ⊢
              simp only [List.append_assoc] at hrest ⊢
              exact hrest

/-! ## A line that does not hold -/

theorem lnewline_gone (h : Gone p e) : Gone p (lnewline e).1 := by
  obtain ⟨hmem, hlt⟩ := Gone.saveundo (e := e.lchange) h (.UINSERT 1 1 [newline]) none
  have hne := Nat.ne_of_lt hlt
  unfold lnewline
  dsimp only
  split
  · exact h
  · refine ⟨fun hin => ?_, Nat.lt_succ_of_lt hlt⟩
    change p ∈ (Ed.linkBefore _ _ _).lines at hin
    unfold Ed.linkBefore at hin
    dsimp only at hin
    split at hin
    · rcases List.mem_append.mp hin with hin | hin
      · exact hmem hin
      · exact hne (List.mem_singleton.mp hin)
    · rcases List.mem_append.mp hin with hin | hin
      · exact hmem ((List.takeWhile_prefix _).subset hin)
      · rcases List.mem_cons.mp hin with hin | hin
        · exact hne hin
        · exact hmem ((List.dropWhile_suffix _).subset hin)

theorem forwchar_gone (n : Nat) (h : Gone p e) : Gone p (forwchar n e).1 := by
  induction n generalizing e with
  | zero => exact h
  | succ n ih =>
      have hset : ∀ pos, Gone p (forwchar n (e.setDot pos)).1 := fun pos => ih (e := e.setDot pos) h
      unfold forwchar
      dsimp only
      split_ifs
      · exact h
      · exact h
      · exact hset _
      · exact hset _

theorem backchar_gone (n : Nat) (h : Gone p e) : Gone p (backchar n e).1 := by
  induction n generalizing e with
  | zero => exact h
  | succ n ih =>
      have hset : ∀ pos, Gone p (backchar n (e.setDot pos)).1 := fun pos => ih (e := e.setDot pos) h
      unfold backchar
      dsimp only
      split_ifs
      · exact h
      · exact hset _
      · exact hset _

theorem writeChar_gone (n : Nat) (h : Gone p e) : Gone p (writeChar n e) := by
  have hdel := ldelete_gone 1 h
  unfold writeChar
  split_ifs
  · exact forwchar_gone 1 h
  · exact lnewline_gone hdel
  · exact linsert_gone _ h
  · exact linsert_gone _ hdel
  · have hstay : (decide (e.dot.p ≠ e.dot.p) || decide (e.dot.o ≠ e.dot.o)) = false := by simp
    unfold lputc
    dsimp only
    rw [hstay, if_neg Bool.false_ne_true, if_neg Bool.false_ne_true]
    exact (linsert_gone _ (ldelete_gone 1 (h.saveundo _ _))).saveundo _ _

theorem writeLoop_gone (t : Rtype) (cs : List Nat) (h : Gone p e) : Gone p (writeLoop w t cs e) := by
  induction cs generalizing t e with
  | nil => exact h
  | cons n cs ih => exact ih _ (writeChar_gone _ h)

variable (w casefold junk) in
theorem lreplace_gone (plen : Nat) (st : List Byte) (f : Bool) (h : Gone p e) :
    Gone p (lreplace w casefold junk plen st f e).1 := by
  have hback := (backchar_gone plen h).saveundo .UMOVE (some (backchar plen e).1.dot)
  unfold lreplace
  split
  · exact h
  · dsimp only
    generalize ((backchar plen e).1.saveundo .UMOVE (some (backchar plen e).1.dot)) = s at hback ⊢
    have hpad : Gone p (if plen > unslen st then
        ((ldelete (plen - unslen st : Nat) s).1, true)
      else if plen < unslen st then linsert (.copies (unslen st - plen) 0x20) s
      else (s, true)).1 := by
      split_ifs
      · exact ldelete_gone _ hback
      · exact linsert_gone _ hback
      · exact hback
    generalize (if plen > unslen st then ((ldelete (plen - unslen st : Nat) s).1, true)
      else if plen < unslen st then linsert (.copies (unslen st - plen) 0x20) s
      else (s, true)) = r at hpad ⊢
    split
    · exact hpad
    · refine writeLoop_gone _ _ (Gone.saveundo ?_ _ _)
      exact hpad

/-- Without room the line is replaced by a new one. -/
theorem linsert_loses {z : Zipper UChar} (h : Shows e z) (hro : e.bfro = false) {a : Insertion}
    (hroom : (e.line e.dot.p).l_size < (e.line e.dot.p).l_text.length + a.bytes.length) :
    Gone e.dot.p (linsert a e).1 := by
  have hs := h.lchange.saveundo a.saved none
  have hlt : e.dot.p < e.nextline := h.sound.fresh _ (List.mem_cons_of_mem _ h.mem)
  rw [linsert_eq h hro]
  dsimp only
  have hdot : (e.lchange.saveundo a.saved none).dot = e.dot := saveundo_dot ..
  have hline : (e.lchange.saveundo a.saved none).line = e.line := saveundo_line ..
  have hnext : (e.lchange.saveundo a.saved none).nextline = e.nextline := saveundo_nextline ..
  have hne := hs.ne_header
  generalize e.lchange.saveundo a.saved none = s at *
  have hroom' : LINE.l_used (s.line s.dot.p) + a.bytes.length > (s.line s.dot.p).l_size := by
    rw [hline, hdot]
    exact hroom
  unfold insertLine
  dsimp only
  rw [if_neg hne, if_pos hroom']
  refine ⟨fun hin => ?_, ?_⟩
  · obtain ⟨q, -, hq⟩ := List.mem_map.mp hin
    split at hq
    · exact Nat.ne_of_lt (hnext ▸ hlt) hq.symm
    · rename_i hother
      exact hother (hq.trans (congrArg POS.p hdot).symm)
  · exact Nat.lt_succ_of_lt (hnext ▸ hlt)

/-- A character written over another one without room. -/
theorem writeChar_loses {n : Nat} {d : UChar} (h : Shows e ⟨l, d :: x⟩) (hd : d ≠ nl)
    (hro : e.bfro = false) (hn : n ≠ 10) (hx : x ≠ [])
    (hroom : (e.line e.dot.p).l_size < (lineFront l ++ uputc n :: lineRest x).flatten.length) :
    Gone e.dot.p (writeChar n e) := by
  have hrest : e.rest = d :: lineRest x := by
    rw [← h.line_rest]
    exact lineRest_append (m := [d]) (by simpa using hd.symm)
  have hend : e.dot.o ≠ (e.line e.dot.p).wllength := fun heq => by
    rw [h.eol_iff.mp heq] at hrest
    cases hrest
  have hstay : (decide (e.dot.p ≠ e.dot.p) || decide (e.dot.o ≠ e.dot.o)) = false := by simp
  obtain ⟨hshows, hsro, hfirst⟩ := h.erased hd hro hx
  have hins := linsert_loses hshows hsro (a := .copies 1 n) (by
    have hbytes : (Insertion.copies 1 n).bytes = uputc n := by simp [Insertion.bytes]
    rw [hshows.line_text, hbytes, hfirst.here, hfirst.room]
    simp only [List.flatten_append, List.flatten_cons, List.length_append] at hroom ⊢
    omega)
  rw [hfirst.here] at hins
  unfold writeChar
  rw [if_neg hn, if_neg h.ne_header, if_neg hend]
  unfold lputc
  dsimp only
  rw [hstay, if_neg Bool.false_ne_true, if_neg Bool.false_ne_true]
  exact hins.saveundo _ _

/-- The replacement written over the match without room. -/
theorem writeLoop_loses {t : Rtype} (h : Shows e ⟨l, m ++ x⟩) (hlen : m.length = cs.length) (hx : x ≠ [])
    (hro : e.bfro = false) (hle : ∀ n ∈ cs, n ≤ 0x7fffffff) (hm : nl ∉ m)
    (hcs : nl ∉ spelled w t cs)
    (hroom : ¬ Roomy (e.line e.dot.p).l_size (lineRest x) (lineFront l) m (spelled w t cs)) :
    Gone e.dot.p (writeLoop w t cs e) := by
  induction cs generalizing e l m t with
  | nil =>
      obtain rfl := List.eq_nil_of_length_eq_zero hlen
      exact absurd trivial hroom
  | cons n cs ih =>
      cases m with
      | nil => cases hlen
      | cons d m =>
          obtain ⟨hd, hm⟩ := not_or.mp (mt List.mem_cons.mpr hm)
          obtain ⟨hc, hcs⟩ := not_or.mp (mt List.mem_cons.mpr hcs)
          have hput := put_le (w := w) (t := t) (hle n List.mem_cons_self)
          have hten : t.put w n ≠ 10 := fun heq => hc (by rw [heq]; rfl)
          have hx' : m ++ x ≠ [] := by simp [hx]
          have h : Shows e ⟨l, d :: (m ++ x)⟩ := h
          have hsplit : lineRest (m ++ x) = m ++ lineRest x := lineRest_append hm
          by_cases hfirst : (lineFront l ++ uputc (t.put w n) :: (m ++ lineRest x)).flatten.length ≤
              (e.line e.dot.p).l_size
          · -- there is room for this one
            have hstay := writeChar_stays h (Ne.symm hd) hro hten hx' (hsplit ▸ hfirst)
            have hlater := ih (writeChar_shows h hx' hro hput) (Nat.succ.inj hlen)
              ((writeChar_bfro _ _).trans hro) (fun k hk => hle k (List.mem_cons_of_mem n hk)) hm hcs
              (by
                rw [hstay.here, hstay.room, lineFront_append (by simpa using hc)]
                exact fun hlater => hroom ⟨hfirst, hlater⟩)
            rw [hstay.here] at hlater
            exact hlater
          · exact writeLoop_gone (e := writeChar (t.put w n) e) _ _ (writeChar_loses h (Ne.symm hd) hro hten hx'
              (hsplit ▸ Nat.not_le.mp hfirst))

variable (w casefold) in
/-- **A line without room** is not in the buffer any more. -/
theorem lreplace_loses (h : Shows e ⟨l ++ m, x⟩) (hx : x ≠ []) (hro : e.bfro = false)
    (junk : Nat) (hws : AllUChars ws) (f : Bool) (hm : nl ∉ m)
    (hr : nl ∉ spelled w (capital w junk (f || !casefold) (m ++ x)) (ws.map code))
    (hroom : ¬ MatchFits (e.line e.dot.p).l_size (lineFront l) m
      (spelled w (capital w junk (f || !casefold) (m ++ x)) (ws.map code)) (lineRest x)) :
    Gone e.dot.p (lreplace w casefold junk m.length ws.flatten f e).1 := by
  obtain ⟨pos, hat, heq⟩ := lreplace_eq w casefold h hx hro junk hws f
  have hsaved : Shows (e.moved pos) ⟨l, m ++ x⟩ := hat.saveundo ..
  have hro' := (moved_bfro e pos).trans hro
  -- the match begins on this line
  have hpos := Shows.pos_unique hat (h.withdraw (noBreak_row hm))
  have hstay : Stays e (e.moved pos) := by
    rw [hpos]
    exact (stays_setDot e _).trans (stays_saveundo ..)
  have hlen : (padded ws.length m).length = (ws.map code).length := by
    rw [padded_length, List.length_map]
  rw [heq]
  by_cases hpadroom : m.length < ws.length →
      (lineFront l ++ padded ws.length m ++ lineRest x).flatten.length ≤ (e.line e.dot.p).l_size
  · have hpad := pad_stays hsaved hro' hm ws.length (by rw [hstay.here, hstay.room]; exact hpadroom)
    have hready := (hstay.trans hpad).trans (stays_saveundo _ .UMOVE
      (some (pad m.length ws.length (e.moved pos)).dot))
    have hpadnl : nl ∉ padded ws.length m := by
      intro hmem
      rcases List.mem_append.mp hmem with hmem | hmem
      · have := List.eq_of_mem_replicate hmem
        cases this
      · exact hm (List.mem_of_mem_drop hmem)
    have hloop := writeLoop_loses ((pad_shows hsaved hx hro' ws.length).saveundo .UMOVE
      (some (pad m.length ws.length (e.moved pos)).dot)) hlen hx ((ready_bfro ..).trans hro)
      (codes_le ws) hpadnl hr (by
        rw [hready.here, hready.room]
        intro hroomy
        refine hroom ⟨fun hlt => ?_, ?_⟩
        · rw [spelled_length, List.length_map] at hlt ⊢
          exact hpadroom hlt
        · rw [spelled_length, List.length_map]
          exact hroomy)
    rw [hready.here] at hloop
    exact hloop
  · obtain ⟨hlt, hover⟩ := Classical.not_imp.mp hpadroom
    have hins := linsert_loses hsaved hro' (a := .copies (ws.length - m.length) 0x20) (by
      have hbytes : (Insertion.copies (ws.length - m.length) 0x20).bytes =
          (List.replicate (ws.length - m.length) ([0x20] : UChar)).flatten := rfl
      rw [padded, Nat.sub_eq_zero_of_le (Nat.le_of_lt hlt), List.drop_zero] at hover
      have htext := hsaved.line_text
      rw [hstay.here] at htext
      rw [hstay.here, hstay.room, htext, hbytes, lineRest_append hm]
      simp only [List.flatten_append, List.length_append] at hover ⊢
      omega)
    rw [hstay.here] at hins
    have hpad : Gone e.dot.p (pad m.length ws.length (e.moved pos)) := by
      unfold pad
      rw [if_neg (by omega), if_pos hlt]
      exact hins
    exact writeLoop_gone _ _ (hpad.saveundo _ _)

/-- **A line that is gone** does not come back. -/
theorem replaceregionLoop_gone {rpat : List Byte} {keys : Nat → Nat} {all : Bool} {orig_o : Int}
    {f : Nat} (h : Gone limit_p e) :
    let s := (replaceregionLoop w casefold junk upat rpat limit_p f keys all limit_o orig_o e).1
    s.dot.p = limit_p ∧ Gone limit_p s := by
  induction f generalizing e keys all limit_o orig_o with
  | zero => exact ⟨rfl, h⟩
  | succ f ih =>
      rw [replaceregionLoop]
      cases e.forwsrch w casefold upat with
      | none => exact ⟨rfl, h⟩
      | some pos =>
          have hset : Gone limit_p (e.setDot pos) := h
          have hrep := lreplace_gone w casefold junk upat.length rpat
            false hset
          dsimp only
          generalize lreplace w casefold junk upat.length rpat false (e.setDot pos) = r at hrep ⊢
          obtain ⟨s, ok⟩ := r
          split
          · exact ⟨rfl, h⟩
          · cases query all (keys 0) with
            | stop => exact ⟨rfl, h⟩
            | skip => exact ih hset
            | put all =>
                cases ok with
                | false => exact ⟨rfl, hrep⟩
                | true => exact ih hrep

/-! ## Strings within a line -/

theorem put_ne_ten {t : Rtype} {n : Nat} (hn : n ≠ 10) : t.put w n ≠ 10 := by
  unfold Rtype.put
  split_ifs with h
  · obtain ⟨-, hlower⟩ := h
    unfold cislower at hlower
    unfold ctoupper
    split_ifs with hsmall
    · rw [if_pos hsmall, aislower, Bool.and_eq_true, decide_eq_true_eq] at hlower
      omega
    · exact w.letter n (Nat.not_lt.mp hsmall)
  · exact hn

/-- A replacement without a newline. -/
theorem spelled_inline {t : Rtype} (hcs : 10 ∉ cs) (hle : ∀ n ∈ cs, n ≤ 0x7fffffff) :
    nl ∉ spelled w t cs := by
  induction cs generalizing t with
  | nil => exact List.not_mem_nil
  | cons n cs ih =>
      obtain ⟨hn, hcs⟩ := not_or.mp (mt List.mem_cons.mpr hcs)
      have hput := put_le (w := w) (t := t) (hle n List.mem_cons_self)
      refine not_or.mpr ⟨?_, ih hcs fun k hk => hle k (List.mem_cons_of_mem n hk)⟩ ∘ List.mem_cons.mp
      exact (uputc_ne_nl (put_ne_ten (Ne.symm hn)) hput).symm

/-- A match of a pattern without a newline. -/
theorem match_inline (hpat : 10 ∉ upat) (h : heads (same w casefold) upat r = true) :
    nl ∉ r.take upat.length := by
  induction upat generalizing r with
  | nil => exact List.not_mem_nil
  | cons p ps ih =>
      cases r with
      | nil => cases h
      | cons c r =>
          obtain ⟨hp, hps⟩ := not_or.mp (mt List.mem_cons.mpr hpat)
          rw [heads, Bool.and_eq_true] at h
          rw [List.length_cons, List.take_succ_cons]
          refine not_or.mpr ⟨fun hc => ?_, ih hps h.2⟩ ∘ List.mem_cons.mp
          have hsame := h.1
          rw [← hc, same, if_pos rfl] at hsame
          exact hp (of_decide_eq_true hsame).symm

/-- **The whole loop**, from a state where the line of the cursor does not hold. -/
theorem replaceregionLoop_loses (hws : AllUChars ws) (hne : upat ≠ []) (hpat : 10 ∉ upat)
    (hrpat : 10 ∉ ws.map code) {f k : Nat} (keys : Nat → Nat) {all : Bool} (orig_o : Int)
    (h : Replacing e limit_p size limit_o l t u) (hkey : all = true ∨ keys 0 = 33)
    (hlost : ¬ LineHoldsAll w casefold size upat (replacement w casefold junk ws) u k l t)
    (hk : t.length ≤ k) (hf : t.length < f) :
    let s := (replaceregionLoop w casefold junk upat ws.flatten limit_p f keys all limit_o orig_o e).1
    s.dot.p = limit_p ∧ Gone limit_p s := by
  induction f generalizing e l t k limit_o keys all orig_o with
  | zero => exact absurd hf (Nat.not_lt_zero _)
  | succ f ih =>
      cases k with
      | zero => exact absurd trivial hlost
      | succ k =>
          have hfinds := h.finds w casefold hne
          rw [LineHoldsAll] at hlost
          cases hfirst : firstMatch (same w casefold) upat t with
          | none =>
              rw [hfirst] at hlost
              exact absurd trivial hlost
          | some br =>
              obtain ⟨b, r⟩ := br
              rw [hfirst] at hfinds hlost
              obtain ⟨pos, hfound, hat, hin⟩ := hfinds
              obtain ⟨hsplit, hheads⟩ := first_split hfirst
              have hlen := heads_length hheads
              have hpos := List.length_pos_iff.mpr hne
              have hsize : t.length = b.length + r.length := by rw [hsplit, List.length_append]
              obtain ⟨o, ho, hlimit⟩ := h.limit_behind hfirst
              by_cases hholds : nl ∈ r.drop upat.length ∨ LineHolds size (l ++ b) (r.take upat.length)
                  (replacement w casefold junk ws (r ++ u)) (r.drop upat.length ++ u)
              · -- the line holds at this match
                obtain ⟨htrue, hnext⟩ := h.next hws hfirst hat hholds
                obtain ⟨keys', orig_o', hstep⟩ := replaceregionLoop_put f orig_o
                  hfound hin hkey htrue
                rw [unslen_flatten hws] at hstep
                have hlater := fun hlater => hlost ⟨hholds, hlater⟩
                have hrest := ih keys' orig_o' hnext (.inl rfl) hlater
                  (by rw [List.length_drop]; omega) (by rw [List.length_drop]; omega)
                rw [hstep]
                exact hrest
              · obtain ⟨hnl, hholds⟩ := not_or.mp hholds
                have heq : pos.p = limit_p := (hat.same_line_iff hlimit).mpr hnl
                have hsize' : (r.take upat.length).length = upat.length := by
                  rw [List.length_take]
                  omega
                have htext : r.take upat.length ++ (r.drop upat.length ++ u) = r ++ u := by
                  rw [← List.append_assoc, List.take_append_drop]
                have hx : r.drop upat.length ++ u ≠ [] := by simp [hlimit.right_ne]
                have hm := match_inline hpat hheads
                have hr : nl ∉ replacement w casefold junk ws (r ++ u) :=
                  spelled_inline hrpat (codes_le ws)
                have hrep := lreplace_shows w casefold hat hx h.writable junk hws false
                have hgone := lreplace_loses w casefold hat hx h.writable junk hws false hm
                  (by rw [htext]; exact hr) (by
                    rw [htext]
                    change ¬ MatchFits (e.line pos.p).l_size _ _ _ _
                    rw [heq, h.room]
                    exact fun hfits => hholds (.inline hm hr hfits))
                rw [hsize'] at hrep hgone
                change Gone pos.p _ at hgone
                rw [heq] at hgone
                obtain ⟨keys', orig_o', hstep⟩ := replaceregionLoop_put f orig_o
                  hfound hin hkey hrep.2.1
                rw [hstep]
                exact replaceregionLoop_gone hgone

/-! ## The command -/

/-- The number of characters in front of the region. -/
def Ed.regionStart (e : Ed) : Nat := min (e.passed e.dot) (e.passed e.curwp.w_mark)

/-- The number of characters up to its end. -/
def Ed.regionEnd (e : Ed) : Nat := max (e.passed e.dot) (e.passed e.curwp.w_mark)

/-- The text of the region. -/
def Ed.regionText (e : Ed) : List UChar := (e.symbols.take e.regionEnd).drop e.regionStart

/-- The text of the buffer, with the matches in the region replaced. -/
def Ed.replaced (w : Wctype) (casefold : Bool) (junk : Nat) (e : Ed) (upat : List Nat)
    (ws : List UChar) : List UChar :=
  e.symbols.take e.regionStart ++
    replace (same w casefold) (replacement w casefold junk ws) upat (e.symbols.drop e.regionEnd)
      e.regionText.length e.regionText ++
    e.symbols.drop e.regionEnd

/-- The matches in the region have been replaced, and nothing else; the cursor is on a
line of the buffer, or on its header line. -/
def RegionReplaced (w : Wctype) (casefold : Bool) (junk : Nat) (e : Ed) (upat : List Nat)
    (ws : List UChar) (e' : Ed) : Prop :=
  e'.symbols = e.replaced w casefold junk upat ws ∧ e'.dot.p ∈ e.b_linep :: e'.lines

/-- The region ends at the cursor, on a line with text, and its text may be changed. -/
def Ed.RegionAtDot (e : Ed) : Prop :=
  e.regionEnd - e.regionStart ≤ INT_MAX ∧ e.bfro = false ∧
    e.passed e.curwp.w_mark ≤ e.passed e.dot ∧ e.dot.p ∈ e.lines

/-- The line of the cursor holds at the matches in the region; where none is replaced,
the replacements are the matches. -/
def RegionHolds (w : Wctype) (casefold : Bool) (junk : Nat) (e : Ed) (upat : List Nat)
    (ws : List UChar) : Prop :=
  (e.RegionAtDot → LineHoldsAll w casefold (e.line e.dot.p).l_size upat
    (replacement w casefold junk ws) (e.symbols.drop e.regionEnd) e.regionText.length
    (e.symbols.take e.regionStart) e.regionText) ∧
  (¬ e.RegionAtDot → e.replaced w casefold junk upat ws = e.symbols)

variable (w casefold junk) in
/-- **The region replaced**, with the cursor at the end. -/
theorem replaceregion_atDot (pat : List Byte) (ws : List UChar) (keys : Nat → Nat) (hs : Sound e)
    (hlinked : Linked e) (hdot : Within e e.dot) (hmark : Within e e.curwp.w_mark) (hat : e.RegionAtDot) :
    ∃ e₀, Replacing e₀ e.dot.p (e.line e.dot.p).l_size e.dot.o (e.symbols.take e.regionStart)
        e.regionText (e.symbols.drop e.regionEnd) ∧
      replaceregion w casefold junk pat ws.flatten keys e =
        replaceregionLoop w casefold junk (ucodes pat) ws.flatten e.dot.p (e.symbols.length + 1) keys
          false e.dot.o e.dot.o e₀ := by
  obtain ⟨hsize, hro, hle, hmem⟩ := hat
  obtain ⟨a, b, hab, hord, hget, -⟩ := getregion_measures e ⟨⟨null, 0⟩, 0⟩ hlinked hdot hmark
  have hnull : e.curwp.w_mark.p ≠ null := hmark.nonnull hlinked
  have hin : Within e a ∧ Within e b := by
    rcases hab with ⟨rfl, rfl⟩ | ⟨rfl, rfl⟩
    · exact ⟨hdot, hmark⟩
    · exact ⟨hmark, hdot⟩
  have hpassed := Linked.passed_le hin.1 hord
  have hends : e.passed a = e.regionStart ∧ e.passed b = e.regionEnd ∧ e.passed e.dot = e.regionEnd := by
    unfold Ed.regionStart Ed.regionEnd
    rcases hab with ⟨rfl, rfl⟩ | ⟨rfl, rfl⟩ <;> omega
  obtain ⟨hstart, hend, hdotend⟩ := hends
  have hlt := hs.passed_lt hdot hmem
  have hamem : a.p ∈ e.lines := by
    by_contra hno
    have hall := (hs.passed_header hin.1 hno).2
    omega
  have hreg : e.regionStart ≤ e.regionEnd := hstart ▸ hend ▸ hpassed
  refine ⟨e.setDot a, ⟨?_, ⟨e.dot.o, rfl, ?_⟩, rfl, hro⟩, ?_⟩
  · have hshows := hs.shows_within hin.1 hamem
    rw [hstart] at hshows
    have hrest : e.regionText ++ e.symbols.drop e.regionEnd = e.symbols.drop e.regionStart := by
      rw [Ed.regionText, List.drop_take]
      have hmore : e.symbols.drop e.regionEnd =
          (e.symbols.drop e.regionStart).drop (e.regionEnd - e.regionStart) := by
        rw [List.drop_drop, Nat.add_sub_cancel' hreg]
      rw [hmore, List.take_append_drop]
    rw [hrest]
    exact hshows
  · have hshows := hs.shows_within hdot hmem
    rw [hdotend] at hshows
    have hfront : e.symbols.take e.regionStart ++ e.regionText = e.symbols.take e.regionEnd := by
      have htake : e.symbols.take e.regionStart = (e.symbols.take e.regionEnd).take e.regionStart := by
        rw [List.take_take, Nat.min_eq_left hreg]
      rw [Ed.regionText, htake, List.take_append_drop]
    rw [hfront]
    exact hshows
  · rw [hstart, hend] at hget
    rw [replaceregion, if_neg hnull, hget hsize]

/-- The buffer has its text, and the cursor is on the line. -/
structure Untouched (e : Ed) (limit_p : LineId) (e' : Ed) : Prop where
  text : e'.symbols = e.symbols
  lines : e'.lines = e.lines
  here : e'.dot.p = limit_p

variable (junk) in
/-- The loop does nothing in a buffer that may not be changed, and if every match is
behind the region. -/
theorem replaceregionLoop_idle (rpat : List Byte) {keys : Nat → Nat} (orig_o : Int) (f : Nat)
    (hkey : keys 0 = 33)
    (hidle : e.bfro = true ∨ ∀ pos, e.forwsrch w casefold upat = some pos →
      e.lcmp pos.p limit_p > 0 ∨ pos.p = limit_p ∧ (pos.o : Int) > limit_o) :
    Untouched e limit_p
      (replaceregionLoop w casefold junk upat rpat limit_p f keys false limit_o orig_o e).1 := by
  cases f with
  | zero => exact ⟨rfl, rfl, rfl⟩
  | succ f =>
      rw [replaceregionLoop]
      cases hfound : e.forwsrch w casefold upat with
      | none => exact ⟨rfl, rfl, rfl⟩
      | some pos =>
          dsimp only
          rw [setDot_lcmp, setDot_dot]
          split
          · exact ⟨rfl, rfl, rfl⟩
          · rename_i hin
            have hro := hidle.resolve_right fun hall => hin (hall pos hfound)
            have hrefuse : lreplace w casefold junk upat.length rpat false (e.setDot pos) =
                (e.setDot pos, false) := by
              have hcheck : (!(e.setDot pos).checkreadonly) = true := by
                change (!(!e.bfro)) = true
                rw [hro]
                rfl
              rw [lreplace, if_pos hcheck]
            have hquery : query false (keys 0) = .put true := by
              rw [hkey]
              rfl
            rw [hquery, hrefuse]
            exact ⟨rfl, rfl, rfl⟩

/-- What the search finds ends on a line with text, and behind the cursor. -/
theorem forwsrch_behind (h : Shows (e.setDot a) ⟨l, x⟩) (hne : upat ≠ []) {pos : POS}
    (hfound : (e.setDot a).forwsrch w casefold upat = some pos) :
    ∃ m y, Shows (e.setDot pos) ⟨m, y⟩ ∧ l.length < m.length := by
  obtain ⟨t, -, hfinds⟩ := @forwsrch_spec w casefold _ _ h upat hne
  unfold Finds at hfinds
  cases hfirst : firstMatch (same w casefold) upat t with
  | none =>
      rw [hfirst] at hfinds
      rw [hfinds] at hfound
      cases hfound
  | some br =>
      obtain ⟨b, r⟩ := br
      rw [hfirst] at hfinds
      obtain ⟨pos', hpos', hat⟩ := hfinds
      obtain rfl : pos' = pos := Option.some.inj (hpos'.symm.trans hfound)
      have hlen := heads_length (first_split hfirst).2
      have hpos := List.length_pos_iff.mpr hne
      refine ⟨_, _, hat, ?_⟩
      rw [List.length_append, List.length_append, List.length_take]
      dsimp only
      omega

variable (w casefold junk) in
/-- **Any other region** stays as it is. -/
theorem replaceregion_idle (rpat : List Byte) (hs : Sound e) (hlinked : Linked e)
    (hdot : Within e e.dot) (hmark : Within e e.curwp.w_mark) {pat : List Byte} (hpat : ucodes pat ≠ [])
    {keys : Nat → Nat} (hkey : keys 0 = 33) (hnot : ¬ e.RegionAtDot) :
    Untouched e e.dot.p (replaceregion w casefold junk pat rpat keys e).1 := by
  obtain ⟨a, b, hab, hord, hget, hbig⟩ := getregion_measures e ⟨⟨null, 0⟩, 0⟩ hlinked hdot hmark
  have hnull : e.curwp.w_mark.p ≠ null := hmark.nonnull hlinked
  rw [replaceregion, if_neg hnull]
  by_cases hsize : e.passed b - e.passed a ≤ INT_MAX
  · rw [hget hsize]
    dsimp only
    have hin : Within e a := by
      rcases hab with ⟨rfl, -⟩ | ⟨rfl, -⟩
      · exact hdot
      · exact hmark
    have hends : e.regionEnd - e.regionStart = e.passed b - e.passed a := by
      have hpassed := Linked.passed_le hin hord
      unfold Ed.regionStart Ed.regionEnd
      rcases hab with ⟨rfl, rfl⟩ | ⟨rfl, rfl⟩ <;> omega
    suffices hidle : (e.setDot a).bfro = true ∨ ∀ pos,
        (e.setDot a).forwsrch w casefold (ucodes pat) = some pos →
        (e.setDot a).lcmp pos.p e.dot.p > 0 ∨ pos.p = e.dot.p ∧ (pos.o : Int) > e.dot.o by
      obtain ⟨htext, hlines, hhere⟩ := replaceregionLoop_idle junk rpat e.dot.o
        (e.symbols.length + 1) hkey hidle
      exact ⟨htext, hlines, hhere⟩
    by_cases hro : e.bfro = true
    · exact .inl hro
    refine .inr fun pos hfound => ?_
    -- the region begins on a line with text
    have hamem : a.p ∈ e.lines := by
      by_contra hno
      have heq : (e.setDot a).dot.p = (e.setDot a).b_linep := hin.1.resolve_left hno
      cases hup : ucodes pat with
      | nil => exact hpat hup
      | cons p ps =>
          rw [hup, Ed.forwsrch] at hfound
          dsimp only at hfound
          rw [if_pos heq] at hfound
          cases hfound
    obtain ⟨m, y, hat, hlt⟩ := forwsrch_behind (hs.shows_within hin hamem) hpat hfound
    by_cases hmem : e.dot.p ∈ e.lines
    · -- the cursor is at the start of the region
      have horder : e.passed e.dot < e.passed e.curwp.w_mark := by
        by_contra hle
        exact hnot ⟨hends ▸ hsize, Bool.eq_false_iff.mpr hro, Nat.not_lt.mp hle, hmem⟩
      have ha : a = e.dot := by
        rcases hab with ⟨ha, -⟩ | ⟨rfl, rfl⟩
        · exact ha
        · have hpassed := Linked.passed_le hin hord
          omega
      rw [ha] at hlt
      have hbehind := hat.behind_iff (hs.shows_within hdot hmem)
      have hgt := hbehind.mpr hlt
      rw [setDot_lcmp]
      rcases hgt with hgt | ⟨hp, ho⟩
      · exact .inl hgt
      · exact .inr ⟨hp, Int.ofNat_lt.mpr ho⟩
    · -- the cursor is on the header line
      have heq : e.dot.p = e.b_linep := hdot.1.resolve_left hmem
      have hpmem : pos.p ∈ e.lines := hat.mem
      have hne : pos.p ≠ e.b_linep := fun hp => hs.header (hp ▸ hpmem)
      have hnone : e.b_linep ∉ e.lines.dropWhile (· ≠ pos.p) := fun hin =>
        hs.header ((List.dropWhile_suffix _).subset hin)
      refine .inl ?_
      rw [setDot_lcmp, heq]
      unfold Ed.lcmp
      rw [if_neg hne, if_neg hnone]
      exact Int.one_pos
  · obtain ⟨-, hmsg⟩ := hbig (Nat.not_le.mp hsize)
    generalize getregion e ⟨⟨null, 0⟩, 0⟩ = r at hmsg ⊢
    obtain ⟨region, msg⟩ := r
    obtain rfl : msg = _ := hmsg
    exact ⟨rfl, rfl, rfl⟩

theorem ucodes_ne_nil {s : List Byte} (h : s ≠ []) : ucodes s ≠ [] := by
  obtain ⟨c, cs, rfl⟩ := List.exists_cons_of_ne_nil h
  rw [ucodes, List.length_cons, ucodesLoop]
  · exact List.cons_ne_nil _ _
  · intro hnil
    cases hnil

/-- **The matches in the region are replaced** if the region ends at the cursor, and the
line of the cursor holds, and for strings without a newline only then. -/
theorem replaceregion_replaces (w : Wctype) (casefold : Bool) (junk : Nat) (e : Ed) (hs : Sound e)
    (hlinked : Linked e) (hdot : Within e e.dot) (hmark : Within e e.curwp.w_mark)
    (pat : List Byte) (hpat : pat ≠ []) (ws : List UChar) (hws : AllUChars ws) (keys : Nat → Nat)
    (hkey : keys 0 = 33) :
    (RegionHolds w casefold junk e (ucodes pat) ws →
      RegionReplaced w casefold junk e (ucodes pat) ws
        (replaceregion w casefold junk pat ws.flatten keys e).1) ∧
    (10 ∉ ucodes pat → 10 ∉ ws.map code →
      RegionReplaced w casefold junk e (ucodes pat) ws
        (replaceregion w casefold junk pat ws.flatten keys e).1 →
      RegionHolds w casefold junk e (ucodes pat) ws) := by
  have hne := ucodes_ne_nil hpat
  by_cases hatdot : e.RegionAtDot
  · obtain ⟨e₀, hstart, hrun⟩ := replaceregion_atDot w casefold junk pat ws keys hs hlinked
      hdot hmark hatdot
    have hfuel : e.regionText.length < e.symbols.length + 1 := by
      rw [Ed.regionText, List.length_drop, List.length_take]
      omega
    rw [hrun]
    constructor
    · intro hholds
      obtain ⟨htext, hhere, hmem⟩ := replaceregionLoop_replaces hws hne keys e.dot.o hstart
        (.inr hkey) (hholds.1 hatdot) (Nat.le_refl _) hfuel
      refine ⟨htext, List.mem_cons_of_mem _ ?_⟩
      rw [hhere]
      exact hmem
    · rintro hpatnl hrpatnl ⟨-, hmem⟩
      refine ⟨fun _ => ?_, fun hnot => absurd hatdot hnot⟩
      by_contra hlost
      obtain ⟨hhere, hgone, -⟩ := replaceregionLoop_loses hws hne hpatnl hrpatnl keys e.dot.o hstart
        (.inr hkey) hlost (Nat.le_refl _) hfuel
      rw [hhere] at hmem
      rcases List.mem_cons.mp hmem with heq | hmem
      · exact hs.header (heq ▸ hatdot.2.2.2)
      · exact hgone hmem
  · obtain ⟨htext, hlines, hhere⟩ := replaceregion_idle w casefold junk ws.flatten hs hlinked
      hdot hmark hne hkey hatdot
    have hmem : e.dot.p ∈ e.b_linep :: e.lines := List.mem_cons.mpr hdot.1.symm
    constructor
    · intro hholds
      refine ⟨htext.trans (hholds.2 hatdot).symm, ?_⟩
      rw [hhere, hlines]
      exact hmem
    · rintro - - ⟨hreplaced, -⟩
      exact ⟨fun hat => absurd hat hatdot, fun _ => hreplaced.symm.trans htext⟩

/-- Two lines, with the mark at the start and the cursor behind the last letter. -/
def twoLines : Ed := Ed.holding [[97, 98], [99, 97]] ⟨3, 2⟩ ⟨2, 0⟩

/-- One letter for another one, on both lines. -/
theorem replaceregion_replaces_twoLines :
    RegionReplaced asciiLetters false 0 twoLines (ucodes [97]) [[120]]
      (replaceregion asciiLetters false 0 [97] [[120]].flatten (fun _ => 33) twoLines).1 := by
  have hsound : Sound twoLines := by
    refine Ed.sound_holding fun s hs => ?_
    have hletters : ∀ cs : List UChar, (∀ c ∈ cs, IsUChar c) → nl ∉ cs →
        ∃ ds, Inline ds ∧ cs.flatten = ds.flatten := fun cs hall hnl => ⟨cs, ⟨hall, hnl⟩, rfl⟩
    rcases List.mem_cons.mp hs with rfl | hs
    · exact hletters [[97], [98]] (by decide) (by decide)
    · obtain rfl := List.mem_singleton.mp hs
      exact hletters [[99], [97]] (by decide) (by decide)
  have hlinked : Linked twoLines := Ed.linked_holding (by decide)
  have hstart : twoLines.regionStart = 0 := by decide
  have hend : twoLines.regionEnd = 5 := by decide
  have htext : twoLines.symbols = [[97], [98], nl, [99], [97], nl] := by decide
  have hletter : ∀ c ∈ ([[120]] : List UChar), IsUChar c := by decide
  refine (replaceregion_replaces asciiLetters false 0 twoLines hsound hlinked
    ⟨.inl (by decide), by decide⟩ ⟨.inl (by decide), by decide⟩ [97] (by decide) [[120]] hletter
    (fun _ => 33) rfl).1 ⟨fun _ => ?_, fun hnot => absurd ?_ hnot⟩
  · rw [Ed.regionText, hstart, hend, htext]
    have hfirst : firstMatch (same asciiLetters false) (ucodes [97]) [[97], [98], nl, [99], [97]] =
        some ([], [[97], [98], nl, [99], [97]]) := by decide
    have hnext : firstMatch (same asciiLetters false) (ucodes [97]) [[98], nl, [99], [97]] =
        some ([[98], nl, [99]], [[97]]) := by decide
    change LineHoldsAll _ _ _ _ _ _ 5 _ [[97], [98], nl, [99], [97]]
    rw [LineHoldsAll, hfirst]
    refine ⟨.inl (by decide), ?_⟩
    change LineHoldsAll _ _ _ _ _ _ 4 _ [[98], nl, [99], [97]]
    rw [LineHoldsAll, hnext]
    refine ⟨.inr (.inline (by decide) (by decide) ⟨by decide, ?_⟩), trivial⟩
    exact ⟨by decide, trivial⟩
  · exact ⟨by decide, rfl, by decide, by decide⟩

/-- One line, with the cursor at the start and the mark at the end. -/
def cursorFirst : Ed := Ed.holding [[97, 97]] ⟨2, 0⟩ ⟨2, 2⟩

/-- **Nothing is replaced** if the cursor comes before the mark. -/
theorem replaceregion_cursor_first :
    ¬ RegionReplaced asciiLetters false 0 cursorFirst (ucodes [97]) [[98]]
      (replaceregion asciiLetters false 0 [97] [[98]].flatten (fun _ => 33) cursorFirst).1 := by
  rintro ⟨htext, -⟩
  have hrun : (replaceregion asciiLetters false 0 [97] [[98]].flatten (fun _ => 33)
      cursorFirst).1.symbols = [[97], [97], nl] := by decide
  have hwant : cursorFirst.replaced asciiLetters false 0 (ucodes [97]) [[98]] =
      [[98], [98], nl] := by decide
  rw [hrun, hwant] at htext
  exact absurd htext (by decide)

end Emacs
