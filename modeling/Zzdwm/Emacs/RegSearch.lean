import Zzdwm.Emacs.BackSearch
import Zzdwm.Regexp.Substitution

/-!
# Searching for patterns (`search.c`)

`doregsrch` copies what is left of a line and lets `regexec` search it, then the next
line, up to the end of the buffer.

* `Ed.doregsrch` — the search, forward and back;
* `Ed.starts` — where it looks, one place for each line;
* `regsearch_finds` — **the search stops at the first line where there is a match**, with
  the cursor behind the match, or in front of it if it goes back.

The fuel is that of `regexec`.
-/

namespace Emacs

open Regexp (Prog Found Report Exp Leftmost regcomp regexec)

inductive RegDir
  | SRCH_REGFORW
  | SRCH_REGBACK
deriving DecidableEq

/-- What `doregsrch` finds: where it puts the cursor, the copy, and the match in it. -/
structure Hit where
  dot : POS
  buf : List Byte
  found : Found

section Source

variable (e : Ed) (regpat : Prog) (fuel : Nat) (dir : RegDir)

/-- The copy of the line. -/
def Ed.copied (a : POS) : List Byte :=
  let line := (e.line a.p).l_text
  let offset := uoffset line a.o
  match dir with
  | .SRCH_REGFORW => line.drop offset
  | .SRCH_REGBACK => line.take offset

/-- Where the cursor is put. -/
def Hit.at (a : POS) (buf : List Byte) (found : Found) : Hit where
  dot :=
    match dir with
    | .SRCH_REGFORW => ⟨a.p, unslen (buf.take found.2.reginput) + a.o⟩
    | .SRCH_REGBACK => ⟨a.p, unslen (buf.take found.1)⟩
  buf
  found

/-- The next line. -/
def Ed.tryNext (a : POS) : POS :=
  match dir with
  | .SRCH_REGFORW => ⟨e.lforw a.p, 0⟩
  | .SRCH_REGBACK => ⟨e.lback a.p, (e.line (e.lback a.p)).wllength⟩

/-- The loop of `doregsrch`. -/
def Ed.doregsrchLoop : Nat → POS → Except Report (Option Hit)
  | 0, _ => .ok none
  | n + 1, a => do
      match ← regexec fuel regpat (e.copied dir a) with
      | some found => return some (Hit.at dir a (e.copied dir a) found)
      | none =>
          let a := e.tryNext dir a
          if a.p = e.b_linep then return none else Ed.doregsrchLoop n a

/-- `doregsrch`.  There are as many rounds as lines, at most. -/
def Ed.doregsrch : Except Report (Option Hit) :=
  if e.dot.p = e.b_linep then .ok none
  else e.doregsrchLoop regpat fuel dir (e.lines.length + 1) e.dot

end Source

/-! ## The places -/

/-- Where the search looks: at the cursor, and in the lines behind or in front of it. -/
def Ed.starts (e : Ed) (dir : RegDir) : List POS :=
  if e.dot.p = e.b_linep then []
  else
    match dir with
    | .SRCH_REGFORW => e.dot :: e.below.map fun p => ⟨p, 0⟩
    | .SRCH_REGBACK => e.dot :: e.above.reverse.map fun p => ⟨p, (e.line p).wllength⟩

/-- The search goes from place to place. -/
def Ed.Walks (e : Ed) (dir : RegDir) : List POS → Prop
  | [] => True
  | a :: as => a.p ≠ e.b_linep ∧
      (match as with
      | [] => (e.tryNext dir a).p = e.b_linep
      | b :: _ => e.tryNext dir a = b) ∧ e.Walks dir as

variable {e : Ed} {dir : RegDir} {as bs : List LineId} {lp : LineId} {a : POS} {starts : List POS}

theorem walks_below (h : Sound e) (hl : e.lines = as ++ lp :: bs) (o : Nat) :
    e.Walks .SRCH_REGFORW (⟨lp, o⟩ :: bs.map fun p => ⟨p, 0⟩) := by
  induction bs generalizing as lp o with
  | nil =>
      have hne : lp ≠ e.b_linep := fun heq => h.header (by rw [← heq, hl]; simp)
      refine ⟨hne, ?_, trivial⟩
      exact h.lforw_of hl
  | cons q bs ih =>
      have hne : lp ≠ e.b_linep := fun heq => h.header (by rw [← heq, hl]; simp)
      have hl' : e.lines = (as ++ [lp]) ++ q :: bs := by rw [hl]; simp
      refine ⟨hne, ?_, ih hl' 0⟩
      change (⟨e.lforw lp, 0⟩ : POS) = ⟨q, 0⟩
      rw [h.lforw_of hl]
      rfl

theorem walks_above (h : Sound e) (hl : e.lines = as ++ lp :: bs) (o : Nat) :
    e.Walks .SRCH_REGBACK (⟨lp, o⟩ :: as.reverse.map fun p => ⟨p, (e.line p).wllength⟩) := by
  induction as using List.reverseRecOn generalizing lp bs o with
  | nil =>
      have hne : lp ≠ e.b_linep := fun heq => h.header (by rw [← heq, hl]; simp)
      exact ⟨hne, h.lback_of hl, trivial⟩
  | append_singleton as q ih =>
      have hne : lp ≠ e.b_linep := fun heq => h.header (by rw [← heq, hl]; simp)
      have hl' : e.lines = as ++ q :: (lp :: bs) := by rw [hl]; simp
      rw [List.reverse_append, List.reverse_singleton, List.singleton_append, List.map_cons]
      refine ⟨hne, ?_, ih hl' _⟩
      change (⟨e.lback lp, (e.line (e.lback lp)).wllength⟩ : POS) = ⟨q, (e.line q).wllength⟩
      rw [h.lback_of hl, List.getLastD_concat]

theorem Sound.walks (h : Sound e) (hdot : Within e e.dot) (dir : RegDir) :
    e.Walks dir (e.starts dir) ∧ (e.starts dir).length ≤ e.lines.length := by
  unfold Ed.starts
  split
  · exact ⟨trivial, Nat.zero_le _⟩
  · rename_i hne
    have hl := h.lines_eq (hdot.1.resolve_right hne)
    have hlen := congrArg List.length hl
    rw [List.length_append, List.length_cons] at hlen
    cases dir with
    | SRCH_REGFORW =>
        refine ⟨walks_below h hl e.dot.o, ?_⟩
        simp only [List.length_cons, List.length_map]
        omega
    | SRCH_REGBACK =>
        refine ⟨walks_above h hl e.dot.o, ?_⟩
        simp only [List.length_cons, List.length_map, List.length_reverse]
        omega

/-! ## The search -/

/-- The first match, at the first of the places where there is one. -/
def Ed.FoundIn (e : Ed) (dir : RegDir) (r : Exp) (starts : List POS) : Option Hit → Prop
  | none => ∀ a ∈ starts, Leftmost r (e.copied dir a) none
  | some hit => ∃ before a behind, starts = before ++ a :: behind ∧
      (∀ b ∈ before, Leftmost r (e.copied dir b) none) ∧
      Leftmost r (e.copied dir a) (some hit.found) ∧ hit = Hit.at dir a (e.copied dir a) hit.found

theorem Ed.FoundIn.cons {r : Exp} {res : Option Hit} (h : e.FoundIn dir r starts res)
    (ha : Leftmost r (e.copied dir a) none) : e.FoundIn dir r (a :: starts) res := by
  cases res with
  | none =>
      intro b hb
      rcases List.mem_cons.mp hb with rfl | hb
      · exact ha
      · exact h b hb
  | some hit =>
      obtain ⟨before, b, behind, rfl, hbefore, hfound, hhit⟩ := h
      refine ⟨a :: before, b, behind, rfl, fun c hc => ?_, hfound, hhit⟩
      rcases List.mem_cons.mp hc with rfl | hc
      · exact ha
      · exact hbefore c hc

variable {r : Exp} {prog : Prog}

/-- **The loop** goes on until there is a match. -/
theorem doregsrchLoop_finds (hn : prog.Notes r) (hr : Regexp.Fits true r) {n : Nat}
    (hw : e.Walks dir (a :: starts)) (hlen : starts.length < n) :
    ∃ res f₀, (∀ f, f₀ ≤ f → e.doregsrchLoop prog f dir n a = .ok res) ∧
      e.FoundIn dir r (a :: starts) res := by
  induction starts generalizing a n with
  | nil =>
      obtain ⟨n, rfl⟩ : ∃ k, n = k + 1 := ⟨n - 1, by simp at hlen; omega⟩
      obtain ⟨found, f₀, hrun, hfirst⟩ := hn.finds hr (e.copied dir a)
      cases found with
      | some found =>
          refine ⟨some (Hit.at dir a (e.copied dir a) found), f₀, fun f hf => ?_, ?_⟩
          · rw [Ed.doregsrchLoop, hrun f hf]
            rfl
          · exact ⟨[], a, [], rfl, fun b hb => (by cases hb), hfirst, rfl⟩
      | none =>
          refine ⟨none, f₀, fun f hf => ?_, fun b hb => ?_⟩
          · rw [Ed.doregsrchLoop, hrun f hf]
            exact if_pos hw.2.1
          · rw [List.mem_singleton.mp hb]
            exact hfirst
  | cons b starts ih =>
      obtain ⟨n, rfl⟩ : ∃ k, n = k + 1 := ⟨n - 1, by omega⟩
      obtain ⟨hne, hnext, hw⟩ := hw
      have hnext : e.tryNext dir a = b := hnext
      obtain ⟨found, f₀, hrun, hfirst⟩ := hn.finds hr (e.copied dir a)
      cases found with
      | some found =>
          refine ⟨some (Hit.at dir a (e.copied dir a) found), f₀, fun f hf => ?_, ?_⟩
          · rw [Ed.doregsrchLoop, hrun f hf]
            rfl
          · exact ⟨[], a, b :: starts, rfl, fun b hb => (by cases hb), hfirst, rfl⟩
      | none =>
          obtain ⟨res, f₁, hrest, hfound⟩ := ih hw (Nat.lt_of_succ_lt_succ hlen)
          refine ⟨res, max f₀ f₁, fun f hf => ?_, hfound.cons hfirst⟩
          rw [Ed.doregsrchLoop, hrun f (by omega)]
          change (if (e.tryNext dir a).p = e.b_linep then _ else _) = _
          rw [hnext, if_neg hw.1]
          exact hrest f (by omega)

/-- The whole search. -/
theorem Sound.doregsrch_finds (hs : Sound e) (hdot : Within e e.dot) (hn : prog.Notes r)
    (hr : Regexp.Fits true r) (dir : RegDir) :
    ∃ res f₀, (∀ f, f₀ ≤ f → e.doregsrch prog f dir = .ok res) ∧
      e.FoundIn dir r (e.starts dir) res := by
  obtain ⟨hw, hlen⟩ := hs.walks hdot dir
  by_cases hhead : e.dot.p = e.b_linep
  · have hnone : e.starts dir = [] := by
      unfold Ed.starts
      rw [if_pos hhead]
    refine ⟨none, 0, fun f _ => if_pos hhead, fun a ha => ?_⟩
    rw [hnone] at ha
    cases ha
  · obtain ⟨starts, hstarts⟩ : ∃ starts, e.starts dir = e.dot :: starts := by
      unfold Ed.starts
      rw [if_neg hhead]
      cases dir <;> exact ⟨_, rfl⟩
    rw [hstarts] at hw hlen ⊢
    obtain ⟨res, f₀, hrun, hfound⟩ := doregsrchLoop_finds hn hr hw (Nat.lt_succ_of_lt hlen)
    refine ⟨res, f₀, fun f hf => ?_, hfound⟩
    rw [Ed.doregsrch, if_neg hhead]
    exact hrun f hf

/-- **A search for a pattern** stops at the first line where there is a match of it, at the
first one there, and finds nothing only if no line has any. -/
theorem regsearch_finds {exp : List Byte} (h : regcomp exp = .ok prog) (hs : Sound e)
    (hdot : Within e e.dot) :
    ∃ r m, Regexp.Reads .choice (exp.takeWhile (· ≠ 0)) 1 r m ∧ ∀ dir, ∃ res f₀,
      (∀ f, f₀ ≤ f → e.doregsrch prog f dir = .ok res) ∧ e.FoundIn dir r (e.starts dir) res := by
  obtain ⟨r, m, hreads, hr, hn⟩ := Regexp.regcomp_notes h
  exact ⟨r, m, hreads, fun dir => hs.doregsrch_finds hdot hn hr dir⟩

theorem accents_sound : Sound accents := by
  refine Ed.sound_holding fun s hs => ?_
  have hletters : ∀ cs : List UChar, (∀ c ∈ cs, IsUChar c) → nl ∉ cs →
      ∃ ds, Inline ds ∧ cs.flatten = ds.flatten := fun cs hall hnl => ⟨cs, ⟨hall, hnl⟩, rfl⟩
  rcases List.mem_cons.mp hs with rfl | hs
  · exact hletters [[97], [0xc3, 0xa9]] (by decide) (by decide)
  · obtain rfl := List.mem_singleton.mp hs
    exact hletters [[0xc3, 0xa9], [98]] (by decide) (by decide)

/-- `b+`, from the first of two lines. -/
theorem regsearch_finds_accents : ∃ prog, regcomp [0x62, 0x2B] = .ok prog ∧
    ∃ r m, Regexp.Reads .choice [0x62, 0x2B] 1 r m ∧ ∀ dir, ∃ res f₀,
      (∀ f, f₀ ≤ f → accents.doregsrch prog f dir = .ok res) ∧
        accents.FoundIn dir r (accents.starts dir) res := by
  obtain ⟨prog, h⟩ : ∃ prog, regcomp [0x62, 0x2B] = .ok prog := ⟨_, rfl⟩
  exact ⟨prog, h, regsearch_finds h accents_sound ⟨.inl (by decide), by decide⟩⟩

end Emacs
