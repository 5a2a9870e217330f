import Zzdwm.Regexp.Programs
import Zzdwm.Regexp.Match

/-!
# What the matcher finds

The matcher runs the program of an expression as the expression says: from the first node
it comes to what follows the program at the places where a match ends, one after the
other, until the rest succeeds.

* `Settled`, `Finds` — a run ends in one of the ways there are, or fails if there is none;
* `settled_backUp`, `Tried` — the loops of the matcher;
* `Fits.finds` — **the program of an expression matches what the expression does**.
-/

namespace Regexp

open Ascii (Byte)
open Regular (Re Mark Matches Spans record)

/-- How the matcher can come to the end: what it records, and where the end is. -/
abbrev Ways := List Mark → Nat → Prop

/-- With fuel enough a run ends in one of the ways, if there is one. -/
def Settled (call : Nat → Spans → Answer) (W : Ways) : Prop :=
  (∃ ms e, W ms e ∧ ∃ f₀, ∀ f g, f₀ ≤ f → call f g = .ok (some ⟨e, record ms g⟩)) ∨
    (∀ ms e, ¬ W ms e) ∧ ∃ f₀, ∀ f g, f₀ ≤ f → call f g = .ok none

/-- `regmatch` from a node at a place. -/
def Finds (P : Code) (s : List Byte) (p i : Nat) (W : Ways) : Prop :=
  Settled (fun f g => regmatch P s f p ⟨i, g⟩) W

variable {call call' : Nat → Spans → Answer} {W W' : Ways} {P : Code} {s : List Byte}
  {p q i j off : Nat} {op : Op}

theorem Settled.congr (h : Settled call W) (hW : ∀ ms e, W ms e ↔ W' ms e) : Settled call W' := by
  rcases h with ⟨ms, e, hw, hrun⟩ | ⟨hnone, hrun⟩
  · exact .inl ⟨ms, e, (hW ms e).mp hw, hrun⟩
  · exact .inr ⟨fun ms e hw => hnone ms e ((hW ms e).mpr hw), hrun⟩

/-- One round goes by. -/
theorem Settled.step (h : Settled call W) (hstep : ∀ f g, call' (f + 1) g = call f g) :
    Settled call' W := by
  have hlate : ∀ {f₀ : Nat} {ans : Spans → Answer}, (∀ f g, f₀ ≤ f → call f g = ans g) →
      ∃ f₀, ∀ f g, f₀ ≤ f → call' f g = ans g := by
    intro f₀ ans hrun
    refine ⟨f₀ + 1, fun f g hf => ?_⟩
    obtain ⟨f, rfl⟩ : ∃ m, f = m + 1 := ⟨f - 1, by omega⟩
    rw [hstep]
    exact hrun f g (by omega)
  rcases h with ⟨ms, e, hw, f₀, hrun⟩ | ⟨hnone, f₀, hrun⟩
  · exact .inl ⟨ms, e, hw, hlate hrun⟩
  · exact .inr ⟨hnone, hlate hrun⟩

theorem Settled.fail (hcall : ∀ f g, call (f + 1) g = .ok none) (hW : ∀ ms e, ¬ W ms e) :
    Settled call W := by
  refine .inr ⟨hW, 1, fun f g hf => ?_⟩
  obtain ⟨f, rfl⟩ : ∃ m, f = m + 1 := ⟨f - 1, by omega⟩
  exact hcall f g

/-- On the way back a mark is set. -/
theorem Settled.mark (h : Settled call W) (m : Mark)
    (hstep : ∀ f g, call' (f + 1) g =
      (call f g).map (Option.map fun r => { r with spans := r.spans.add m })) :
    Settled call' fun ms e => ∃ ns, W ns e ∧ ms = m :: ns := by
  rcases h with ⟨ms, e, hw, f₀, hrun⟩ | ⟨hnone, f₀, hrun⟩
  · refine .inl ⟨m :: ms, e, ⟨ms, hw, rfl⟩, f₀ + 1, fun f g hf => ?_⟩
    obtain ⟨f, rfl⟩ : ∃ m, f = m + 1 := ⟨f - 1, by omega⟩
    rw [hstep, hrun f g (by omega)]
    rfl
  · refine .inr ⟨fun ms e hw => ?_, f₀ + 1, fun f g hf => ?_⟩
    · obtain ⟨ns, hw, -⟩ := hw
      exact hnone ns e hw
    · obtain ⟨f, rfl⟩ : ∃ m, f = m + 1 := ⟨f - 1, by omega⟩
      rw [hstep, hrun f g (by omega)]
      rfl

theorem Settled.orElse {run : Nat → Spans → Answer} (h : Settled call W) (h' : Settled call' W')
    (hrun : ∀ f g, run f g = retry (call f g) (call' f g)) :
    Settled run fun ms e => W ms e ∨ W' ms e := by
  rcases h with ⟨ms, e, hw, f₀, hfirst⟩ | ⟨hnone, f₀, hfirst⟩
  · refine .inl ⟨ms, e, .inl hw, f₀, fun f g hf => ?_⟩
    rw [hrun, hfirst f g hf]
    rfl
  · rcases h' with ⟨ms, e, hw, f₁, hsecond⟩ | ⟨hnone', f₁, hsecond⟩
    · refine .inl ⟨ms, e, .inr hw, max f₀ f₁, fun f g hf => ?_⟩
      rw [hrun, hfirst f g (by omega)]
      exact hsecond f g (by omega)
    · refine .inr ⟨fun ms e hw => hw.elim (hnone ms e) (hnone' ms e), max f₀ f₁,
        fun f g hf => ?_⟩
      rw [hrun, hfirst f g (by omega)]
      exact hsecond f g (by omega)

/-- A settled run that fails in any case has no way to the end. -/
theorem Settled.empty (h : Settled call W) (hcall : ∀ f g, call (f + 1) g = .ok none) :
    ∀ ms e, ¬ W ms e := by
  rcases h with ⟨ms, e, hw, f₀, hrun⟩ | ⟨hnone, -⟩
  · have hsome := hrun (f₀ + 1) .none (Nat.le_succ f₀)
    rw [hcall] at hsome
    cases hsome
  · exact hnone

/-! ## The loops -/

/-- **Giving characters back** tries all lengths, those that the lookahead excludes in vain. -/
theorem settled_backUp {runs : Nat → Nat → Spans → Answer} {worth : Nat → Bool} {least : Nat}
    {Ws : Nat → Ways} (no : Nat) (h : ∀ n, least ≤ n → n ≤ no → Settled (runs n) (Ws n))
    (hworth : ∀ n, least ≤ n → n ≤ no → worth n = false → ∀ ms e, ¬ Ws n ms e) :
    Settled (fun f g => backUp (fun n => runs n f g) worth least no)
      fun ms e => ∃ n, least ≤ n ∧ n ≤ no ∧ Ws n ms e := by
  have hone : ∀ n, least ≤ n → n ≤ no →
      Settled (fun f g => if worth n then runs n f g else .ok none) (Ws n) := by
    intro n hle hno
    cases hw : worth n with
    | true => exact h n hle hno
    | false => exact .inr ⟨hworth n hle hno hw, 0, fun f g _ => rfl⟩
  induction no with
  | zero =>
      rcases Nat.eq_zero_or_pos least with rfl | hlt
      · refine (hone 0 (Nat.le_refl 0) (Nat.le_refl 0)).congr fun ms e => ⟨fun hw => ?_, ?_⟩
        · exact ⟨0, Nat.le_refl 0, Nat.le_refl 0, hw⟩
        · rintro ⟨n, -, hn, hw⟩
          rwa [Nat.le_zero.mp hn] at hw
      · refine .inr ⟨fun ms e hw => ?_, 0, fun f g _ => if_pos hlt⟩
        obtain ⟨n, hle, hn, -⟩ := hw
        omega
  | succ no ih =>
      rcases Nat.lt_or_ge (no + 1) least with hlt | hge
      · refine .inr ⟨fun ms e hw => ?_, 0, fun f g _ => if_pos hlt⟩
        obtain ⟨n, hle, hn, -⟩ := hw
        omega
      · have hrest := ih (fun n hle hn => h n hle (Nat.le_succ_of_le hn))
          (fun n hle hn => hworth n hle (Nat.le_succ_of_le hn))
          (fun n hle hn => hone n hle (Nat.le_succ_of_le hn))
        refine Settled.congr ((hone (no + 1) hge (Nat.le_refl _)).orElse hrest fun f g => ?_)
          fun ms e => ⟨?_, ?_⟩
        · exact if_neg (Nat.not_lt.mpr hge)
        · rintro (hw | ⟨n, hle, hn, hw⟩)
          · exact ⟨no + 1, hge, Nat.le_refl _, hw⟩
          · exact ⟨n, hle, Nat.le_succ_of_le hn, hw⟩
        · rintro ⟨n, hle, hn, hw⟩
          rcases Nat.eq_or_lt_of_le hn with rfl | hlt
          · exact .inl hw
          · exact .inr ⟨n, hle, Nat.le_of_lt_succ hlt, hw⟩

/-- The loop over the branches from one of them on. -/
def Tried (P : Code) (s : List Byte) (q i : Nat) (W : Ways) : Prop :=
  ∀ n, P.length ≤ q + n → Settled (fun f g => tryBranches (regmatch P s f) P n q ⟨i, g⟩) W

theorem tried_last (hq : P[q]? = some (.node .BRANCH off)) (hoff : 0 < off)
    (hlast : P.op (q + off) ≠ some .BRANCH) (h : Finds P s (q + 1) i W) : Tried P s q i W := by
  intro n hn
  have hlt := (List.getElem?_eq_some_iff.mp hq).1
  obtain ⟨n, rfl⟩ : ∃ m, n = m + 1 := ⟨n - 1, by omega⟩
  have hnone : Settled (fun _ _ => .ok none) fun _ _ => False :=
    .inr ⟨fun _ _ hw => hw, 0, fun _ _ _ => rfl⟩
  refine (h.orElse hnone fun f g => ?_).congr fun ms e => or_iff_left id
  rw [tryBranches, regnext_forward hq (by simp) hoff]
  dsimp only
  rw [if_neg hlast]

theorem tried_more (hq : P[q]? = some (.node .BRANCH off)) (hoff : 0 < off)
    (hmore : P.op (q + off) = some .BRANCH) (h : Finds P s (q + 1) i W)
    (h' : Tried P s (q + off) i W') : Tried P s q i fun ms e => W ms e ∨ W' ms e := by
  intro n hn
  have hlt := (List.getElem?_eq_some_iff.mp hq).1
  obtain ⟨n, rfl⟩ : ∃ m, n = m + 1 := ⟨n - 1, by omega⟩
  refine h.orElse (h' n (by omega)) fun f g => ?_
  rw [tryBranches, regnext_forward hq (by simp) hoff]
  dsimp only
  rw [if_pos hmore]

/-! ## The nodes -/

theorem op_of_node (h : P[p]? = some (.node op off)) : P.op p = some op := by
  rw [Code.op, h]

/-- A node that takes no character. -/
theorem finds_pass (hnode : P[p]? = some (.node .NOTHING off)) (hoff : 0 < off)
    (h : Finds P s (p + off) i W) : Finds P s p i W := by
  refine h.step fun f g => ?_
  rw [regmatch, matchNode, op_of_node hnode, regnext_forward hnode (by simp) hoff]

theorem finds_back (hnode : P[p]? = some (.node .BACK off)) (hoff : 0 < off)
    (h : Finds P s (p - off) i W) : Finds P s p i W := by
  have hnext : regnext P p = some (p - off) := by
    rw [regnext, hnode]
    dsimp only
    rw [if_neg (Nat.ne_of_gt hoff), if_pos rfl]
  refine h.step fun f g => ?_
  rw [regmatch, matchNode, op_of_node hnode, hnext]

/-- A choice begins. -/
theorem finds_choice (hnode : P[p]? = some (.node .BRANCH off)) (hoff : 0 < off)
    (hmore : P.op (p + off) = some .BRANCH) (h : Tried P s p i W) : Finds P s p i W := by
  refine (h P.length (Nat.le_add_left _ _)).step fun f g => ?_
  rw [regmatch, matchNode, op_of_node hnode, regnext_forward hnode (by simp) hoff]
  dsimp only
  rw [if_neg (not_not.mpr hmore)]

/-- A single branch is no choice. -/
theorem finds_single (hnode : P[p]? = some (.node .BRANCH off)) (hoff : 0 < off)
    (hlast : P.op (p + off) ≠ some .BRANCH) (h : Finds P s (p + 1) i W) : Finds P s p i W := by
  refine h.step fun f g => ?_
  rw [regmatch, matchNode, op_of_node hnode, regnext_forward hnode (by simp) hoff]
  dsimp only
  rw [if_pos hlast]

theorem finds_open {no : Nat} (hnode : P[p]? = some (.node (.OPEN no) off)) (hoff : 0 < off)
    (hlo : 1 ≤ no) (hhi : no < NSUBEXP) (h : Finds P s (p + off) i W) :
    Finds P s p i fun ms e => ∃ ns, W ns e ∧ ms = .opens no i :: ns := by
  refine h.mark _ fun f g => ?_
  rw [regmatch, matchNode, op_of_node hnode, regnext_forward hnode (by simp) hoff]
  dsimp only
  rw [if_neg (by omega)]
  cases regmatch P s f (p + off) ⟨i, g⟩ with
  | error report => rfl
  | ok found =>
      cases found with
      | none => rfl
      | some r => rfl

theorem finds_close {no : Nat} (hnode : P[p]? = some (.node (.CLOSE no) off)) (hoff : 0 < off)
    (hlo : 1 ≤ no) (hhi : no < NSUBEXP) (h : Finds P s (p + off) i W) :
    Finds P s p i fun ms e => ∃ ns, W ns e ∧ ms = .closes no i :: ns := by
  refine h.mark _ fun f g => ?_
  rw [regmatch, matchNode, op_of_node hnode, regnext_forward hnode (by simp) hoff]
  dsimp only
  rw [if_neg (by omega)]
  cases regmatch P s f (p + off) ⟨i, g⟩ with
  | error report => rfl
  | ok found =>
      cases found with
      | none => rfl
      | some r => rfl

theorem finds_end (hnode : P[p]? = some (.node .END off)) :
    Finds P s p i fun ms e => ms = [] ∧ e = i := by
  refine .inl ⟨[], i, ⟨rfl, rfl⟩, 1, fun f g hf => ?_⟩
  obtain ⟨f, rfl⟩ : ∃ m, f = m + 1 := ⟨f - 1, by omega⟩
  change regmatch P s (f + 1) p ⟨i, g⟩ = _
  rw [regmatch, matchNode, op_of_node hnode]
  rfl

/-- The ways through an expression. -/
def After (s : List Byte) (r : Exp) (i : Nat) (K : Nat → Ways) : Ways := fun ms e =>
  ∃ j ns ks, Matches Class.mem s r i j ns ∧ K j ks e ∧ ms = ns ++ ks

variable {b : Bool} {r t : Exp} {K : Nat → Ways}

/-- Nothing is matched but a stretch without marks. -/
theorem finds_stretch (hgo : ∀ call g, matchNode call P s p ⟨i, g⟩ = call (p + off) ⟨j, g⟩)
    (hr : ∀ k ns, Matches Class.mem s r i k ns ↔ k = j ∧ ns = [])
    (hk : ∀ k ns, Matches Class.mem s r i k ns → Finds P s (p + off) k (K k)) :
    Finds P s p i (After s r i K) := by
  have hrest := hk j [] ((hr j []).mpr ⟨rfl, rfl⟩)
  refine (Settled.step hrest fun f g => hgo _ g).congr fun ms e => ⟨fun hw => ?_, ?_⟩
  · exact ⟨j, [], ms, (hr j []).mpr ⟨rfl, rfl⟩, hw, rfl⟩
  · rintro ⟨k, ns, ks, hm, hw, rfl⟩
    obtain ⟨rfl, rfl⟩ := (hr k ns).mp hm
    exact hw

/-- Nothing is matched. -/
theorem finds_none (hfail : ∀ call g, matchNode call P s p ⟨i, g⟩ = .ok none)
    (hr : ∀ k ns, ¬ Matches Class.mem s r i k ns) : Finds P s p i (After s r i K) := by
  refine Settled.fail (fun f g => hfail _ g) fun ms e hw => ?_
  obtain ⟨k, ns, ks, hm, -⟩ := hw
  exact hr k ns hm

/-! ## Simple operands -/

/-- The characters that a simple expression matches. -/
def single : Exp → Byte → Bool
  | .one k, c => k.mem c
  | .lit cs, c => some c = cs.head?
  | _, _ => false

theorem simple_lit {cs : List Byte} (h : simple (.lit cs) = true) : ∃ c, cs = [c] :=
  List.length_eq_one_iff.mp (of_decide_eq_true h)

theorem matches_simple (hs : simple r = true) (i j : Nat) (ms : List Mark) :
    Matches Class.mem s r i j ms ↔
      ms = [] ∧ j = i + 1 ∧ ∃ c, s[i]? = some c ∧ single r c = true := by
  cases r with
  | one k =>
      constructor
      · intro h
        cases h with
        | one hc hk => exact ⟨rfl, rfl, _, hc, hk⟩
      · rintro ⟨rfl, rfl, c, hc, hk⟩
        exact .one hc hk
  | lit cs =>
      obtain ⟨d, rfl⟩ := simple_lit hs
      have hstart : [d] <+: s.drop i ↔ s[i]? = some d := by
        rw [← List.head?_drop]
        cases s.drop i with
        | nil => simp
        | cons c cs => simp [List.cons_prefix_cons, eq_comm]
      constructor
      · intro h
        cases h with
        | lit h => exact ⟨rfl, rfl, d, hstart.mp h, by simp [single]⟩
      · rintro ⟨rfl, rfl, c, hc, hk⟩
        have hcd : c = d := by simpa [single] using hk
        exact .lit (hstart.mpr (hcd ▸ hc))
  | _ => cases hs

theorem regrepeat_simple (h : Fits b r) (hs : simple r = true) (hat : At P p (asm r off)) :
    regrepeat P s p i = .ok ((s.drop i).takeWhile (single r)).length := by
  cases h with
  | any =>
      have hall : (s.drop i).takeWhile (single (.one .any)) = s.drop i :=
        List.takeWhile_eq_self_iff.mpr fun c _ => rfl
      rw [regrepeat, op_of_node (at_cons.mp hat).1, hall, List.length_drop]
  | anyOf hcs =>
      rw [regrepeat, op_of_node (at_cons.mp hat).1, (at_cons.mp hat).2.operand hcs]
      rfl
  | anyBut hcs =>
      rw [regrepeat, op_of_node (at_cons.mp hat).1, (at_cons.mp hat).2.operand hcs]
      rfl
  | lit hne hcs =>
      rw [regrepeat, op_of_node (at_cons.mp hat).1, (at_cons.mp hat).2.operand hcs]
      rfl
  | _ => cases hs

/-- A string node fails unless its first character comes next. -/
theorem matchNode_exactly (call : Nat → Input → Answer) (g : Spans)
    (hop : P.op p = some .EXACTLY) (hne : s[i]? ≠ (P.operand p).head?) :
    matchNode call P s p ⟨i, g⟩ = .ok none := by
  rw [matchNode, hop]
  dsimp only
  rw [if_pos (by rw [List.head?_drop]; exact hne.symm)]

/-- **`STAR` and `PLUS`**: as many characters as there are, then fewer and fewer. -/
theorem finds_many {least : Nat} (h : Fits b r) (hs : simple r = true)
    (hat : At P p (.node op off :: asm r 0)) (hop : op = .STAR ∧ least = 0 ∨ op = .PLUS ∧ least = 1)
    (hoff : 0 < off) (hk : ∀ n, least ≤ n → n ≤ ((s.drop i).takeWhile (single r)).length →
      Finds P s (p + off) (i + n) (K (i + n))) :
    Finds P s p i fun ms e => ∃ n, least ≤ n ∧
      n ≤ ((s.drop i).takeWhile (single r)).length ∧ K (i + n) ms e := by
  obtain ⟨hnode, hatr⟩ := at_cons.mp hat
  obtain ⟨nextch, hnextch⟩ : ∃ nextch, nextch = (if P.op (p + off) = some .EXACTLY then
      (P.operand (p + off)).head? else none) := ⟨_, rfl⟩
  have hempty : ∀ n, least ≤ n → n ≤ ((s.drop i).takeWhile (single r)).length →
      (nextch = none || s[i + n]? = nextch) = false → ∀ ms e, ¬ K (i + n) ms e := by
    intro n hle hn hworth
    simp only [Bool.or_eq_false_iff, decide_eq_false_iff_not] at hworth
    have hexact : P.op (p + off) = some .EXACTLY := by
      by_contra hnot
      rw [if_neg hnot] at hnextch
      exact hworth.1 hnextch
    rw [if_pos hexact] at hnextch
    rw [hnextch] at hworth
    exact (hk n hle hn).empty fun f g => matchNode_exactly _ g hexact hworth.2
  refine (settled_backUp _ hk hempty).step fun f g => ?_
  have hmany : matchNode.many (regmatch P s f) P s p ⟨i, g⟩ least =
      backUp (fun n => regmatch P s f (p + off) ⟨i + n, g⟩)
        (fun n => nextch = none || s[i + n]? = nextch) least
          ((s.drop i).takeWhile (single r)).length := by
    rw [matchNode.many, regnext_forward hnode (by rcases hop with ⟨rfl, -⟩ | ⟨rfl, -⟩ <;> simp) hoff]
    dsimp only
    rw [regrepeat_simple h hs hatr, hnextch]
    rfl
  rw [regmatch, matchNode, op_of_node hnode]
  rcases hop with ⟨rfl, rfl⟩ | ⟨rfl, rfl⟩
  · exact hmany
  · exact hmany

theorem matches_plus_simple {k : Nat} {ns : List Mark} (hs : simple r = true) :
    Matches Class.mem s (.plus r) i k ns ↔
      ns = [] ∧ i + 1 ≤ k ∧ k ≤ i + ((s.drop i).takeWhile (single r)).length := by
  have hstar := fun i => @Regular.matches_star_single_iff _ _ Class.mem s r i ns (single r) k
    fun i j ms => matches_simple hs i j ms
  have hrun : ∀ c, s[i]? = some c → single r c = true → ((s.drop i).takeWhile (single r)).length =
      ((s.drop (i + 1)).takeWhile (single r)).length + 1 := by
    intro c hc hsingle
    obtain ⟨hlt, hget⟩ := List.getElem?_eq_some_iff.mp hc
    rw [List.drop_eq_getElem_cons hlt, hget, List.takeWhile_cons_of_pos hsingle, List.length_cons]
  rw [Regular.matches_plus_iff]
  constructor
  · rintro ⟨j, ms, ms', hm, hloop, rfl⟩
    obtain ⟨rfl, rfl, c, hc, hsingle⟩ := (matches_simple hs _ _ _).mp hm
    rw [List.nil_append] at hstar ⊢
    obtain ⟨rfl, hle, hk⟩ := (hstar _).mp hloop
    have hlen := hrun c hc hsingle
    exact ⟨rfl, hle, by omega⟩
  · rintro ⟨rfl, hle, hk⟩
    obtain ⟨c, hc, hsingle⟩ : ∃ c, s[i]? = some c ∧ single r c = true := by
      have hall := (hstar i).mpr ⟨rfl, by omega, hk⟩
      rcases Regular.matches_star_iff.mp hall with ⟨rfl, -⟩ | ⟨j, ms, ms', hm, -, -⟩
      · omega
      · exact ((matches_simple hs _ _ _).mp hm).2.2
    have hlen := hrun c hc hsingle
    exact ⟨i + 1, [], [], (matches_simple hs _ _ _).mpr ⟨rfl, rfl, c, hc, hsingle⟩,
      (hstar _).mpr ⟨rfl, hle, by omega⟩, rfl⟩

/-- A loop of single characters. -/
theorem finds_run {t : Exp} {least : Nat} (h : Fits b r) (hs : simple r = true)
    (hat : At P p (.node op off :: asm r 0)) (hop : op = .STAR ∧ least = 0 ∨ op = .PLUS ∧ least = 1)
    (hoff : 0 < off) (ht : ∀ k ns, Matches Class.mem s t i k ns ↔
      ns = [] ∧ i + least ≤ k ∧ k ≤ i + ((s.drop i).takeWhile (single r)).length)
    (hk : ∀ j ns, Matches Class.mem s t i j ns → Finds P s (p + off) j (K j)) :
    Finds P s p i (After s t i K) := by
  refine (finds_many (K := K) h hs hat hop hoff fun n hle hn => ?_).congr fun ms e => ?_
  · exact hk (i + n) [] ((ht _ _).mpr ⟨rfl, by omega, by omega⟩)
  · constructor
    · rintro ⟨n, hle, hn, hw⟩
      exact ⟨i + n, [], ms, (ht _ _).mpr ⟨rfl, by omega, by omega⟩, hw, rfl⟩
    · rintro ⟨j, ns, ks, hm, hw, rfl⟩
      obtain ⟨rfl, hle, hj⟩ := (ht _ _).mp hm
      obtain ⟨n, rfl⟩ : ∃ n, j = i + n := Nat.exists_eq_add_of_le (by omega)
      exact ⟨n, by omega, by omega, hw⟩

/-! ## The programs -/

/-- A node for one character of a set. -/
theorem finds_one {k : Class} (hgo : ∀ call g, matchNode call P s p ⟨i, g⟩ =
      if s[i]?.any k.mem then call (p + off) ⟨i + 1, g⟩ else .ok none)
    (hk : ∀ j ns, Matches Class.mem s (.one k) i j ns → Finds P s (p + off) j (K j)) :
    Finds P s p i (After s (.one k) i K) := by
  have hmatches : ∀ j ns, Matches Class.mem s (.one k) i j ns ↔
      (j = i + 1 ∧ ns = []) ∧ s[i]?.any k.mem = true := by
    intro j ns
    rw [matches_simple rfl, Option.any_eq_true]
    constructor
    · rintro ⟨rfl, rfl, c, hc, hmem⟩
      exact ⟨⟨rfl, rfl⟩, c, hc, hmem⟩
    · rintro ⟨⟨rfl, rfl⟩, c, hc, hmem⟩
      exact ⟨rfl, rfl, c, hc, hmem⟩
  by_cases hmem : s[i]?.any k.mem = true
  · refine finds_stretch (j := i + 1) (fun call g => ?_) (fun j ns => ?_) hk
    · rw [hgo, if_pos hmem]
    · rw [hmatches, and_iff_left hmem]
  · refine finds_none (fun call g => ?_) fun j ns hm => hmem ((hmatches j ns).mp hm).2
    rw [hgo, if_neg hmem]

theorem finds_lit {cs : List Byte} (hne : cs ≠ []) (hcs : 0 ∉ cs)
    (hat : At P p (asm (.lit cs) off)) (hoff : 0 < off)
    (hk : ∀ j ns, Matches Class.mem s (.lit cs) i j ns → Finds P s (p + off) j (K j)) :
    Finds P s p i (After s (.lit cs) i K) := by
  obtain ⟨hnode, hstr⟩ := at_cons.mp hat
  have hgo : ∀ call g, matchNode call P s p ⟨i, g⟩ =
      if cs <+: s.drop i then call (p + off) ⟨i + cs.length, g⟩ else .ok none := by
    intro call g
    rw [matchNode, op_of_node hnode, regnext_forward hnode (by simp) hoff, hstr.operand hcs]
    dsimp only
    obtain ⟨c, cs, rfl⟩ := List.exists_cons_of_ne_nil hne
    by_cases hpre : c :: cs <+: s.drop i
    · obtain ⟨rest, hrest⟩ := id hpre
      have hhead : (c :: cs).head? = (s.drop i).head? := by
        rw [← hrest]
        rfl
      have htake : (s.drop i).take (c :: cs).length = c :: cs := by
        rw [← hrest]
        exact List.take_left
      rw [if_neg (not_not.mpr hhead), if_neg fun h => h.2 htake, if_pos hpre]
    · rw [if_neg hpre]
      by_cases hhead : (c :: cs).head? = (s.drop i).head?
      · rw [if_neg (not_not.mpr hhead), if_pos]
        refine ⟨?_, fun htake => hpre (List.prefix_iff_eq_take.mpr htake.symm)⟩
        by_contra hlen
        rw [List.length_cons] at hlen
        obtain rfl : cs = [] := List.length_eq_zero_iff.mp (by omega)
        refine hpre ?_
        cases hdrop : s.drop i with
        | nil =>
            rw [hdrop] at hhead
            cases hhead
        | cons d rest =>
            rw [hdrop] at hhead
            cases hhead
            exact ⟨rest, rfl⟩
      · rw [if_pos hhead]
  by_cases hpre : cs <+: s.drop i
  · refine finds_stretch (j := i + cs.length) (fun call g => ?_) (fun j ns => ?_) hk
    · rw [hgo, if_pos hpre]
    · constructor
      · intro hm
        cases hm with
        | lit h => exact ⟨rfl, rfl⟩
      · rintro ⟨rfl, rfl⟩
        exact .lit hpre
  · refine finds_none (fun call g => ?_) fun j ns hm => ?_
    · rw [hgo, if_neg hpre]
    · cases hm with
      | lit h => exact hpre h

/-- Two alternatives, the second one empty. -/
theorem finds_either {q o : Nat} (hbranch : P[q]? = some (.node .BRANCH o)) (ho : 0 < o)
    (hbranch' : P[q + o]? = some (.node .BRANCH 1))
    (hnothing : P[q + o + 1]? = some (.node .NOTHING off)) (hoff : 0 < off)
    (h : Finds P s (q + 1) i W) (h' : Finds P s (q + o + 1 + off) i W') :
    Finds P s q i fun ms e => W ms e ∨ W' ms e := by
  refine finds_choice hbranch ho (op_of_node hbranch')
    (tried_more hbranch ho (op_of_node hbranch') h ?_)
  refine tried_last hbranch' Nat.one_pos ?_ (finds_pass hnothing hoff h')
  rw [op_of_node hnothing]
  simp

theorem after_star (ms : List Mark) (e : Nat) : After s (.star r) i K ms e ↔
    After s r i (fun j => After s (.star r) j K) ms e ∨ K i ms e := by
  constructor
  · rintro ⟨j, ns, ks, hm, hk, rfl⟩
    rcases Regular.matches_star_iff.mp hm with ⟨rfl, rfl⟩ | ⟨k, ns, ns', hr, hs, rfl⟩
    · exact .inr hk
    · exact .inl ⟨k, ns, ns' ++ ks, hr, ⟨j, ns', ks, hs, hk, rfl⟩, List.append_assoc ..⟩
  · rintro (⟨k, ns, -, hr, ⟨j, ns', ks, hs, hk, rfl⟩, rfl⟩ | hk)
    · exact ⟨j, ns ++ ns', ks, .more hr hs, hk, (List.append_assoc ..).symm⟩
    · exact ⟨i, [], ms, .stop r i, hk, rfl⟩

/-- **The loop of a star**: another round, each further on in the text, or what follows. -/
theorem finds_loop {q o : Nat} (hw : Regular.Wide Class.mem r)
    (hbranch : P[q]? = some (.node .BRANCH o)) (ho : 0 < o)
    (hbranch' : P[q + o]? = some (.node .BRANCH 1))
    (hnothing : P[q + o + 1]? = some (.node .NOTHING off)) (hoff : 0 < off)
    (hround : ∀ i, i ≤ s.length →
      (∀ j ns, Matches Class.mem s r i j ns → Finds P s q j (After s (.star r) j K)) →
        Finds P s (q + 1) i (After s r i fun j => After s (.star r) j K))
    (hk : ∀ j ns, Matches Class.mem s (.star r) i j ns → Finds P s (q + o + 1 + off) j (K j))
    (hi : i ≤ s.length) : Finds P s q i (After s (.star r) i K) := by
  obtain ⟨d, hd⟩ : ∃ d, s.length - i ≤ d := ⟨_, Nat.le_refl _⟩
  induction d generalizing i with
  | zero =>
      refine (finds_either hbranch ho hbranch' hnothing hoff (hround i hi fun j ns hm => ?_)
        (hk i [] (.stop r i))).congr fun ms e => (after_star ms e).symm
      have hlt := hw s i j ns hm
      have hle := hm.bounds.2 hlt
      omega
  | succ d ih =>
      refine (finds_either hbranch ho hbranch' hnothing hoff (hround i hi fun j ns hm => ?_)
        (hk i [] (.stop r i))).congr fun ms e => (after_star ms e).symm
      have hlt := hw s i j ns hm
      have hle := hm.bounds.2 hlt
      exact ih (fun k ns' hs => hk k _ (.more hm hs)) hle (by omega)

/-- **The program of an expression matches what the expression does.**  Where the rest of
the run is settled behind every match, the run from the first node is settled. -/
theorem Fits.finds (h : Fits b r) (hat : At P p (asm r off)) (hi : i ≤ s.length)
    (hoff : b = false → 0 < off)
    (hlast : b = true → off = 0 ∧ P.op (p + tail r) ≠ some .BRANCH)
    (hk : ∀ j ns, Matches Class.mem s r i j ns → Finds P s (p + tail r + off) j (K j)) :
    Finds P s p i (After s r i K) ∧
      (b = true → P.op p = some .BRANCH ∧ Tried P s p i (After s r i K)) := by
  induction h generalizing p off i K with
  | nothing =>
      have hnode := (at_cons.mp hat).1
      refine ⟨finds_stretch (j := i) (fun call g => ?_) (fun j ns => ?_) hk, fun hb => by cases hb⟩
      · rw [matchNode, op_of_node hnode, regnext_forward hnode (by simp) (hoff rfl)]
      · constructor
        · intro hm
          cases hm with
          | nothing => exact ⟨rfl, rfl⟩
        · rintro ⟨rfl, rfl⟩
          exact .nothing _
  | bol =>
      have hnode := (at_cons.mp hat).1
      refine ⟨?_, fun hb => by cases hb⟩
      by_cases hzero : i = 0
      · subst hzero
        refine finds_stretch (j := 0) (fun call g => ?_) (fun j ns => ?_) hk
        · rw [matchNode, op_of_node hnode, regnext_forward hnode (by simp) (hoff rfl)]
          rfl
        · constructor
          · intro hm
            cases hm with
            | bol => exact ⟨rfl, rfl⟩
          · rintro ⟨rfl, rfl⟩
            exact .bol
      · refine finds_none (fun call g => ?_) fun j ns hm => ?_
        · rw [matchNode, op_of_node hnode]
          exact if_pos hzero
        · cases hm with
          | bol => exact hzero rfl
  | eol =>
      have hnode := (at_cons.mp hat).1
      refine ⟨?_, fun hb => by cases hb⟩
      by_cases hend : i = s.length
      · subst hend
        refine finds_stretch (j := s.length) (fun call g => ?_) (fun j ns => ?_) hk
        · rw [matchNode, op_of_node hnode, regnext_forward hnode (by simp) (hoff rfl)]
          exact if_neg (not_not.mpr List.drop_length)
        · constructor
          · intro hm
            cases hm with
            | eol => exact ⟨rfl, rfl⟩
          · rintro ⟨rfl, rfl⟩
            exact .eol
      · refine finds_none (fun call g => ?_) fun j ns hm => ?_
        · rw [matchNode, op_of_node hnode]
          refine if_pos fun hnil => hend (Nat.le_antisymm hi ?_)
          exact List.drop_eq_nil_iff.mp hnil
        · cases hm with
          | eol => exact hend rfl
  | any =>
      have hnode := (at_cons.mp hat).1
      refine ⟨finds_one (fun call g => ?_) hk, fun hb => by cases hb⟩
      rw [matchNode, op_of_node hnode, regnext_forward hnode (by simp) (hoff rfl)]
      dsimp only
      rw [← List.head?_drop]
      cases s.drop i with
      | nil => rfl
      | cons c rest => rfl
  | anyOf hcs =>
      obtain ⟨hnode, hstr⟩ := at_cons.mp hat
      refine ⟨finds_one (fun call g => ?_) hk, fun hb => by cases hb⟩
      rw [matchNode, op_of_node hnode, regnext_forward hnode (by simp) (hoff rfl),
        hstr.operand hcs]
      dsimp only
      rw [← List.head?_drop]
      cases s.drop i with
      | nil => rfl
      | cons c rest => simp [Class.mem]
  | anyBut hcs =>
      obtain ⟨hnode, hstr⟩ := at_cons.mp hat
      refine ⟨finds_one (fun call g => ?_) hk, fun hb => by cases hb⟩
      rw [matchNode, op_of_node hnode, regnext_forward hnode (by simp) (hoff rfl),
        hstr.operand hcs]
      dsimp only
      rw [← List.head?_drop]
      cases s.drop i with
      | nil => rfl
      | cons c rest => simp [Class.mem]
  | lit hne hcs => exact ⟨finds_lit hne hcs hat (hoff rfl) hk, fun hb => by cases hb⟩
  | @cat r t hr ht ihr iht =>
      rw [asm, at_append, length_asm] at hat
      obtain ⟨hatr, hatt⟩ := hat
      have hlt := hr.tail_lt
      have hplace : p + tail r + (cells r - tail r) = p + cells r := by omega
      have hcat := (ihr (K := fun j => After s t j K) hatr hi (fun _ => by omega)
        (fun hb => by cases hb) fun j ns hm => ?_).1
      · refine ⟨hcat.congr fun ms e => ?_, fun hb => by cases hb⟩
        constructor
        · rintro ⟨j, ns, -, hm, ⟨k, ns', ks, hm', hw, rfl⟩, rfl⟩
          exact ⟨k, ns ++ ns', ks, .cat hm hm', hw, (List.append_assoc ..).symm⟩
        · rintro ⟨k, ns, ks, hm, hw, rfl⟩
          cases hm with
          | cat hm hm' => exact ⟨_, _, _, hm, ⟨k, _, ks, hm', hw, rfl⟩, List.append_assoc ..⟩
      · have hj : j ≤ s.length := by
          have hbounds := hm.bounds
          omega
        rw [hplace]
        refine (iht hatt hj hoff (fun hb => by cases hb) fun k ns' hm' => ?_).1
        have hend := hk k _ (.cat hm hm')
        rwa [tail, ← Nat.add_assoc] at hend
  | @star r hr hw ih =>
      refine ⟨?_, fun hb => by cases hb⟩
      rw [asm] at hat
      rw [tail] at hk
      split at hat
      · rename_i hs
        rw [if_pos hs] at hk
        refine finds_run hr hs hat (.inl ⟨rfl, rfl⟩) (hoff rfl) (fun k ns => ?_) hk
        exact Regular.matches_star_single_iff fun i j ms => matches_simple hs i j ms
      · rename_i hs
        rw [if_neg hs] at hk
        rw [at_cons, at_append, at_cons, at_cons, at_cons, length_asm] at hat
        obtain ⟨hbranch, hatr, hback, hbranch', hnothing, -⟩ := hat
        have hlt := hr.tail_lt
        have hplace : p + 1 + cells r + 1 = p + (cells r + 2) := by omega
        rw [hplace] at hbranch' hnothing
        refine finds_loop (hr.wide hw) hbranch (Nat.succ_pos _) hbranch' hnothing (hoff rfl)
          (fun i hi hloop => ?_) (fun j ns hm => ?_) hi
        · refine (ih hatr hi (fun _ => by omega) (fun hb => by cases hb) fun j ns hm => ?_).1
          have hto : p + 1 + tail r + (cells r - tail r) = p + 1 + cells r := by omega
          rw [hto]
          refine finds_back hback (Nat.succ_pos _) ?_
          have hfrom : p + 1 + cells r - (cells r + 1) = p := by omega
          rw [hfrom]
          exact hloop j ns hm
        · have hend := hk j ns hm
          have hto : p + (cells r + 3) + off = p + (cells r + 2) + 1 + off := by omega
          rwa [hto] at hend
  | @plus r hr hw ih =>
      refine ⟨?_, fun hb => by cases hb⟩
      rw [asm] at hat
      rw [tail] at hk
      split at hat
      · rename_i hs
        rw [if_pos hs] at hk
        refine finds_run hr hs hat (.inr ⟨rfl, rfl⟩) (hoff rfl) (fun k ns => ?_) hk
        exact matches_plus_simple hs
      · rename_i hs
        rw [if_neg hs] at hk
        rw [at_append, at_cons, at_cons, at_cons, at_cons, length_asm] at hat
        obtain ⟨hatr, hbranch, hback, hbranch', hnothing, -⟩ := hat
        have hlt := hr.tail_lt
        have hto : p + tail r + (cells r - tail r) = p + cells r := by omega
        have hround : ∀ i, i ≤ s.length → ∀ K' : Nat → Ways, (∀ j ns, Matches Class.mem s r i j ns →
            Finds P s (p + cells r) j (K' j)) → Finds P s p i (After s r i K') := by
          intro i hi K' hk'
          refine (ih hatr hi (fun _ => by omega) (fun hb => by cases hb) fun j ns hm => ?_).1
          rw [hto]
          exact hk' j ns hm
        have hloop : ∀ i, i ≤ s.length → (∀ j ns, Matches Class.mem s (.star r) i j ns →
            Finds P s (p + cells r + 2 + 1 + off) j (K j)) →
              Finds P s (p + cells r) i (After s (.star r) i K) := by
          intro i hi hk'
          refine finds_loop (hr.wide hw) hbranch Nat.two_pos hbranch' hnothing (hoff rfl)
            (fun i hi hagain => ?_) hk' hi
          refine finds_back hback (Nat.succ_pos _) ?_
          have hfrom : p + cells r + 1 - (cells r + 1) = p := by omega
          rw [hfrom]
          exact hround i hi _ hagain
        refine (hround i hi _ fun j ns hm => hloop j (by have := hm.bounds; omega)
          fun k ns' hs => ?_).congr fun ms e => ?_
        · have hend := hk k _ (.plus hm hs)
          have hto : p + (cells r + 3) + off = p + cells r + 2 + 1 + off := by omega
          rwa [hto] at hend
        · constructor
          · rintro ⟨j, ns, -, hm, ⟨k, ns', ks, hs, hw, rfl⟩, rfl⟩
            exact ⟨k, ns ++ ns', ks, .plus hm hs, hw, (List.append_assoc ..).symm⟩
          · rintro ⟨k, ns, ks, hm, hw, rfl⟩
            cases hm with
            | plus hm hs => exact ⟨_, _, _, hm, ⟨k, _, ks, hs, hw, rfl⟩, List.append_assoc ..⟩
  | @opt r hr ih =>
      refine ⟨?_, fun hb => by cases hb⟩
      rw [asm, at_cons, at_append, at_cons, at_cons, length_asm] at hat
      rw [tail] at hk
      obtain ⟨hbranch, hatr, hbranch', hnothing, -⟩ := hat
      have hlt := hr.tail_lt
      have hplace : p + 1 + cells r = p + (cells r + 1) := by omega
      rw [hplace] at hbranch' hnothing
      have hto : p + (cells r + 2) + off = p + (cells r + 1) + 1 + off := by omega
      rw [hto] at hk
      have hround : Finds P s (p + 1) i (After s r i K) := by
        refine (ih hatr hi (fun _ => by omega) (fun hb => by cases hb) fun j ns hm => ?_).1
        have hto : p + 1 + tail r + (cells r + 1 - tail r) = p + (cells r + 1) + 1 := by omega
        rw [hto]
        exact finds_pass hnothing (hoff rfl) (hk j ns (.opt hm))
      refine (finds_either hbranch (Nat.succ_pos _) hbranch' hnothing (hoff rfl) hround
        (hk i [] (.skip r i))).congr fun ms e => ?_
      constructor
      · rintro (⟨j, ns, ks, hm, hw, rfl⟩ | hw)
        · exact ⟨j, ns, ks, .opt hm, hw, rfl⟩
        · exact ⟨i, [], ms, .skip r i, hw, rfl⟩
      · rintro ⟨j, ns, ks, hm, hw, rfl⟩
        cases hm with
        | skip => exact .inr hw
        | opt hm => exact .inl ⟨j, ns, ks, hm, hw, rfl⟩
  | @group no r hlo hhi hr ih =>
      refine ⟨?_, fun hb => by cases hb⟩
      rw [asm, at_cons, at_append, at_cons, length_asm] at hat
      rw [tail] at hk
      obtain ⟨hopen, hatr, hclose, -⟩ := hat
      have hplace : p + 1 + cells r = p + (cells r + 1) := by omega
      have hinner := (ih (K := fun j ms e => ∃ ns, K j ns e ∧ ms = .closes no j :: ns) hatr hi
        (fun hb => by cases hb) (fun _ => ⟨rfl, ?_⟩) fun j ns hm => ?_).1
      · refine (finds_open hopen Nat.one_pos hlo hhi hinner).congr fun ms e => ?_
        constructor
        · rintro ⟨-, ⟨j, ns, -, hm, ⟨ks, hw, rfl⟩, rfl⟩, rfl⟩
          refine ⟨j, .opens no i :: (ns ++ [.closes no j]), ks, .group hm, hw, ?_⟩
          simp
        · rintro ⟨j, ns, ks, hm, hw, rfl⟩
          cases hm with
          | @group _ _ _ _ ns hm =>
              refine ⟨ns ++ (.closes no j :: ks),
                ⟨j, ns, .closes no j :: ks, hm, ⟨ks, hw, rfl⟩, rfl⟩, ?_⟩
              simp
      · rw [hr.tail_choice, op_of_node hclose]
        simp
      · rw [hr.tail_choice, Nat.add_zero]
        refine finds_close hclose (hoff rfl) hlo hhi ?_
        rw [hplace]
        exact hk j _ (.group hm)
  | @branch r hr ih =>
      obtain ⟨rfl, hop⟩ := hlast rfl
      rw [asm, at_cons] at hat
      obtain ⟨hbranch, hatr⟩ := hat
      have hlt := hr.tail_lt
      rw [tail] at hk hop
      have hto : p + 1 + tail r + (cells r - tail r) = p + (cells r + 1) := by omega
      have hinner : Finds P s (p + 1) i (After s (.branch r) i K) := by
        refine (ih (K := K) hatr hi (fun _ => by omega) (fun hb => by cases hb)
          fun j ns hm => ?_).1.congr
          fun ms e => ?_
        · rw [hto]
          exact hk j ns (.branch hm)
        · constructor
          · rintro ⟨j, ns, ks, hm, hw, rfl⟩
            exact ⟨j, ns, ks, .branch hm, hw, rfl⟩
          · rintro ⟨j, ns, ks, hm, hw, rfl⟩
            cases hm with
            | branch hm => exact ⟨j, ns, ks, hm, hw, rfl⟩
      refine ⟨finds_single hbranch (Nat.succ_pos _) hop hinner, fun _ => ⟨op_of_node hbranch, ?_⟩⟩
      exact tried_last hbranch (Nat.succ_pos _) hop hinner
  | @alt r t hr ht ihr iht =>
      obtain ⟨rfl, hop⟩ := hlast rfl
      rw [asm, at_cons, at_append, length_asm] at hat
      obtain ⟨hbranch, hatr, hatt⟩ := hat
      have hlt := hr.tail_lt
      have hplace : p + 1 + cells r = p + (cells r + 1) := by omega
      rw [hplace] at hatt
      rw [tail, Nat.add_zero] at hk
      rw [tail] at hop
      have hto : p + 1 + tail r + (cells r + cells t - tail r) = p + (cells r + cells t + 1) := by
        omega
      have hto' : p + (cells r + 1) + tail t = p + (cells r + cells t + 1) := by
        rw [ht.tail_choice]
        omega
      have hfirst : Finds P s (p + 1) i (After s r i K) := by
        refine (ihr hatr hi (fun _ => by omega) (fun hb => by cases hb) fun j ns hm => ?_).1
        rw [hto]
        exact hk j ns (.left t hm)
      have hrest := (iht (K := K) hatt hi (fun hb => by cases hb) (fun _ => ⟨rfl, by rwa [hto']⟩)
        fun j ns hm => ?_).2 rfl
      · have htried := tried_more hbranch (Nat.succ_pos _) hrest.1 hfirst hrest.2
        have hsame : ∀ ms e, (After s r i K ms e ∨ After s t i K ms e) ↔
            After s (.alt r t) i K ms e := by
          intro ms e
          constructor
          · rintro (⟨j, ns, ks, hm, hw, rfl⟩ | ⟨j, ns, ks, hm, hw, rfl⟩)
            · exact ⟨j, ns, ks, .left t hm, hw, rfl⟩
            · exact ⟨j, ns, ks, .right r hm, hw, rfl⟩
          · rintro ⟨j, ns, ks, hm, hw, rfl⟩
            cases hm with
            | left t hm => exact .inl ⟨j, ns, ks, hm, hw, rfl⟩
            | right r hm => exact .inr ⟨j, ns, ks, hm, hw, rfl⟩
        have hall : Tried P s p i (After s (.alt r t) i K) := fun n hn => (htried n hn).congr hsame
        exact ⟨finds_choice hbranch (Nat.succ_pos _) hrest.1 hall,
          fun _ => ⟨op_of_node hbranch, hall⟩⟩
      · rw [hto', Nat.add_zero]
        exact hk j ns (.right r hm)

end Regexp
