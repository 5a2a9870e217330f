import Zzdwm.Regexp.Descent
import Zzdwm.Regexp.Running

/-!
# The search (`regexec`)

A compiled pattern is searched for from place to place.  What the compiler has noted for
the search leaves out places where no match begins.

* `compiled_finds` — a try at one place;
* `Fits.first`, `Fits.onChain` — the first node of a program, and the strings on its chain;
* `Prog.Notes` — what is noted is true of every match;
* `notes_lossless` — the notes change nothing;
* `regexec_leftmost` — **the search finds the first match of the pattern**.
-/

namespace Regexp

open Ascii (Byte)
open Regular (Re Mark Matches Spans record)

variable {b : Bool} {r t : Exp} {P : Code} {s : List Byte} {p q e i off : Nat} {op : Op}

/-- The program of a pattern. -/
def compiled (r : Exp) : Code := .char MAGIC :: (asm r 0 ++ [.node .END 0])

theorem at_compiled (r : Exp) : At (compiled r) 1 (asm r 0 ++ [.node .END 0]) := by
  have hat := at_of_append [.char MAGIC] (asm r 0 ++ [.node .END 0]) []
  rwa [List.append_nil] at hat

theorem compiled_end (r : Exp) : (compiled r)[1 + cells r]? = some (.node .END 0) := by
  have hat := (at_append.mp (at_compiled r)).2
  rw [length_asm] at hat
  exact (at_cons.mp hat).1

/-- **A try at one place** finds a match there if there is one. -/
theorem compiled_finds (h : Fits true r) (hi : i ≤ s.length) :
    Finds (compiled r) s 1 i fun ms e => Matches Class.mem s r i e ms := by
  have hend := compiled_end r
  have hlast : (compiled r).op (1 + tail r) ≠ some .BRANCH := by
    rw [h.tail_choice, op_of_node hend]
    simp
  have hk : ∀ j ns, Matches Class.mem s r i j ns →
      Finds (compiled r) s (1 + tail r + 0) j fun ms e => ms = [] ∧ e = j := by
    intro j ns _
    rw [h.tail_choice, Nat.add_zero]
    exact finds_end hend
  refine (h.finds (at_append.mp (at_compiled r)).1 hi (fun hb => by cases hb)
    (fun _ => ⟨rfl, hlast⟩) hk).1.congr ?_
  intro ms e
  constructor
  · rintro ⟨j, ns, ks, hm, ⟨rfl, rfl⟩, rfl⟩
    rwa [List.append_nil]
  · intro hm
    exact ⟨e, ms, [], hm, ⟨rfl, rfl⟩, (List.append_nil ms).symm⟩

/-! ## The first node -/

/-- **What begins every match.**  If the first node is a string or `^`, every match of the
expression begins with a match of it. -/
theorem Fits.first (h : Fits b r) (hat : At P p (asm r off))
    (hop : P.op p = some .EXACTLY ∨ P.op p = some .BOL) :
    ∃ u off', At P p (asm u off') ∧ (u = .bol ∨ ∃ cs, u = .lit cs ∧ cs ≠ [] ∧ 0 ∉ cs) ∧
      ∀ (s : List Byte) (i j : Nat) (ms : List Mark), Matches Class.mem s r i j ms →
        ∃ k ns, Matches Class.mem s u i k ns := by
  have hnot : ∀ {d : Op} {n : Nat}, P[p]? = some (.node d n) → d ≠ .EXACTLY → d ≠ .BOL → False := by
    intro d n hnode hne hne'
    rw [op_of_node hnode] at hop
    simp_all
  induction h generalizing off with
  | nothing => exact (hnot (at_cons.mp hat).1 (by simp) (by simp)).elim
  | bol => exact ⟨.bol, off, hat, .inl rfl, fun s i j ms hm => ⟨j, ms, hm⟩⟩
  | eol => exact (hnot (at_cons.mp hat).1 (by simp) (by simp)).elim
  | any => exact (hnot (at_cons.mp hat).1 (by simp) (by simp)).elim
  | anyOf hcs => exact (hnot (at_cons.mp hat).1 (by simp) (by simp)).elim
  | anyBut hcs => exact (hnot (at_cons.mp hat).1 (by simp) (by simp)).elim
  | lit hne hcs => exact ⟨_, off, hat, .inr ⟨_, rfl, hne, hcs⟩, fun s i j ms hm => ⟨j, ms, hm⟩⟩
  | cat hr ht ihr iht =>
      obtain ⟨u, off', hu, hkind, hall⟩ := ihr (at_append.mp hat).1
      refine ⟨u, off', hu, hkind, fun s i j ms hm => ?_⟩
      cases hm with
      | cat hr ht => exact hall _ _ _ _ hr
  | @star r hr hw ih =>
      rw [asm] at hat
      split at hat
      · exact (hnot (at_cons.mp hat).1 (by simp) (by simp)).elim
      · exact (hnot (at_cons.mp hat).1 (by simp) (by simp)).elim
  | @plus r hr hw ih =>
      rw [asm] at hat
      split at hat
      · exact (hnot (at_cons.mp hat).1 (by simp) (by simp)).elim
      · obtain ⟨u, off', hu, hkind, hall⟩ := ih (at_append.mp hat).1
        refine ⟨u, off', hu, hkind, fun s i j ms hm => ?_⟩
        cases hm with
        | plus hr hs => exact hall _ _ _ _ hr
  | opt hr ih => exact (hnot (at_cons.mp hat).1 (by simp) (by simp)).elim
  | group hlo hhi hr ih => exact (hnot (at_cons.mp hat).1 (by simp) (by simp)).elim
  | branch hr ih => exact (hnot (at_cons.mp hat).1 (by simp) (by simp)).elim
  | alt hr ht ihr iht => exact (hnot (at_cons.mp hat).1 (by simp) (by simp)).elim

/-- A string comes first. -/
theorem Fits.first_char (h : Fits b r) (hat : At P p (asm r off)) (hop : P.op p = some .EXACTLY) :
    ∃ c, (P.operand p).head? = some c ∧
      ∀ (s : List Byte) (i j : Nat) (ms : List Mark), Matches Class.mem s r i j ms →
        s[i]? = some c := by
  obtain ⟨u, off', hu, hkind, hall⟩ := h.first hat (.inl hop)
  rcases hkind with rfl | ⟨cs, rfl, hne, hcs⟩
  · rw [op_of_node (at_cons.mp hu).1] at hop
    cases hop
  · rw [asm, at_cons] at hu
    rw [hu.2.operand hcs]
    obtain ⟨c, cs, rfl⟩ := List.exists_cons_of_ne_nil hne
    refine ⟨c, rfl, fun s i j ms hm => ?_⟩
    obtain ⟨k, ns, hm⟩ := hall s i j ms hm
    cases hm with
    | lit hprefix =>
        obtain ⟨rest, hrest⟩ := hprefix
        have hhead := congrArg List.head? hrest
        rw [List.head?_drop] at hhead
        exact hhead.symm

/-- `^` comes first. -/
theorem Fits.first_bol (h : Fits b r) (hat : At P p (asm r off)) (hop : P.op p = some .BOL)
    {j : Nat} {ms : List Mark} (hm : Matches Class.mem s r i j ms) : i = 0 := by
  obtain ⟨u, off', hu, hkind, hall⟩ := h.first hat (.inr hop)
  rcases hkind with rfl | ⟨cs, rfl, -, -⟩
  · obtain ⟨k, ns, hm⟩ := hall s i j ms hm
    cases hm
    rfl
  · rw [asm, at_cons] at hu
    rw [op_of_node hu.1] at hop
    cases hop

/-! ## The chain -/

theorem Forward.of_node (h : Forward P p q) (hnode : P[p]? = some (.node op off))
    (hop : op ≠ .BACK) (hoff : 0 < off) : q = p ∨ Forward P (p + off) q := by
  cases h with
  | refl => exact .inl rfl
  | step hnext hlt hf =>
      rw [regnext_forward hnode hop hoff] at hnext
      cases hnext
      exact .inr hf

/-- On a chain with an end the next node is on it too. -/
theorem Forward.next {q' : Nat} (h : Forward P p q) (he : Forward P p e) (hend : regnext P e = none)
    (hnext : regnext P q = some q') : Forward P p q' := by
  have hahead : Forward P q e := by
    rcases h.linear he with hahead | hbehind
    · exact hahead
    · cases hbehind with
      | refl => exact .refl _
      | step hnext' hlt hf =>
          rw [hend] at hnext'
          cases hnext'
  cases hahead with
  | refl =>
      rw [hend] at hnext
      cases hnext
  | step hnext' hlt hf =>
      rw [hnext] at hnext'
      cases hnext'
      exact h.trans (.step hnext hlt (.refl _))

/-- Behind a program the chain goes on behind its last node. -/
theorem Fits.chain_behind (h : Fits false r) (hat : At P p (asm r off)) (hoff : 0 < off)
    (hq : Forward P p q) (hlt : p + tail r < q) : Forward P (p + tail r + off) q := by
  obtain ⟨op, hop, hlast⟩ := h.last hat
  have hchain : Forward P (p + tail r) q := by
    rcases hq.linear (h.forward hat) with hahead | hchain
    · exact absurd hahead.le (Nat.not_le_of_lt hlt)
    · exact hchain
  rcases hchain.of_node hlast hop hoff with heq | hchain
  · exact absurd heq (Nat.ne_of_gt hlt)
  · exact hchain

theorem ne_place (hop : P.op q = some .EXACTLY) (hnode : P[p]? = some (.node op off))
    (hne : op ≠ .EXACTLY) : q ≠ p := by
  rintro rfl
  rw [op_of_node hnode] at hop
  exact hne (Option.some.inj hop)

/-- The empty branch of a loop. -/
theorem not_empty_branch (hop : P.op q = some .EXACTLY) (hbranch : P[p]? = some (.node .BRANCH 1))
    (hnothing : P[p + 1]? = some (.node .NOTHING off)) (hq : Forward P p q) : p + 1 < q := by
  rcases hq.of_node hbranch (by simp) Nat.one_pos with heq | hq
  · exact absurd heq (ne_place hop hbranch (by simp))
  · have hne := ne_place hop hnothing (by simp)
    have hle := hq.le
    omega

/-- **The strings on a chain.**  Every match of an expression goes through the strings on
the chain of its program; on the chain of a choice there is none. -/
theorem Fits.onChain (h : Fits b r) (hat : At P p (asm r off)) (hq : Forward P p q)
    (hle : q ≤ p + tail r) (hop : P.op q = some .EXACTLY) :
    (b = true ∧ q = p + tail r) ∨
      (b = false ∧ ∀ (s : List Byte) (i j : Nat) (ms : List Mark), Matches Class.mem s r i j ms →
        P.operand q <:+: s) := by
  induction h generalizing p off with
  | lit hne hcs =>
      have hplace : q = p := Nat.le_antisymm hle hq.le
      rw [asm, at_cons] at hat
      refine .inr ⟨rfl, fun s i j ms hm => ?_⟩
      rw [hplace, hat.2.operand hcs]
      cases hm with
      | lit hprefix => exact hprefix.isInfix.trans (List.drop_suffix i s).isInfix
  | @cat r t hr ht ihr iht =>
      rw [asm, at_append, length_asm] at hat
      obtain ⟨hatr, hatt⟩ := hat
      have hlt := hr.tail_lt
      rcases Nat.lt_or_ge (p + tail r) q with hbehind | hin
      · have hchain := hr.chain_behind hatr (Nat.sub_pos_of_lt hlt) hq hbehind
        have hplace : p + tail r + (cells r - tail r) = p + cells r := by omega
        rw [hplace] at hchain
        rw [tail, ← Nat.add_assoc] at hle
        rcases iht hatt hchain hle with ⟨hb, -⟩ | ⟨-, hall⟩
        · cases hb
        · refine .inr ⟨rfl, fun s i j ms hm => ?_⟩
          cases hm with
          | cat hmr hmt => exact hall _ _ _ _ hmt
      · rcases ihr hatr hq hin with ⟨hb, -⟩ | ⟨-, hall⟩
        · cases hb
        · refine .inr ⟨rfl, fun s i j ms hm => ?_⟩
          cases hm with
          | cat hmr hmt => exact hall _ _ _ _ hmr
  | @star r hr hw ih =>
      rw [asm] at hat
      rw [tail] at hle
      split at hat
      · rename_i hs
        rw [if_pos hs] at hle
        exact absurd (Nat.le_antisymm hle hq.le) (ne_place hop (at_cons.mp hat).1 (by simp))
      · rename_i hs
        rw [at_cons, at_append, at_cons, at_cons, at_cons, length_asm] at hat
        obtain ⟨hbranch, -, -, hlast, hnothing, -⟩ := hat
        have hplace : p + 1 + cells r + 1 = p + (cells r + 2) := by omega
        rw [hplace] at hlast hnothing
        rw [if_neg hs] at hle
        rcases hq.of_node hbranch (by simp) (Nat.succ_pos _) with heq | hq
        · exact absurd heq (ne_place hop hbranch (by simp))
        · have hlt := not_empty_branch hop hlast hnothing hq
          omega
  | @plus r hr hw ih =>
      rw [asm] at hat
      rw [tail] at hle
      split at hat
      · rename_i hs
        rw [if_pos hs] at hle
        exact absurd (Nat.le_antisymm hle hq.le) (ne_place hop (at_cons.mp hat).1 (by simp))
      · rename_i hs
        rw [at_append, at_cons, at_cons, at_cons, at_cons, length_asm] at hat
        obtain ⟨hatr, hbranch, -, hlast, hnothing, -⟩ := hat
        have hlt := hr.tail_lt
        rw [if_neg hs] at hle
        rcases Nat.lt_or_ge (p + tail r) q with hbehind | hin
        · have hchain := hr.chain_behind hatr (Nat.sub_pos_of_lt hlt) hq hbehind
          have hplace : p + tail r + (cells r - tail r) = p + cells r := by omega
          rw [hplace] at hchain
          rcases hchain.of_node hbranch (by simp) Nat.two_pos with heq | hchain
          · exact absurd heq (ne_place hop hbranch (by simp))
          · have hbeyond := not_empty_branch hop hlast hnothing hchain
            omega
        · rcases ih hatr hq hin with ⟨hb, -⟩ | ⟨-, hall⟩
          · cases hb
          · refine .inr ⟨rfl, fun s i j ms hm => ?_⟩
            cases hm with
            | plus hmr hms => exact hall _ _ _ _ hmr
  | @opt r hr ih =>
      rw [asm, at_cons, at_append, at_cons, at_cons, length_asm] at hat
      obtain ⟨hbranch, -, hlast, hnothing, -⟩ := hat
      have hplace : p + 1 + cells r = p + (cells r + 1) := by omega
      rw [hplace] at hlast hnothing
      rw [tail] at hle
      rcases hq.of_node hbranch (by simp) (Nat.succ_pos _) with heq | hq
      · exact absurd heq (ne_place hop hbranch (by simp))
      · have hlt := not_empty_branch hop hlast hnothing hq
        omega
  | @group no r hlo hhi hr ih =>
      rw [asm, at_cons, at_append, at_cons, length_asm] at hat
      obtain ⟨hopen, hatr, hclose, -⟩ := hat
      have htail := hr.tail_choice
      rw [tail] at hle
      rcases hq.of_node hopen (by simp) Nat.one_pos with heq | hq
      · exact absurd heq (ne_place hop hopen (by simp))
      · rcases ih hatr hq (by omega) with ⟨-, heq⟩ | ⟨hb, -⟩
        · rw [htail] at heq
          exact absurd heq (ne_place hop hclose (by simp))
        · cases hb
  | branch hr ih =>
      rw [asm, at_cons] at hat
      rcases hq.of_node hat.1 (by simp) (Nat.succ_pos _) with heq | hq
      · exact absurd heq (ne_place hop hat.1 (by simp))
      · exact .inl ⟨rfl, Nat.le_antisymm hle hq.le⟩
  | @alt r t hr ht ihr iht =>
      rw [asm, at_cons, at_append, length_asm] at hat
      obtain ⟨hbranch, -, hatt⟩ := hat
      have hplace : p + 1 + cells r = p + (cells r + 1) := by omega
      have hend : p + (cells r + 1) + tail t = p + tail (.alt r t) := by
        rw [ht.tail_choice, tail]
        omega
      rw [hplace] at hatt
      rcases hq.of_node hbranch (by simp) (Nat.succ_pos _) with heq | hq
      · exact absurd heq (ne_place hop hbranch (by simp))
      · rcases iht hatt hq (hend ▸ hle) with ⟨-, heq⟩ | ⟨hb, -⟩
        · exact .inl ⟨rfl, heq.trans hend⟩
        · cases hb
  | _ => exact absurd (Nat.le_antisymm hle hq.le) (ne_place hop (at_cons.mp hat).1 (by simp))

/-- **The longest string** is one of those on the chain. -/
theorem longestString_mem {f : Nat} {scan : Option Nat} {longest : Option (List Byte)}
    {must : List Byte} (he : Forward P p e) (hend : regnext P e = none)
    (hscan : ∀ q, scan = some q → Forward P p q)
    (hlongest : ∀ m, longest = some m →
      ∃ q, Forward P p q ∧ P.op q = some .EXACTLY ∧ P.operand q = m)
    (h : longestString P f scan longest = some must) :
    ∃ q, Forward P p q ∧ P.op q = some .EXACTLY ∧ P.operand q = must := by
  induction f generalizing scan longest with
  | zero => exact hlongest must h
  | succ f ih =>
      cases scan with
      | none => exact hlongest must h
      | some q =>
          rw [longestString] at h
          have hq := hscan q rfl
          refine ih (fun q' hnext => hq.next he hend hnext) (fun m hm => ?_) h
          split at hm
          · rename_i hlonger
            exact ⟨q, hq, hlonger.1, Option.some.inj hm⟩
          · exact hlongest m hm

/-! ## The notes -/

/-- What is noted for the search is true of every match. -/
structure Prog.Notes (prog : Prog) (r : Exp) : Prop where
  code : prog.program = compiled r
  start : ∀ c, prog.regstart = some c →
    ∀ (s : List Byte) (i j : Nat) (ms : List Mark), Matches Class.mem s r i j ms → s[i]? = some c
  anch : prog.reganch = true →
    ∀ (s : List Byte) (i j : Nat) (ms : List Mark), Matches Class.mem s r i j ms → i = 0
  must : ∀ m, prog.regmust = some m →
    ∀ (s : List Byte) (i j : Nat) (ms : List Mark), Matches Class.mem s r i j ms → m <:+: s

/-- **The compiler notes what is true.** -/
theorem digOut_notes (h : Fits true r) (spStart : Bool) : (digOut spStart (compiled r)).Notes r := by
  have hat := (at_append.mp (at_compiled r)).1
  have hend := compiled_end r
  cases h with
  | @alt t u ht hu =>
      rw [asm, at_cons, at_append, length_asm] at hat
      obtain ⟨hbranch, -, hatu⟩ := hat
      have hplace : 1 + 1 + cells t = 1 + (cells t + 1) := by omega
      rw [hplace] at hatu
      have hnot : ¬ (compiled (.alt t u)).op (1 + (cells t + 1)) = some .END := by
        intro hop
        cases hu with
        | branch hu =>
            rw [asm, at_cons] at hatu
            rw [op_of_node hatu.1] at hop
            cases hop
        | alt hu hv =>
            rw [asm, at_cons] at hatu
            rw [op_of_node hatu.1] at hop
            cases hop
      rw [digOut, regnext_forward hbranch (by simp) (Nat.succ_pos _)]
      dsimp only
      rw [if_neg hnot]
      refine ⟨rfl, fun c hc => ?_, fun ha => ?_, fun m hm => ?_⟩
      · cases hc
      · cases ha
      · cases hm
  | @branch t ht =>
      rw [asm, at_cons] at hat
      obtain ⟨hbranch, hatt⟩ := hat
      have hlt := ht.tail_lt
      have hchain := ht.behind hatt (Nat.sub_pos_of_lt hlt)
      have hplace : 1 + 1 + tail t + (cells t - tail t) = 1 + cells (.branch t) := by
        rw [cells]
        omega
      rw [hplace] at hchain
      have hop : (compiled (.branch t)).op (1 + (cells t + 1)) = some .END := op_of_node hend
      rw [digOut, regnext_forward hbranch (by simp) (Nat.succ_pos _)]
      dsimp only
      rw [if_pos hop]
      refine ⟨rfl, fun c hc => ?_, fun ha => ?_, fun m hm => ?_⟩
      · dsimp only at hc
        split at hc
        · rename_i hfirst
          obtain ⟨d, hd, hall⟩ := ht.first_char hatt hfirst
          intro s i j ms hm
          cases hm with
          | branch hm =>
              rw [hall s i j ms hm, ← hd]
              exact hc
        · cases hc
      · intro s i j ms hm
        cases hm with
        | branch hm => exact ht.first_bol hatt (by simpa using ha) hm
      · dsimp only at hm
        split at hm
        · obtain ⟨q, hq, hexactly, hoperand⟩ := longestString_mem hchain (regnext_none hend)
            (fun q hq => Option.some.inj hq ▸ .refl _) (fun m hm => by cases hm) hm
          have hle : q ≤ 1 + 1 + tail t := by
            rcases Nat.lt_or_ge (1 + 1 + tail t) q with hbehind | hin
            · have hlate := ht.chain_behind hatt (Nat.sub_pos_of_lt hlt) hq hbehind
              rw [hplace] at hlate
              cases hlate with
              | refl =>
                  rw [op_of_node hend] at hexactly
                  cases hexactly
              | step hnext hlt hf =>
                  rw [regnext_none hend] at hnext
                  cases hnext
            · exact hin
          rcases ht.onChain hatt hq hle hexactly with ⟨hb, -⟩ | ⟨-, hall⟩
          · cases hb
          · intro s i j ms hm
            cases hm with
            | branch hm => exact hoperand ▸ hall s i j ms hm
        · cases hm

theorem appears_of_infix {m : List Byte} (h : m <:+: s) : appears m s = true := by
  induction s with
  | nil =>
      rw [List.infix_nil.mp h]
      rfl
  | cons c s ih =>
      rw [appears]
      split
      · rfl
      · rename_i hnot
        refine ih ?_
        rcases List.infix_cons_iff.mp h with hprefix | hinfix
        · cases m with
          | nil => exact List.nil_infix
          | cons d m =>
              obtain ⟨rest, hrest⟩ := hprefix
              obtain ⟨rfl, rfl⟩ := List.cons.inj hrest
              refine absurd ⟨rfl, ?_⟩ hnot
              exact (congrArg (List.take _) hrest).symm.trans List.take_left
        · exact hinfix

/-! ## From place to place -/

/-- The match at the first of the places where one begins, if there is one. -/
def First (s : List Byte) (r : Exp) (places : List Nat) : Option Found → Prop
  | none => ∀ k ∈ places, ∀ e ms, ¬ Matches Class.mem s r k e ms
  | some (i, st) => i ∈ places ∧
      (∃ ms, Matches Class.mem s r i st.reginput ms ∧ st.spans = record ms .none) ∧
      ∀ k ∈ places, k < i → ∀ e ms, ¬ Matches Class.mem s r k e ms

/-- What a search of a string is for: its first match. -/
def Leftmost (r : Exp) (string : List Byte) (found : Option Found) : Prop :=
  First (string.takeWhile (· ≠ 0)) r (List.range ((string.takeWhile (· ≠ 0)).length + 1)) found

variable {prog : Prog} {places : List Nat} {f : Nat}

/-- **`search`** finds the first match. -/
theorem search_first (h : Fits true r) (hcode : prog.program = compiled r)
    (hplaces : ∀ k ∈ places, k ≤ s.length) (hsorted : places.Pairwise (· < ·)) :
    ∃ found f₀, (∀ f, f₀ ≤ f → search f prog s places = .ok found) ∧ First s r places found := by
  induction places with
  | nil => exact ⟨none, 0, fun f _ => rfl, fun k hk => by cases hk⟩
  | cons i is ih =>
      obtain ⟨hfirst, hsorted⟩ := List.pairwise_cons.mp hsorted
      have htry := compiled_finds h (hplaces i List.mem_cons_self)
      rw [← hcode] at htry
      rcases htry with ⟨ms, e, hm, f₀, hrun⟩ | ⟨hnone, f₀, hrun⟩
      · refine ⟨some (i, ⟨e, record ms .none⟩), f₀, fun f hf => ?_, List.mem_cons_self,
          ⟨ms, hm, rfl⟩, fun k hk hlt => ?_⟩
        · have hfound : regtry f prog s i = .ok (some ⟨e, record ms .none⟩) := hrun f .none hf
          rw [search, hfound]
          rfl
        · rcases List.mem_cons.mp hk with rfl | hk
          · exact absurd hlt (Nat.lt_irrefl k)
          · exact absurd hlt (Nat.lt_asymm (hfirst k hk))
      · obtain ⟨found, f₁, hrest, hspec⟩ :=
          ih (fun k hk => hplaces k (List.mem_cons_of_mem i hk)) hsorted
        refine ⟨found, max f₀ f₁, fun f hf => ?_, ?_⟩
        · have hmiss : regtry f prog s i = .ok none := hrun f .none (by omega)
          rw [search, hmiss]
          exact hrest f (by omega)
        · cases found with
          | none =>
              intro k hk e ms
              rcases List.mem_cons.mp hk with rfl | hk
              · exact hnone ms e
              · exact hspec k hk e ms
          | some found =>
              obtain ⟨hin, hmatch, hbefore⟩ := hspec
              refine ⟨List.mem_cons_of_mem i hin, hmatch, fun k hk hlt e ms => ?_⟩
              rcases List.mem_cons.mp hk with rfl | hk
              · exact hnone ms e
              · exact hbefore k hk hlt e ms

/-- With fuel enough a try fails where no match begins, whatever the place. -/
theorem regtry_none (h : Fits true r) (hcode : prog.program = compiled r) (s : List Byte) :
    ∃ f₀, ∀ f, f₀ ≤ f → ∀ i ≤ s.length, (∀ e ms, ¬ Matches Class.mem s r i e ms) →
      regtry f prog s i = .ok none := by
  have hplace : ∀ i, ∃ f₀, i ≤ s.length → (∀ e ms, ¬ Matches Class.mem s r i e ms) →
      ∀ f, f₀ ≤ f → regtry f prog s i = .ok none := by
    intro i
    by_cases hi : i ≤ s.length
    · have htry := compiled_finds h hi
      rw [← hcode] at htry
      rcases htry with ⟨ms, e, hm, -⟩ | ⟨-, f₀, hrun⟩
      · exact ⟨0, fun _ hnone => absurd hm (hnone e ms)⟩
      · exact ⟨f₀, fun _ _ f hf => hrun f .none hf⟩
    · exact ⟨0, fun hi' => absurd hi' hi⟩
  choose F hF using hplace
  refine ⟨(Finset.range (s.length + 1)).sup F, fun f hf i hi hnone => hF i hi hnone f ?_⟩
  have hle : F i ≤ (Finset.range (s.length + 1)).sup F :=
    Finset.le_sup (Finset.mem_range.mpr (Nat.lt_succ_of_le hi))
  exact Nat.le_trans hle hf

/-- Only the program counts for the tries. -/
theorem search_congr {prog' : Prog} (h : prog.program = prog'.program) (places : List Nat) :
    search f prog s places = search f prog' s places := by
  induction places with
  | nil => rfl
  | cons i is ih => rw [search, search, regtry, regtry, h, ih]

/-- Places where the try fails can be left out. -/
theorem search_filter {keep : Nat → Bool}
    (hnone : ∀ k ∈ places, keep k = false → regtry f prog s k = .ok none) :
    search f prog s (places.filter keep) = search f prog s places := by
  induction places with
  | nil => rfl
  | cons i is ih =>
      have hrest := ih fun k hk => hnone k (List.mem_cons_of_mem i hk)
      cases hk : keep i with
      | true => rw [List.filter_cons_of_pos hk, search, search, hrest]
      | false =>
          have hmiss := hnone i List.mem_cons_self hk
          rw [List.filter_cons_of_neg (by simp [hk]), search, hmiss, hrest]
          rfl

/-- `^`: of all places the first one is tried. -/
theorem filter_first (n : Nat) : (List.range (n + 1)).filter (fun i => decide (i = 0)) = [0] := by
  rw [List.range_succ_eq_map, List.filter_cons_of_pos (by simp), List.filter_map]
  simp

/-- A first character: the end of the string is no place to begin. -/
theorem filter_start (s : List Byte) (c : Byte) :
    (List.range (s.length + 1)).filter (fun i => decide (s[i]? = some c)) =
      (List.range s.length).filter fun i => decide (s[i]? = some c) := by
  rw [List.range_succ, List.filter_append]
  simp

/-- **The notes change nothing.** -/
theorem Prog.Notes.regexec_eq (hn : prog.Notes r) (h : Fits true r) (string : List Byte) :
    ∃ f₀, ∀ f, f₀ ≤ f → regexec f prog string = search f prog (string.takeWhile (· ≠ 0))
      (List.range ((string.takeWhile (· ≠ 0)).length + 1)) := by
  obtain ⟨s, hs⟩ : ∃ s, s = string.takeWhile (· ≠ 0) := ⟨_, rfl⟩
  obtain ⟨f₀, hnone⟩ := regtry_none h hn.code s
  have hleave : ∀ (keep : Nat → Bool),
      (∀ i, keep i = false → ∀ e ms, ¬ Matches Class.mem s r i e ms) →
      ∀ f, f₀ ≤ f → search f prog s (List.range (s.length + 1)) =
        search f prog s ((List.range (s.length + 1)).filter keep) := by
    intro keep hkeep f hf
    refine (search_filter fun k hk hout => ?_).symm
    exact hnone f hf k (Nat.le_of_lt_succ (List.mem_range.mp hk)) (hkeep k hout)
  refine ⟨f₀, fun f hf => ?_⟩
  rw [regexec, ← hs]
  split
  · rename_i hmust
    obtain ⟨m, hm, hmiss⟩ := (Option.any_eq_true _ _).mp hmust
    have hout := hleave (fun _ => false) (fun i _ e ms hmatch => ?_) f hf
    · rw [hout, List.filter_false]
      rfl
    · have happears := appears_of_infix (hn.must m hm s i e ms hmatch)
      rw [happears] at hmiss
      cases hmiss
  · split
    · rename_i hanch
      have hout := hleave (fun i => decide (i = 0)) (fun i hi e ms hmatch => ?_) f hf
      · rw [hout, filter_first]
      · exact absurd (hn.anch hanch s i e ms hmatch) (by simpa using hi)
    · split
      · rename_i c hstart
        have hout := hleave (fun i => decide (s[i]? = some c)) (fun i hi e ms hmatch => ?_) f hf
        · rw [hout, filter_start]
        · exact absurd (hn.start c hstart s i e ms hmatch) (by simpa using hi)
      · rfl

/-- **The search finds the first match**, if there is one. -/
theorem Prog.Notes.finds (hn : prog.Notes r) (h : Fits true r) (string : List Byte) :
    ∃ found f₀, (∀ f, f₀ ≤ f → regexec f prog string = .ok found) ∧ Leftmost r string found := by
  obtain ⟨f₀, heq⟩ := hn.regexec_eq h string
  obtain ⟨found, f₁, hsearch, hfirst⟩ := search_first h hn.code
    (fun k hk => Nat.le_of_lt_succ (List.mem_range.mp hk)) List.pairwise_lt_range
  refine ⟨found, max f₀ f₁, fun f hf => ?_, hfirst⟩
  rw [heq f (by omega)]
  exact hsearch f (by omega)

/-- What is found is a match. -/
theorem Prog.Notes.found (hn : prog.Notes r) (h : Fits true r) (string : List Byte) :
    ∃ f₀, ∀ f, f₀ ≤ f → ∀ i st, regexec f prog string = .ok (some (i, st)) →
      ∃ ms, Matches Class.mem (string.takeWhile (· ≠ 0)) r i st.reginput ms ∧
        st.spans = record ms .none := by
  obtain ⟨found, f₀, hsearch, hfirst⟩ := hn.finds h string
  refine ⟨f₀, fun f hf i st hrun => ?_⟩
  have hboth := hsearch f hf
  rw [hrun] at hboth
  cases hboth
  exact hfirst.2.1

/-! ## Patterns -/

variable {exp : List Byte}

theorem regcomp_notes (h : regcomp exp = .ok prog) :
    ∃ r m, Reads .choice (exp.takeWhile (· ≠ 0)) 1 r m ∧ Fits true r ∧ prog.Notes r := by
  obtain ⟨r, m, spStart, hreads, rfl⟩ := regcomp_reads h
  have hfits : Fits true r := by simpa using (hreads.fits (zero_notMem_cut exp) (Nat.le_refl 1)).1
  exact ⟨r, m, hreads, hfits, digOut_notes hfits spStart⟩

/-- **The search finds the first match of the pattern**, or there is none in the string: a
compiled pattern stands for an expression, and with fuel enough `regexec` never reports
anything. -/
theorem regexec_leftmost (h : regcomp exp = .ok prog) :
    ∃ r m, Reads .choice (exp.takeWhile (· ≠ 0)) 1 r m ∧ ∀ string : List Byte, ∃ found f₀,
      (∀ f, f₀ ≤ f → regexec f prog string = .ok found) ∧ Leftmost r string found := by
  obtain ⟨r, m, hreads, hfits, hnotes⟩ := regcomp_notes h
  exact ⟨r, m, hreads, fun string => hnotes.finds hfits string⟩

/-- `a*b|c`. -/
theorem regexec_leftmost_star : ∃ prog, regcomp [0x61, 0x2A, 0x62, 0x7C, 0x63] = .ok prog ∧
    ∃ r m, Reads .choice [0x61, 0x2A, 0x62, 0x7C, 0x63] 1 r m ∧ ∀ string : List Byte, ∃ found f₀,
      (∀ f, f₀ ≤ f → regexec f prog string = .ok found) ∧ Leftmost r string found := by
  obtain ⟨prog, h⟩ : ∃ prog, regcomp [0x61, 0x2A, 0x62, 0x7C, 0x63] = .ok prog := ⟨_, rfl⟩
  exact ⟨prog, h, regexec_leftmost h⟩

/-- **What the search records for a group is a match of that group**, inside the match of
the whole pattern. -/
theorem groups_genuine (h : regcomp exp = .ok prog) :
    ∃ r m, Reads .choice (exp.takeWhile (· ≠ 0)) 1 r m ∧ ∀ string : List Byte, ∃ f₀,
      ∀ f, f₀ ≤ f → ∀ i st, regexec f prog string = .ok (some (i, st)) → ∀ no,
        Regular.GenuineAt Class.mem (string.takeWhile (· ≠ 0)) r i st.reginput no st.spans := by
  obtain ⟨r, m, hreads, hfits, hnotes⟩ := regcomp_notes h
  refine ⟨r, m, hreads, fun string => ?_⟩
  obtain ⟨f₀, hfound⟩ := hnotes.found hfits string
  refine ⟨f₀, fun f hf i st hrun no => ?_⟩
  obtain ⟨ms, hm, hspans⟩ := hfound f hf i st hrun
  rw [hspans]
  exact hm.genuine hreads.unnested no

/-- `(a|bc)+`. -/
theorem groups_genuine_plus :
    ∃ prog, regcomp [0x28, 0x61, 0x7C, 0x62, 0x63, 0x29, 0x2B] = .ok prog ∧
      ∃ r m, Reads .choice [0x28, 0x61, 0x7C, 0x62, 0x63, 0x29, 0x2B] 1 r m ∧
        ∀ string : List Byte, ∃ f₀, ∀ f, f₀ ≤ f → ∀ i st,
          regexec f prog string = .ok (some (i, st)) → ∀ no,
            Regular.GenuineAt Class.mem (string.takeWhile (· ≠ 0)) r i st.reginput no st.spans := by
  obtain ⟨prog, h⟩ : ∃ prog, regcomp [0x28, 0x61, 0x7C, 0x62, 0x63, 0x29, 0x2B] = .ok prog :=
    ⟨_, rfl⟩
  exact ⟨prog, h, groups_genuine h⟩

/-- **The notes for the search change nothing**: with the string that must appear, the
first character and `^` the answer is that of trying every place. -/
theorem notes_lossless (h : regcomp exp = .ok prog) (string : List Byte) :
    ∃ f₀, ∀ f, f₀ ≤ f → regexec f prog string = regexec f
      { prog with
        regstart := none
        reganch := false
        regmust := none } string := by
  obtain ⟨r, m, -, hfits, hnotes⟩ := regcomp_notes h
  obtain ⟨f₀, heq⟩ := hnotes.regexec_eq hfits string
  refine ⟨f₀, fun f hf => ?_⟩
  rw [heq f hf, regexec]
  simp only [Option.any_none, Bool.false_eq_true, ↓reduceIte]
  refine search_congr ?_ _
  rfl

/-- `^ab*c`. -/
theorem notes_lossless_anchor : ∃ prog, regcomp [0x5E, 0x61, 0x62, 0x2A, 0x63] = .ok prog ∧
    ∃ f₀, ∀ f, f₀ ≤ f → regexec f prog [0x61, 0x62, 0x63] = regexec f
      { prog with
        regstart := none
        reganch := false
        regmust := none } [0x61, 0x62, 0x63] := by
  obtain ⟨prog, h⟩ : ∃ prog, regcomp [0x5E, 0x61, 0x62, 0x2A, 0x63] = .ok prog := ⟨_, rfl⟩
  exact ⟨prog, h, notes_lossless h _⟩

end Regexp
