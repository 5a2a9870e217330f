import Zzdwm.Regexp.Programs

/-!
# What the patterns say

The patterns and the expressions that they stand for.

* `Listed`, `Reads` — the grammar, with the numbers of the groups;
* `Reads.fits`, `Reads.numbered`, `Reads.unnested` — what an expression that is read is like;
* `Reads.single` — one character is read in one way.
-/

namespace Regexp

open Ascii (Byte)
open Regular (Re Inside Unnested)

/-- Between the brackets, behind a character. -/
inductive Listed : Byte → List Byte → List Byte → Prop
  | stop (last : Byte) : Listed last [] []
  | char {last c : Byte} {text cs : List Byte} (hc : c ≠ 0x5D) (hc' : c ≠ 0x2D)
      (h : Listed c text cs) : Listed last (c :: text) (c :: cs)
  | dash (last : Byte) : Listed last [0x2D] [0x2D]
  | range {last d : Byte} {text cs : List Byte} (hd : d ≠ 0x5D) (hle : last ≤ d)
      (h : Listed d text cs) : Listed last (0x2D :: d :: text) (between last d ++ cs)

inductive Level
  | atom | piece | pieces | branch | choice
deriving DecidableEq

/-- A text, the number of the next group, the expression, and the number behind it. -/
inductive Reads : Level → List Byte → Nat → Exp → Nat → Prop
  | bol (n : Nat) : Reads .atom [0x5E] n .bol n
  | eol (n : Nat) : Reads .atom [0x24] n .eol n
  | any (n : Nat) : Reads .atom [0x2E] n (.one .any) n
  | anyOf {c : Byte} {text cs : List Byte} (n : Nat) (hc : c ≠ 0x5E) (h : Listed c text cs) :
      Reads .atom (0x5B :: c :: (text ++ [0x5D])) n (.one (.anyOf (c :: cs))) n
  | anyBut {c : Byte} {text cs : List Byte} (n : Nat) (h : Listed c text cs) :
      Reads .atom (0x5B :: 0x5E :: c :: (text ++ [0x5D])) n (.one (.anyBut (c :: cs))) n
  | quoted (c : Byte) (n : Nat) : Reads .atom [0x5C, c] n (.lit [c]) n
  | char {c : Byte} (n : Nat) (hc : c ∉ META) : Reads .atom [c] n (.lit [c]) n
  | group {text : List Byte} {n m : Nat} {r : Exp} (hn : n < NSUBEXP)
      (h : Reads .choice text (n + 1) r m) :
      Reads .atom (0x28 :: (text ++ [0x29])) n (.group n r) m
  | atom {text : List Byte} {n m : Nat} {r : Exp} (h : Reads .atom text n r m) :
      Reads .piece text n r m
  | run {cs : List Byte} (n : Nat) (hcs : ∀ c ∈ cs, c ∉ META) (hlen : 2 ≤ cs.length) :
      Reads .piece cs n (.lit cs) n
  | star {text : List Byte} {n m : Nat} {r : Exp} (h : Reads .atom text n r m)
      (hw : hasWidth r = true) : Reads .piece (text ++ [0x2A]) n (.star r) m
  | plus {text : List Byte} {n m : Nat} {r : Exp} (h : Reads .atom text n r m)
      (hw : hasWidth r = true) : Reads .piece (text ++ [0x2B]) n (.plus r) m
  | opt {text : List Byte} {n m : Nat} {r : Exp} (h : Reads .atom text n r m) :
      Reads .piece (text ++ [0x3F]) n (.opt r) m
  | one {text : List Byte} {n m : Nat} {r : Exp} (h : Reads .piece text n r m) :
      Reads .pieces text n r m
  | more {text text' : List Byte} {n m k : Nat} {r t : Exp} (h : Reads .pieces text n r m)
      (h' : Reads .piece text' m t k) : Reads .pieces (text ++ text') n (.cat r t) k
  | empty (n : Nat) : Reads .branch [] n .nothing n
  | full {text : List Byte} {n m : Nat} {r : Exp} (h : Reads .pieces text n r m) :
      Reads .branch text n r m
  | branch {text : List Byte} {n m : Nat} {r : Exp} (h : Reads .branch text n r m) :
      Reads .choice text n (.branch r) m
  | alt {text text' : List Byte} {n m k : Nat} {r t : Exp} (h : Reads .branch text n r m)
      (h' : Reads .choice text' m t k) : Reads .choice (text ++ 0x7C :: text') n (.alt r t) k

variable {l : Level} {text text' : List Byte} {n m k : Nat} {r t : Exp}

/-! ## What is read -/

/-- A string ends in front of its zero byte. -/
theorem zero_notMem_cut (string : List Byte) : 0 ∉ string.takeWhile (· ≠ 0) := by
  intro hmem
  have hne := List.mem_takeWhile_imp hmem
  simp at hne

theorem zero_notMem_between (last d : Byte) : 0 ∉ between last d := by
  intro h
  obtain ⟨v, hv, hzero⟩ := List.mem_map.mp h
  rw [List.mem_range'_1] at hv
  have hd := d.toNat_lt
  have hlt : v < UInt8.size := by
    have hsize : UInt8.size = 256 := rfl
    omega
  have heq := congrArg UInt8.toNat hzero
  rw [Nat.toUInt8, UInt8.toNat_ofNat_of_lt' hlt] at heq
  have hz : (0 : Byte).toNat = 0 := rfl
  omega

theorem Listed.zero_notMem {last : Byte} {cs : List Byte} (h : Listed last text cs)
    (htext : 0 ∉ text) : 0 ∉ cs := by
  induction h with
  | stop last => exact htext
  | char hc hc' h ih =>
      rw [List.mem_cons, not_or] at htext ⊢
      exact ⟨htext.1, ih htext.2⟩
  | dash last => exact htext
  | range hd hle h ih =>
      rw [List.mem_cons, List.mem_cons, not_or, not_or] at htext
      rw [List.mem_append, not_or]
      exact ⟨zero_notMem_between _ _, ih htext.2.2⟩

/-- **What is read fits.** -/
theorem Reads.fits (h : Reads l text n r m) (htext : 0 ∉ text) (hn : 1 ≤ n) :
    Fits (l = .choice) r ∧ 1 ≤ m := by
  induction h with
  | bol n => exact ⟨.bol, hn⟩
  | eol n => exact ⟨.eol, hn⟩
  | any n => exact ⟨.any, hn⟩
  | anyOf n hc h =>
      simp only [List.mem_cons, List.mem_append, not_or] at htext
      refine ⟨.anyOf fun hmem => ?_, hn⟩
      rcases List.mem_cons.mp hmem with hzero | hmem
      · exact htext.2.1 hzero
      · exact h.zero_notMem htext.2.2.1 hmem
  | anyBut n h =>
      simp only [List.mem_cons, List.mem_append, not_or] at htext
      refine ⟨.anyBut fun hmem => ?_, hn⟩
      rcases List.mem_cons.mp hmem with hzero | hmem
      · exact htext.2.2.1 hzero
      · exact h.zero_notMem htext.2.2.2.1 hmem
  | quoted c n =>
      refine ⟨.lit (List.cons_ne_nil c []) fun hmem => ?_, hn⟩
      exact htext (List.mem_cons_of_mem _ hmem)
  | char n hc => exact ⟨.lit (List.cons_ne_nil _ []) htext, hn⟩
  | group hno h ih =>
      simp only [List.mem_cons, List.mem_append, not_or] at htext
      obtain ⟨hfits, hm⟩ := ih htext.2.1 (Nat.le_add_left 1 _)
      exact ⟨.group hn hno hfits, hm⟩
  | atom h ih => exact ih htext hn
  | run n hcs hlen => exact ⟨.lit (List.ne_nil_of_length_pos (by omega)) htext, hn⟩
  | star h hw ih =>
      rw [List.mem_append, not_or] at htext
      obtain ⟨hfits, hm⟩ := ih htext.1 hn
      exact ⟨.star hfits hw, hm⟩
  | plus h hw ih =>
      rw [List.mem_append, not_or] at htext
      obtain ⟨hfits, hm⟩ := ih htext.1 hn
      exact ⟨.plus hfits hw, hm⟩
  | opt h ih =>
      rw [List.mem_append, not_or] at htext
      obtain ⟨hfits, hm⟩ := ih htext.1 hn
      exact ⟨.opt hfits, hm⟩
  | one h ih => exact ih htext hn
  | more h h' ih ih' =>
      rw [List.mem_append, not_or] at htext
      obtain ⟨hfits, hm⟩ := ih htext.1 hn
      obtain ⟨hfits', hk⟩ := ih' htext.2 hm
      exact ⟨.cat hfits hfits', hk⟩
  | empty n => exact ⟨.nothing, hn⟩
  | full h ih => exact ih htext hn
  | branch h ih =>
      obtain ⟨hfits, hm⟩ := ih htext hn
      exact ⟨.branch hfits, hm⟩
  | alt h h' ih ih' =>
      rw [List.mem_append, List.mem_cons, not_or, not_or] at htext
      obtain ⟨hfits, hm⟩ := ih htext.1 hn
      obtain ⟨hfits', hk⟩ := ih' htext.2.2 hm
      exact ⟨.alt hfits hfits', hk⟩

/-- The groups of what is read have the numbers from the one on. -/
theorem Reads.numbered (h : Reads l text n r m) :
    n ≤ m ∧ ∀ no u, Inside no u r → n ≤ no ∧ no < m := by
  induction h with
  | group hn h ih =>
      refine ⟨by omega, fun no u hin => ?_⟩
      cases hin with
      | here => exact ⟨Nat.le_refl _, by omega⟩
      | group hin =>
          have hno := ih.2 no u hin
          omega
  | atom h ih => exact ih
  | star h hw ih =>
      refine ⟨ih.1, fun no u hin => ?_⟩
      cases hin with
      | star hin => exact ih.2 no u hin
  | plus h hw ih =>
      refine ⟨ih.1, fun no u hin => ?_⟩
      cases hin with
      | plus hin => exact ih.2 no u hin
  | opt h ih =>
      refine ⟨ih.1, fun no u hin => ?_⟩
      cases hin with
      | opt hin => exact ih.2 no u hin
  | one h ih => exact ih
  | more h h' ih ih' =>
      refine ⟨Nat.le_trans ih.1 ih'.1, fun no u hin => ?_⟩
      cases hin with
      | catLeft t hin =>
          have hno := ih.2 no u hin
          omega
      | catRight r hin =>
          have hno := ih'.2 no u hin
          omega
  | full h ih => exact ih
  | branch h ih =>
      refine ⟨ih.1, fun no u hin => ?_⟩
      cases hin with
      | branch hin => exact ih.2 no u hin
  | alt h h' ih ih' =>
      refine ⟨Nat.le_trans ih.1 ih'.1, fun no u hin => ?_⟩
      cases hin with
      | altLeft t hin =>
          have hno := ih.2 no u hin
          omega
      | altRight r hin =>
          have hno := ih'.2 no u hin
          omega
  | _ => exact ⟨Nat.le_refl _, fun no u hin => by cases hin⟩

/-- **No group stands in one of the same number.** -/
theorem Reads.unnested (h : Reads l text n r m) : Unnested r := by
  induction h with
  | group hn h ih =>
      refine ⟨fun u hin => ?_, ih⟩
      have hno := h.numbered.2 _ u hin
      omega
  | atom h ih => exact ih
  | star h hw ih => exact ih
  | plus h hw ih => exact ih
  | opt h ih => exact ih
  | one h ih => exact ih
  | more h h' ih ih' => exact ⟨ih, ih'⟩
  | full h ih => exact ih
  | branch h ih => exact ih
  | alt h h' ih ih' => exact ⟨ih, ih'⟩
  | _ => exact trivial

/-! ## One character -/

/-- Only a branch reads nothing, and a choice. -/
theorem Reads.ne_nil (h : Reads l text n r m) (hl : l ≠ .branch) (hl' : l ≠ .choice) :
    text ≠ [] := by
  induction h with
  | atom h ih => exact ih Level.noConfusion Level.noConfusion
  | one h ih => exact ih Level.noConfusion Level.noConfusion
  | run n hcs hlen =>
      intro hnil
      rw [hnil] at hlen
      exact absurd hlen (by decide)
  | more h h' ih ih' =>
      intro hnil
      exact ih Level.noConfusion Level.noConfusion (List.append_eq_nil_iff.mp hnil).1
  | empty n => exact absurd rfl hl
  | full h ih => exact absurd rfl hl
  | branch h ih => exact absurd rfl hl'
  | alt h h' ih ih' => exact absurd rfl hl'
  | _ => simp

/-- A piece of one character is an atom, unless the character is an operator. -/
theorem Reads.piece_single {c : Byte} (h : Reads .piece [c] n r m) (hc : ISMULT c = false) :
    Reads .atom [c] n r m := by
  have hop : ∀ op : Byte, ISMULT op = true → ∀ text : List Byte, [c] ≠ text ++ [op] := by
    intro op hop text heq
    have hlast := congrArg List.getLast? heq
    rw [List.getLast?_append_of_ne_nil _ (List.cons_ne_nil _ _)] at hlast
    cases hlast
    exact absurd hop (Bool.eq_false_iff.mp hc)
  generalize htext : [c] = text at h
  cases h with
  | atom h => exact h
  | run _ hcs hlen =>
      rw [← htext, List.length_singleton] at hlen
      exact absurd hlen (by decide)
  | star h hw => exact absurd htext (hop _ rfl _)
  | plus h hw => exact absurd htext (hop _ rfl _)
  | opt h => exact absurd htext (hop _ rfl _)

theorem Reads.pieces_single {c : Byte} (h : Reads .pieces [c] n r m) : Reads .piece [c] n r m := by
  generalize htext : [c] = text at h
  cases h with
  | one h => exact h
  | more h h' =>
      have hlen := congrArg List.length htext
      rw [List.length_append, List.length_singleton] at hlen
      have hleft := List.length_pos_iff.mpr (h.ne_nil Level.noConfusion Level.noConfusion)
      have hright := List.length_pos_iff.mpr (h'.ne_nil Level.noConfusion Level.noConfusion)
      omega

/-- **One character is read as an atom.** -/
theorem Reads.single {c : Byte} (h : Reads .choice [c] n r m) (hbar : c ≠ 0x7C)
    (hc : ISMULT c = false) : ∃ a, Reads .atom [c] n a m ∧ r = .branch a := by
  generalize htext : [c] = text at h
  cases h with
  | branch h =>
      cases h with
      | empty => cases htext
      | full h =>
          subst htext
          exact ⟨_, h.pieces_single.piece_single hc, rfl⟩
  | alt h h' =>
      have hmem : (0x7C : Byte) ∈ [c] := by
        rw [htext]
        exact List.mem_append_right _ List.mem_cons_self
      exact absurd (List.mem_singleton.mp hmem).symm hbar

/-- An ordinary character stands for itself, … -/
theorem Reads.of_char {c : Byte} (h : Reads .atom [c] n r m) (hc : c ∉ META) : r = .lit [c] := by
  generalize htext : [c] = text at h
  cases h with
  | bol =>
      cases htext
      exact absurd (by decide) hc
  | eol =>
      cases htext
      exact absurd (by decide) hc
  | any =>
      cases htext
      exact absurd (by decide) hc
  | char =>
      cases htext
      rfl
  | _ => simp at htext

/-- … and a dollar sign for the end. -/
theorem Reads.of_dollar (h : Reads .atom [0x24] n r m) : r = .eol := by
  generalize htext : [0x24] = text at h
  cases h with
  | eol => rfl
  | char _ hc =>
      cases htext
      exact absurd (by decide) hc

end Regexp
