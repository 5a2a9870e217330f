import Zzdwm.Lib.Regular
import Zzdwm.Regexp.Compile

/-!
# The program of an expression

Which cells the program of an expression consists of, and how the chains run through it.

* `Class`, `Exp` — the expressions of the patterns;
* `asm` — the program of an expression, `off` being the offset at the end of its chain;
* `Fits` — the shapes of expressions that patterns have;
* `At` — a stretch of a program at a place;
* `Forward`, `Fits.forward` — **the chain of a program leads to its end**;
* `regtail_node`, `regtail_asm` — what `regtail` sets.
-/

namespace Regexp

open Ascii (Byte)
open Regular (Re Wide)

/-! ## Expressions -/

/-- A set of characters. -/
inductive Class
  | any
  | anyOf (cs : List Byte)
  | anyBut (cs : List Byte)

def Class.mem : Class → Byte → Bool
  | .any, _ => true
  | .anyOf cs, c => c ∈ cs
  | .anyBut cs, c => c ∉ cs

abbrev Exp := Re Byte Class

/-- One character a match, as `SIMPLE` says. -/
def simple : Exp → Bool
  | .one _ => true
  | .lit cs => cs.length = 1
  | _ => false

/-- No match is empty, as `HASWIDTH` says. -/
def hasWidth : Exp → Bool
  | .one _ | .lit _ => true
  | .cat r t => hasWidth r || hasWidth t
  | .plus _ => true
  | .group _ r | .branch r => hasWidth r
  | .alt r t => hasWidth r && hasWidth t
  | _ => false

/-- The expressions of the patterns: the choices, and what the branches consist of. -/
inductive Fits : Bool → Exp → Prop
  | nothing : Fits false .nothing
  | bol : Fits false .bol
  | eol : Fits false .eol
  | any : Fits false (.one .any)
  | anyOf {cs : List Byte} (hcs : 0 ∉ cs) : Fits false (.one (.anyOf cs))
  | anyBut {cs : List Byte} (hcs : 0 ∉ cs) : Fits false (.one (.anyBut cs))
  | lit {cs : List Byte} (hne : cs ≠ []) (hcs : 0 ∉ cs) : Fits false (.lit cs)
  | cat {r t : Exp} (hr : Fits false r) (ht : Fits false t) : Fits false (.cat r t)
  | star {r : Exp} (hr : Fits false r) (hw : hasWidth r = true) : Fits false (.star r)
  | plus {r : Exp} (hr : Fits false r) (hw : hasWidth r = true) : Fits false (.plus r)
  | opt {r : Exp} (hr : Fits false r) : Fits false (.opt r)
  | group {no : Nat} {r : Exp} (hlo : 1 ≤ no) (hhi : no < NSUBEXP) (hr : Fits true r) :
      Fits false (.group no r)
  | branch {r : Exp} (hr : Fits false r) : Fits true (.branch r)
  | alt {r t : Exp} (hr : Fits false r) (ht : Fits true t) : Fits true (.alt r t)

variable {b : Bool} {r t : Exp}

/-- **`HASWIDTH`** tells the truth. -/
theorem Fits.wide (h : Fits b r) (hw : hasWidth r = true) : Wide Class.mem r := by
  induction h with
  | any => exact Regular.wide_one _
  | anyOf hcs => exact Regular.wide_one _
  | anyBut hcs => exact Regular.wide_one _
  | lit hne hcs => exact Regular.wide_lit hne
  | cat hr ht ihr iht =>
      rcases Bool.or_eq_true _ _ ▸ hw with hw | hw
      · exact Regular.wide_cat (.inl (ihr hw))
      · exact Regular.wide_cat (.inr (iht hw))
  | plus hr hw' ih => exact Regular.wide_plus (ih hw')
  | group hlo hhi hr ih => exact Regular.wide_group (ih hw)
  | branch hr ih => exact Regular.wide_branch (ih hw)
  | alt hr ht ihr iht =>
      obtain ⟨hwr, hwt⟩ := Bool.and_eq_true _ _ ▸ hw
      exact Regular.wide_alt (ihr hwr) (iht hwt)
  | _ => cases hw

/-! ## Programs -/

/-- A string with its zero byte. -/
def str (cs : List Byte) : Code := cs.map Cell.char ++ [.char 0]

/-- The length of a program. -/
def cells : Exp → Nat
  | .nothing | .bol | .eol | .one .any => 1
  | .one (.anyOf cs) | .one (.anyBut cs) | .lit cs => cs.length + 2
  | .cat r t => cells r + cells t
  | .star r | .plus r => if simple r then cells r + 1 else cells r + 4
  | .opt r => cells r + 3
  | .group _ r => cells r + 2
  | .branch r => cells r + 1
  | .alt r t => cells r + cells t + 1

/-- Where the chain of a program ends: at its last node, for a choice behind it. -/
def tail : Exp → Nat
  | .cat r t => cells r + tail t
  | .star r | .plus r => if simple r then 0 else cells r + 3
  | .opt r => cells r + 2
  | .group _ r => cells r + 1
  | .branch r => cells r + 1
  | .alt r t => cells r + cells t + 1
  | _ => 0

/-- The program of an expression. -/
def asm : Exp → Nat → Code
  | .nothing, off => [.node .NOTHING off]
  | .bol, off => [.node .BOL off]
  | .eol, off => [.node .EOL off]
  | .one .any, off => [.node .ANY off]
  | .one (.anyOf cs), off => .node .ANYOF off :: str cs
  | .one (.anyBut cs), off => .node .ANYBUT off :: str cs
  | .lit cs, off => .node .EXACTLY off :: str cs
  | .cat r t, off => asm r (cells r - tail r) ++ asm t off
  | .star r, off =>
      if simple r then .node .STAR off :: asm r 0
      else .node .BRANCH (cells r + 2) :: (asm r (cells r - tail r) ++
        [.node .BACK (cells r + 1), .node .BRANCH 1, .node .NOTHING off])
  | .plus r, off =>
      if simple r then .node .PLUS off :: asm r 0
      else asm r (cells r - tail r) ++
        [.node .BRANCH 2, .node .BACK (cells r + 1), .node .BRANCH 1, .node .NOTHING off]
  | .opt r, off =>
      .node .BRANCH (cells r + 1) :: (asm r (cells r + 1 - tail r) ++
        [.node .BRANCH 1, .node .NOTHING off])
  | .group no r, off => .node (.OPEN no) 1 :: (asm r 0 ++ [.node (.CLOSE no) off])
  | .branch r, _ => .node .BRANCH (cells r + 1) :: asm r (cells r - tail r)
  | .alt r t, _ => .node .BRANCH (cells r + 1) :: (asm r (cells r + cells t - tail r) ++ asm t 0)

@[simp] theorem length_str (cs : List Byte) : (str cs).length = cs.length + 1 := by
  simp [str]

theorem length_asm (r : Exp) (off : Nat) : (asm r off).length = cells r := by
  fun_induction asm r off with
  | case1 | case2 | case3 | case4 | case5 | case6 | case7 => simp [cells]
  | case8 off r t ihr iht => simp [cells, ihr, iht]
  | case9 off r hs ih => simp [cells, hs, ih]
  | case10 off r hs ih => simp [cells, hs, ih]
  | case11 off r hs ih => simp [cells, hs, ih]
  | case12 off r hs ih => simp [cells, hs, ih]
  | case13 off r ih => simp [cells, ih]
  | case14 off no r ih => simp [cells, ih]
  | case15 off r ih => simp [cells, ih]
  | case16 off r t ihr iht => simp [cells, ihr, iht]

/-- The last node of a chain, with the cells before and behind. -/
theorem Fits.split (h : Fits false r) : ∃ (as bs : Code) (op : Op), op ≠ .BACK ∧
    as.length = tail r ∧ ∀ off, asm r off = as ++ .node op off :: bs := by
  generalize hb : false = b at h
  induction h with
  | nothing => exact ⟨[], [], .NOTHING, by simp, rfl, fun _ => rfl⟩
  | bol => exact ⟨[], [], .BOL, by simp, rfl, fun _ => rfl⟩
  | eol => exact ⟨[], [], .EOL, by simp, rfl, fun _ => rfl⟩
  | any => exact ⟨[], [], .ANY, by simp, rfl, fun _ => rfl⟩
  | anyOf hcs => exact ⟨[], _, .ANYOF, by simp, rfl, fun _ => rfl⟩
  | anyBut hcs => exact ⟨[], _, .ANYBUT, by simp, rfl, fun _ => rfl⟩
  | lit hne hcs => exact ⟨[], _, .EXACTLY, by simp, rfl, fun _ => rfl⟩
  | @cat r t hr ht ihr iht =>
      obtain ⟨as, bs, op, hop, hlen, hasm⟩ := iht rfl
      refine ⟨asm r (cells r - tail r) ++ as, bs, op, hop, ?_, fun off => ?_⟩
      · rw [List.length_append, length_asm, hlen, tail]
      · rw [asm, hasm, List.append_assoc]
  | @star r hr hw ih =>
      by_cases hs : simple r = true
      · exact ⟨[], asm r 0, .STAR, by simp, by simp [tail, hs], fun off => by simp [asm, hs]⟩
      · refine ⟨.node .BRANCH (cells r + 2) :: (asm r (cells r - tail r) ++
          [.node .BACK (cells r + 1), .node .BRANCH 1]), [], .NOTHING, by simp, ?_, fun off => ?_⟩
        · simp [tail, hs, length_asm]
        · simp [asm, hs]
  | @plus r hr hw ih =>
      by_cases hs : simple r = true
      · exact ⟨[], asm r 0, .PLUS, by simp, by simp [tail, hs], fun off => by simp [asm, hs]⟩
      · refine ⟨asm r (cells r - tail r) ++
          [.node .BRANCH 2, .node .BACK (cells r + 1), .node .BRANCH 1], [], .NOTHING, by simp, ?_,
          fun off => ?_⟩
        · simp [tail, hs, length_asm]
        · simp [asm, hs]
  | @opt r hr ih =>
      refine ⟨.node .BRANCH (cells r + 1) :: (asm r (cells r + 1 - tail r) ++ [.node .BRANCH 1]),
        [], .NOTHING, by simp, ?_, fun off => ?_⟩
      · simp [tail, length_asm]
      · simp [asm]
  | @group no r hlo hhi hr ih =>
      refine ⟨.node (.OPEN no) 1 :: asm r 0, [], .CLOSE no, by simp, ?_, fun off => ?_⟩
      · simp [tail, length_asm]
      · simp [asm]
  | branch hr ih => cases hb
  | alt hr ht ihr iht => cases hb

theorem Fits.tail_lt (h : Fits false r) : tail r < cells r := by
  obtain ⟨as, bs, op, -, hlen, hasm⟩ := h.split
  rw [← length_asm r 0, hasm, List.length_append, List.length_cons, hlen]
  omega

theorem Fits.tail_choice (h : Fits true r) : tail r = cells r := by
  cases h with
  | branch hr => rfl
  | alt hr ht => rfl

/-! ## Stretches of a program -/

/-- A stretch of a program. -/
def At (code : Code) (p : Nat) (seg : Code) : Prop :=
  ∀ k c, seg[k]? = some c → code[p + k]? = some c

variable {code as bs seg seg' : Code} {c : Cell} {p q : Nat}

theorem at_append : At code p (seg ++ seg') ↔ At code p seg ∧ At code (p + seg.length) seg' := by
  constructor
  · intro h
    refine ⟨fun k c hk => h k c ?_, fun k c hk => ?_⟩
    · rw [List.getElem?_append_left (List.getElem?_eq_some_iff.mp hk).1]
      exact hk
    · rw [Nat.add_assoc]
      refine h (seg.length + k) c ?_
      rw [List.getElem?_append_right (Nat.le_add_right _ _), Nat.add_sub_cancel_left]
      exact hk
  · rintro ⟨h, h'⟩ k c hk
    rcases Nat.lt_or_ge k seg.length with hlt | hge
    · rw [List.getElem?_append_left hlt] at hk
      exact h k c hk
    · rw [List.getElem?_append_right hge] at hk
      have hc := h' _ c hk
      rwa [Nat.add_assoc, Nat.add_sub_cancel' hge] at hc

theorem at_cons : At code p (c :: seg) ↔ code[p]? = some c ∧ At code (p + 1) seg := by
  have h := @at_append code [c] seg p
  rw [List.singleton_append, List.length_singleton] at h
  rw [h]
  refine and_congr_left fun _ => ⟨fun h => h 0 c rfl, fun h k d hk => ?_⟩
  cases k with
  | zero =>
      cases hk
      exact h
  | succ k => cases hk

theorem at_of_append (as seg bs : Code) : At (as ++ seg ++ bs) as.length seg := by
  intro k c hk
  have hlt := (List.getElem?_eq_some_iff.mp hk).1
  rw [List.append_assoc, List.getElem?_append_right (Nat.le_add_right _ _), Nat.add_sub_cancel_left,
    List.getElem?_append_left hlt]
  exact hk

theorem At.cstr {cs : List Byte} (h : At code q (str cs)) (hcs : 0 ∉ cs) :
    cstr (code.drop q) = cs := by
  induction cs generalizing q with
  | nil =>
      obtain ⟨hlt, hcell⟩ := List.getElem?_eq_some_iff.mp (at_cons.mp h).1
      rw [List.drop_eq_getElem_cons hlt, hcell, Regexp.cstr, if_pos rfl]
  | cons d cs ih =>
      obtain ⟨hcell, hrest⟩ := at_cons.mp h
      obtain ⟨hlt, hcell⟩ := List.getElem?_eq_some_iff.mp hcell
      have hne : d ≠ 0 := fun heq => hcs (heq ▸ List.mem_cons_self)
      rw [List.drop_eq_getElem_cons hlt, hcell, Regexp.cstr, if_neg hne,
        ih hrest fun hmem => hcs (List.mem_cons_of_mem d hmem)]

/-- The string behind a node. -/
theorem At.operand {cs : List Byte} (h : At code (p + 1) (str cs)) (hcs : 0 ∉ cs) :
    code.operand p = cs := h.cstr hcs

/-! ## Chains -/

/-- A chain leads from one node to another, forward all the way. -/
inductive Forward (code : Code) : Nat → Nat → Prop
  | refl (p : Nat) : Forward code p p
  | step {p q e : Nat} (h : regnext code p = some q) (hlt : p < q) (hf : Forward code q e) :
      Forward code p e

variable {e off val : Nat} {op : Op} {comp : Comp}

theorem regnext_forward (h : code[p]? = some (.node op off)) (hop : op ≠ .BACK) (hoff : 0 < off) :
    regnext code p = some (p + off) := by
  rw [regnext, h]
  dsimp only
  rw [if_neg (Nat.ne_of_gt hoff), if_neg hop]

theorem regnext_none (h : code[p]? = some (.node op 0)) : regnext code p = none := by
  rw [regnext, h]
  exact if_pos rfl

theorem Forward.node (h : code[p]? = some (.node op off)) (hop : op ≠ .BACK) (hoff : 0 < off) :
    Forward code p (p + off) :=
  .step (regnext_forward h hop hoff) (Nat.lt_add_of_pos_right hoff) (.refl _)

theorem Forward.trans (h : Forward code p q) (h' : Forward code q e) : Forward code p e := by
  induction h with
  | refl p => exact h'
  | step hnext hlt hf ih => exact .step hnext hlt (ih h')

theorem Forward.le (h : Forward code p q) : p ≤ q := by
  induction h with
  | refl p => exact Nat.le_refl p
  | step hnext hlt hf ih => omega

/-- Of two nodes on a chain one is in front of the other. -/
theorem Forward.linear (h : Forward code p q) (h' : Forward code p e) :
    Forward code q e ∨ Forward code e q := by
  induction h with
  | refl p => exact .inl h'
  | step hnext hlt hf ih =>
      cases h' with
      | refl => exact .inr (.step hnext hlt hf)
      | step hnext' hlt' hf' =>
          rw [hnext] at hnext'
          cases hnext'
          exact ih hf'

/-- **The chain of a program leads to its end.** -/
theorem Fits.forward (h : Fits b r) (hat : At code p (asm r off)) :
    Forward code p (p + tail r) := by
  induction h generalizing p off with
  | @cat r t hr ht ihr iht =>
      rw [asm, at_append, length_asm] at hat
      obtain ⟨hatr, hatt⟩ := hat
      obtain ⟨as, bs, op, hop, hlen, hasm⟩ := hr.split
      have hnode : code[p + tail r]? = some (.node op (cells r - tail r)) := by
        rw [hasm, at_append, at_cons, hlen] at hatr
        exact hatr.2.1
      have hlt := hr.tail_lt
      refine (ihr hatr).trans (.step (regnext_forward hnode hop (by omega)) (by omega) ?_)
      have hplace : p + tail r + (cells r - tail r) = p + cells r := by omega
      rw [hplace, tail, ← Nat.add_assoc]
      exact iht hatt
  | @star r hr hw ih =>
      rw [asm] at hat
      rw [tail]
      split
      · exact .refl p
      · rename_i hs
        rw [if_neg hs, at_cons, at_append, at_cons, at_cons, length_asm] at hat
        obtain ⟨hbranch, -, -, hlast, -⟩ := hat
        have hplace : p + 1 + cells r + 1 = p + (cells r + 2) := by omega
        rw [hplace] at hlast
        have hfirst := Forward.node hbranch (by simp) (Nat.succ_pos _)
        exact hfirst.trans (Forward.node hlast (by simp) Nat.one_pos)
  | @plus r hr hw ih =>
      rw [asm] at hat
      rw [tail]
      split
      · exact .refl p
      · rename_i hs
        rw [if_neg hs, at_append, at_cons, at_cons, at_cons, length_asm] at hat
        obtain ⟨hatr, hbranch, -, hlast, -⟩ := hat
        obtain ⟨as, bs, op, hop, hlen, hasm⟩ := hr.split
        have hnode : code[p + tail r]? = some (.node op (cells r - tail r)) := by
          rw [hasm, at_append, at_cons, hlen] at hatr
          exact hatr.2.1
        have hlt := hr.tail_lt
        have hround := (ih hatr).trans (Forward.node hnode hop (by omega))
        have hplace : p + tail r + (cells r - tail r) = p + cells r := by omega
        rw [hplace] at hround
        exact (hround.trans (Forward.node hbranch (by simp) Nat.two_pos)).trans
          (Forward.node hlast (by simp) Nat.one_pos)
  | @opt r hr ih =>
      rw [asm, at_cons, at_append, at_cons, length_asm] at hat
      obtain ⟨hbranch, -, hlast, -⟩ := hat
      have hplace : p + 1 + cells r = p + (cells r + 1) := by omega
      rw [hplace] at hlast
      have hfirst := Forward.node hbranch (by simp) (Nat.succ_pos _)
      exact hfirst.trans (Forward.node hlast (by simp) Nat.one_pos)
  | @group no r hlo hhi hr ih =>
      rw [asm, at_cons, at_append] at hat
      have hinner := ih hat.2.1
      rw [hr.tail_choice, Nat.add_assoc, Nat.add_comm 1] at hinner
      exact (Forward.node hat.1 (by simp) Nat.one_pos).trans hinner
  | branch hr ih =>
      rw [asm, at_cons] at hat
      exact Forward.node hat.1 (by simp) (Nat.succ_pos _)
  | @alt r t hr ht ihr iht =>
      rw [asm, at_cons, at_append, length_asm] at hat
      obtain ⟨hbranch, -, hatt⟩ := hat
      have hinner := iht hatt
      have hplace : p + 1 + cells r = p + (cells r + 1) := by omega
      rw [hplace] at hinner
      have hall := (Forward.node hbranch (by simp) (Nat.succ_pos _)).trans hinner
      have hend : p + (cells r + 1) + tail t = p + tail (.alt r t) := by
        rw [ht.tail_choice, tail]
        omega
      rwa [hend] at hall
  | _ => exact .refl p

/-- The node at the end of a chain. -/
theorem Fits.last (h : Fits false r) (hat : At code p (asm r off)) :
    ∃ op, op ≠ .BACK ∧ code[p + tail r]? = some (.node op off) := by
  obtain ⟨as, bs, op, hop, hlen, hasm⟩ := h.split
  rw [hasm, at_append, at_cons, hlen] at hat
  exact ⟨op, hop, hat.2.1⟩

/-- From a program to what follows it. -/
theorem Fits.behind (h : Fits false r) (hat : At code p (asm r off)) (hoff : 0 < off) :
    Forward code p (p + tail r + off) := by
  obtain ⟨op, hop, hlast⟩ := h.last hat
  exact (h.forward hat).trans (.node hlast hop hoff)

/-! ## Tails -/

theorem lastNode_forward {f : Nat} (h : Forward code p q) (hq : regnext code q = none)
    (hf : q ≤ p + f) : lastNode code f p = q := by
  induction h generalizing f with
  | refl p =>
      cases f with
      | zero => rfl
      | succ f => rw [lastNode, hq]
  | step hnext hlt hf' ih =>
      have hle := hf'.le
      cases f with
      | zero => omega
      | succ f =>
          rw [lastNode, hnext]
          exact ih hq (by omega)

/-- **`regtail`** sets the "next" pointer at the end of the chain. -/
theorem regtail_node (hcode : comp.regcode = as ++ .node op 0 :: bs)
    (h : Forward comp.regcode p as.length) :
    comp.regtail p val = { comp with
      regcode := as ++
        .node op (if op = .BACK then as.length - val else val - as.length) :: bs } := by
  have hnode : comp.regcode[as.length]? = some (.node op 0) := by
    rw [hcode, List.getElem?_append_right (Nat.le_refl _), Nat.sub_self]
    rfl
  have hlt := (List.getElem?_eq_some_iff.mp hnode).1
  rw [Comp.regtail, lastNode_forward h (regnext_none hnode) (by omega), Code.link, hnode]
  dsimp only
  rw [hcode, List.set_append_right _ _ (Nat.le_refl _), Nat.sub_self]
  rfl

/-- `regtail` for the program of an expression. -/
theorem regtail_asm (hr : Fits false r) (hcode : comp.regcode = as ++ asm r 0 ++ bs)
    (h : Forward comp.regcode p (as.length + tail r)) :
    comp.regtail p val = { comp with
      regcode := as ++ asm r (val - (as.length + tail r)) ++ bs } := by
  obtain ⟨ds, es, op, hop, hlen, hasm⟩ := hr.split
  rw [hasm, ← List.append_assoc, List.append_assoc, List.cons_append] at hcode
  rw [← hlen, ← List.length_append] at h
  rw [regtail_node hcode h, if_neg hop, hasm, List.length_append, hlen]
  simp only [List.append_assoc, List.cons_append]

end Regexp
