import Zzdwm.Regexp.Grammar

/-!
# What the compiler emits

What the steps of the emitter make of the programs of expressions.

* `Comp.put`, `put_regtail`, `put_regoptail_asm` — the emitter on programs that are known;
* `repeated_star`, `repeated_plus`, `repeated_opt` — **the operators**;
* `unhooked`, `addBranch` — a choice that is not complete;
* `hookTails_asm` — the branches of a choice are led to its end.
-/

namespace Regexp

open Ascii (Byte)
open Regular (Re)

variable {r t acc : Exp} {c c' : Comp} {pre as bs : Code} {op : Op}

/-! ## Operators -/

/-- The same with another program. -/
def Comp.put (c : Comp) (code : Code) : Comp := { c with regcode := code }

@[simp] theorem put_regcode (c : Comp) (code : Code) : (c.put code).regcode = code := rfl

@[simp] theorem put_put (c : Comp) (code code' : Code) : (c.put code).put code' = c.put code' := rfl

@[simp] theorem put_regnode (c : Comp) (code : Code) (op : Op) :
    (c.put code).regnode op = c.put (code ++ [.node op 0]) := rfl

theorem put_self (c : Comp) : c.put c.regcode = c := rfl

theorem get_append (as : Code) (d : Cell) (bs : Code) : (as ++ d :: bs)[as.length]? = some d := by
  rw [List.getElem?_append_right (Nat.le_refl _), Nat.sub_self]
  rfl

theorem at_behind (as : Code) (d : Cell) (seg bs : Code) :
    At (as ++ d :: (seg ++ bs)) (as.length + 1) seg := by
  have hat := at_of_append (as ++ [d]) seg bs
  rwa [List.length_append, List.length_singleton, List.append_assoc, List.append_assoc,
    List.singleton_append] at hat

theorem put_reginsert (c : Comp) (pre bs : Code) (op : Op) :
    (c.put (pre ++ bs)).reginsert op pre.length = c.put (pre ++ .node op 0 :: bs) := by
  rw [Comp.reginsert, put_regcode, List.take_left, List.drop_left]
  rfl

/-- A node whose "next" pointer is set, wherever the chain begins. -/
theorem put_regtail {X : Code} {p val n : Nat} (hX : X = as ++ .node op 0 :: bs)
    (h : Forward X p as.length) (hop : op ≠ .BACK) (hn : val = as.length + n) :
    (c.put X).regtail p val = c.put (as ++ .node op n :: bs) := by
  have hset := @regtail_node as bs p val op (c.put X) hX h
  rw [if_neg hop, hn, Nat.add_sub_cancel_left] at hset
  rw [hn]
  exact hset

theorem put_regtail_back {X : Code} {p val n : Nat} (hX : X = as ++ .node .BACK 0 :: bs)
    (h : Forward X p as.length) (hn : as.length = val + n) :
    (c.put X).regtail p val = c.put (as ++ .node .BACK n :: bs) := by
  have hset := @regtail_node as bs p val .BACK (c.put X) hX h
  rw [if_pos rfl, hn, Nat.add_sub_cancel_left] at hset
  exact hset

theorem put_regtail_asm {X : Code} {p val n : Nat} (hr : Fits false r)
    (hX : X = pre ++ asm r 0 ++ bs) (h : Forward X p (pre.length + tail r))
    (hn : val = pre.length + tail r + n) :
    (c.put X).regtail p val = c.put (pre ++ asm r n ++ bs) := by
  have hcode : (c.put X).regcode = pre ++ asm r 0 ++ bs := hX
  rw [regtail_asm hr hcode h, hn, Nat.add_sub_cancel_left]
  rfl

theorem put_regoptail {X : Code} {val : Nat} {off : Nat} (hX : X = pre ++ .node .BRANCH off :: bs) :
    (c.put X).regoptail pre.length val = (c.put X).regtail (pre.length + 1) val := by
  have hop : X.op pre.length = some .BRANCH := by
    rw [hX, Code.op, get_append]
  exact if_pos hop

/-- The operand of a branch is linked. -/
theorem put_regoptail_asm {X : Code} {val off n : Nat} (hr : Fits false r)
    (hX : X = pre ++ .node .BRANCH off :: (asm r 0 ++ bs))
    (hn : val = pre.length + 1 + tail r + n) :
    (c.put X).regoptail pre.length val =
      c.put (pre ++ .node .BRANCH off :: (asm r n ++ bs)) := by
  have hX' : X = (pre ++ [.node .BRANCH off]) ++ asm r 0 ++ bs := by
    rw [hX, List.append_assoc, List.append_assoc, List.singleton_append]
  have hlen : (pre ++ [Cell.node .BRANCH off]).length = pre.length + 1 := by
    rw [List.length_append, List.length_singleton]
  have hforward : Forward X (pre.length + 1)
      ((pre ++ [Cell.node .BRANCH off]).length + tail r) := by
    rw [hlen, hX]
    exact hr.forward (at_behind _ _ _ _)
  rw [put_regoptail hX, put_regtail_asm hr hX' hforward (by rw [hlen, hn]), List.append_assoc,
    List.append_assoc, List.singleton_append]

/-- `x*`. -/
theorem repeated_star (hr : Fits false r) :
    repeated 0x2A (simple r) pre.length (c.put (pre ++ asm r 0)) =
      c.put (pre ++ asm (.star r) 0) := by
  rw [repeated, if_pos rfl, asm]
  split
  · exact put_reginsert c _ _ _
  · have hlt := hr.tail_lt
    rw [put_reginsert]
    extract_lets c₀ back c₁ branch c₂ nothing
    have hback : back = pre.length + 1 + tail r + (cells r - tail r) := by
      simp only [back, c₀, put_regcode, List.length_append, List.length_cons, length_asm]
      omega
    obtain ⟨X, hX⟩ : ∃ X, X = pre ++ .node .BRANCH 0 :: asm r (cells r - tail r) := ⟨_, rfl⟩
    have hlen : X.length = pre.length + (cells r + 1) := by
      rw [hX, List.length_append, List.length_cons, length_asm]
    have hsplit : ∀ bs, X ++ bs = pre ++ .node .BRANCH 0 :: (asm r (cells r - tail r) ++ bs) := by
      intro bs
      rw [hX, List.append_assoc, List.cons_append]
    -- the operand leads to the node that leads back
    have h₁ : c₁ = c.put (X ++ [.node .BACK (cells r + 1)]) := by
      have hforward := hr.behind (at_behind pre (.node .BRANCH 0) (asm r (cells r - tail r))
        [.node .BACK 0]) (Nat.sub_pos_of_lt hlt)
      rw [← hsplit] at hforward
      have hend : pre.length + 1 + tail r + (cells r - tail r) = X.length := by omega
      rw [hend] at hforward
      have hfirst : (c₀.regnode .BACK).regoptail pre.length back =
          c.put (X ++ [.node .BACK 0]) := by
        have h₀ : c₀.regnode .BACK = c.put (pre ++ .node .BRANCH 0 ::
            (asm r 0 ++ [.node .BACK 0])) := by
          simp only [c₀, put_regnode, List.append_assoc, List.cons_append]
        rw [h₀, hsplit]
        exact put_regoptail_asm hr rfl hback
      change ((c₀.regnode .BACK).regoptail pre.length back).regoptail pre.length pre.length = _
      rw [hfirst, put_regoptail (hsplit _)]
      exact put_regtail_back rfl hforward hlen
    have h₂ : c₂ = c.put (pre ++ .node .BRANCH (cells r + 2) ::
        (asm r (cells r - tail r) ++ [.node .BACK (cells r + 1), .node .BRANCH 0])) := by
      change (c₁.regnode .BRANCH).regtail pre.length c₁.regcode.length = _
      rw [h₁, put_regnode, put_regcode, List.append_assoc]
      refine put_regtail (hsplit _) (.refl _) (by simp) ?_
      rw [List.length_append, hlen, List.length_singleton, Nat.add_assoc]
    obtain ⟨Y, hY⟩ : ∃ Y, Y = pre ++ .node .BRANCH (cells r + 2) ::
        (asm r (cells r - tail r) ++ [.node .BACK (cells r + 1)]) := ⟨_, rfl⟩
    have hlenY : Y.length = pre.length + (cells r + 2) := by
      rw [hY]
      simp only [List.length_append, List.length_cons, List.length_nil, length_asm]
    have hall : ∀ o bs, Y ++ .node .BRANCH o :: bs = pre ++ .node .BRANCH (cells r + 2) ::
        (asm r (cells r - tail r) ++ .node .BACK (cells r + 1) :: .node .BRANCH o :: bs) := by
      intro o bs
      simp [hY]
    change (c₂.regnode .NOTHING).regtail pre.length c₂.regcode.length = _
    rw [h₂, ← hall, put_regnode, put_regcode, ← hall, List.append_assoc]
    refine put_regtail rfl ?_ (by simp) ?_
    · rw [List.singleton_append, hall, hlenY]
      exact .node (get_append _ _ _) (by simp) (Nat.succ_pos _)
    · rw [List.length_append, List.length_singleton]

/-- `x+`. -/
theorem repeated_plus (hr : Fits false r) :
    repeated 0x2B (simple r) pre.length (c.put (pre ++ asm r 0)) =
      c.put (pre ++ asm (.plus r) 0) := by
  rw [repeated, if_neg (by decide), if_pos rfl, asm]
  split
  · exact put_reginsert c _ _ _
  · have hlt := hr.tail_lt
    extract_lets next c₁ back c₂ branch c₃ nothing
    obtain ⟨X, hX⟩ : ∃ X, X = pre ++ asm r (cells r - tail r) := ⟨_, rfl⟩
    have hlen : X.length = pre.length + cells r := by
      rw [hX, List.length_append, length_asm]
    have hnext : next = pre.length + cells r := by
      simp only [next, put_regcode, List.length_append, length_asm]
    have hforward : ∀ o bs, Forward (X ++ .node .BRANCH o :: bs) pre.length X.length := by
      intro o bs
      have hat := at_of_append pre (asm r (cells r - tail r)) (.node .BRANCH o :: bs)
      rw [← hX] at hat
      have hend : pre.length + tail r + (cells r - tail r) = X.length := by omega
      rw [← hend]
      exact hr.behind hat (Nat.sub_pos_of_lt hlt)
    have h₁ : c₁ = c.put (X ++ [.node .BRANCH 0]) := by
      rw [hX]
      exact put_regtail_asm hr rfl (hr.forward (at_of_append pre (asm r 0) [.node .BRANCH 0]))
        (by omega)
    have h₂ : c₂ = c.put (X ++ [.node .BRANCH 0, .node .BACK (cells r + 1)]) := by
      change (c₁.regnode .BACK).regtail c₁.regcode.length pre.length = _
      rw [h₁, put_regnode, put_regcode]
      have hback : (X ++ [Cell.node .BRANCH 0]).length = pre.length + (cells r + 1) := by
        rw [List.length_append, hlen, List.length_singleton, Nat.add_assoc]
      rw [put_regtail_back rfl (.refl _) hback, List.append_assoc, List.singleton_append]
    have h₃ : c₃ = c.put (X ++ [.node .BRANCH 2, .node .BACK (cells r + 1), .node .BRANCH 0]) := by
      change (c₂.regnode .BRANCH).regtail next c₂.regcode.length = _
      rw [h₂, put_regnode, put_regcode, List.append_assoc, hnext, ← hlen]
      refine put_regtail rfl (.refl _) (by simp) ?_
      rw [List.length_append]
      rfl
    obtain ⟨Y, hY⟩ : ∃ Y, Y = X ++ [.node .BRANCH 2, .node .BACK (cells r + 1)] := ⟨_, rfl⟩
    have hlenY : Y.length = X.length + 2 := by
      rw [hY, List.length_append]
      rfl
    have hall : ∀ o bs, Y ++ .node .BRANCH o :: bs =
        X ++ .node .BRANCH 2 :: .node .BACK (cells r + 1) :: .node .BRANCH o :: bs := by
      intro o bs
      simp [hY]
    have hasm : ∀ bs, pre ++ (asm r (cells r - tail r) ++ bs) = X ++ bs := by
      intro bs
      rw [hX, List.append_assoc]
    change (c₃.regnode .NOTHING).regtail pre.length c₃.regcode.length = _
    rw [h₃, ← hall, put_regnode, put_regcode, hasm, ← hall, List.append_assoc]
    refine put_regtail rfl ?_ (by simp) ?_
    · rw [List.singleton_append, hall, hlenY]
      exact (hforward _ _).trans (.node (get_append _ _ _) (by simp) Nat.two_pos)
    · rw [List.length_append, List.length_singleton]

/-- `x?`. -/
theorem repeated_opt {op : Byte} (hr : Fits false r) (hstar : op ≠ 0x2A) (hplus : op ≠ 0x2B) :
    repeated op (simple r) pre.length (c.put (pre ++ asm r 0)) = c.put (pre ++ asm (.opt r) 0) := by
  rw [repeated, if_neg hstar, if_neg hplus, put_reginsert]
  extract_lets c₀ branch c₁ next
  have hlt := hr.tail_lt
  have h₁ : c₁ = c.put (pre ++ .node .BRANCH (cells r + 1) :: (asm r 0 ++ [.node .BRANCH 0])) := by
    have h₀ : c₀.regnode .BRANCH = c.put (pre ++ .node .BRANCH 0 ::
        (asm r 0 ++ [.node .BRANCH 0])) := by
      simp only [c₀, put_regnode, List.append_assoc, List.cons_append]
    change (c₀.regnode .BRANCH).regtail pre.length branch = _
    rw [h₀]
    refine put_regtail rfl (.refl _) (by simp) ?_
    simp only [branch, c₀, put_regcode, List.length_append, List.length_cons, length_asm]
  obtain ⟨Y, hY⟩ : ∃ Y, Y = pre ++ .node .BRANCH (cells r + 1) :: asm r 0 := ⟨_, rfl⟩
  have hlenY : Y.length = pre.length + (cells r + 1) := by
    rw [hY, List.length_append, List.length_cons, length_asm]
  have hall : ∀ bs, Y ++ bs = pre ++ .node .BRANCH (cells r + 1) :: (asm r 0 ++ bs) := by
    intro bs
    rw [hY, List.append_assoc, List.cons_append]
  have hnext : next = pre.length + (cells r + 2) := by
    change c₁.regcode.length = _
    rw [h₁, put_regcode, ← hall, List.length_append, hlenY, List.length_singleton, Nat.add_assoc]
  have h₂ : (c₁.regnode .NOTHING).regtail pre.length next =
      c.put (pre ++ .node .BRANCH (cells r + 1) ::
        (asm r 0 ++ [.node .BRANCH 1, .node .NOTHING 0])) := by
    rw [h₁, ← hall, put_regnode, ← hall, List.append_assoc]
    refine put_regtail rfl ?_ (by simp) ?_
    · rw [hall, hlenY]
      exact .node (get_append _ _ _) (by simp) (Nat.succ_pos _)
    · rw [hnext, hlenY, Nat.add_assoc]
  rw [h₂, asm]
  refine put_regoptail_asm hr rfl ?_
  omega

/-! ## Choices -/

/-- The program of a choice before the tails of the branches are hooked. -/
def unhooked : Exp → Nat → Code
  | .branch r, last => .node .BRANCH last :: asm r 0
  | .alt r t, last => .node .BRANCH (cells r + 1) :: (asm r 0 ++ unhooked t last)
  | _, _ => []

/-- Where the last branch of a choice begins. -/
def lastBranch : Exp → Nat
  | .alt r t => cells r + 1 + lastBranch t
  | _ => 0

/-- Another branch. -/
def addBranch : Exp → Exp → Exp
  | .branch r, t => .alt r (.branch t)
  | .alt r u, t => .alt r (addBranch u t)
  | r, _ => r

theorem Fits.addBranch (h : Fits true acc) (ht : Fits false t) : Fits true (addBranch acc t) := by
  generalize hb : true = b at h
  induction h with
  | branch hr ih => exact .alt hr (.branch ht)
  | alt hr hu ihr ihu => exact .alt hr (ihu rfl)
  | _ => cases hb

theorem hasWidth_addBranch (h : Fits true acc) (t : Exp) :
    hasWidth (addBranch acc t) = (hasWidth acc && hasWidth t) := by
  generalize hb : true = b at h
  induction h with
  | branch hr ih => rfl
  | alt hr hu ihr ihu =>
      rw [Regexp.addBranch, hasWidth, ihu rfl, hasWidth, Bool.and_assoc]
  | _ => cases hb

theorem length_unhooked (h : Fits true acc) (last : Nat) :
    (unhooked acc last).length = cells acc := by
  generalize hb : true = b at h
  induction h with
  | branch hr ih => simp [unhooked, cells, length_asm]
  | alt hr hu ihr ihu =>
      simp [unhooked, cells, length_asm, ihu rfl]
  | _ => cases hb

theorem Fits.lastBranch_lt (h : Fits true acc) : lastBranch acc < cells acc := by
  generalize hb : true = b at h
  induction h with
  | branch hr ih => exact Nat.succ_pos _
  | alt hr hu ihr ihu =>
      have hlt := ihu rfl
      rw [lastBranch, cells]
      omega
  | _ => cases hb

theorem unhooked_addBranch (h : Fits true acc) (t : Exp) (last : Nat) :
    unhooked (addBranch acc t) last =
      unhooked acc (cells acc - lastBranch acc) ++ .node .BRANCH last :: asm t 0 := by
  generalize hb : true = b at h
  induction h with
  | branch hr ih => rfl
  | @alt r u hr hu ihr ihu =>
      have hoff : cells (.alt r u) - lastBranch (.alt r u) = cells u - lastBranch u := by
        rw [cells, lastBranch]
        omega
      rw [Regexp.addBranch, unhooked, ihu rfl, hoff, unhooked, List.cons_append, List.append_assoc]
  | _ => cases hb

/-- The last branch, with the cells before and behind. -/
theorem Fits.unhooked_split (h : Fits true acc) : ∃ as bs : Code, as.length = lastBranch acc ∧
    ∀ last, unhooked acc last = as ++ .node .BRANCH last :: bs := by
  generalize hb : true = b at h
  induction h with
  | branch hr ih => exact ⟨[], _, rfl, fun _ => rfl⟩
  | @alt r u hr hu ihr ihu =>
      obtain ⟨as, bs, hlen, hall⟩ := ihu rfl
      refine ⟨.node .BRANCH (cells r + 1) :: (asm r 0 ++ as), bs, ?_, fun last => ?_⟩
      · rw [List.length_cons, List.length_append, length_asm, hlen, lastBranch]
        omega
      · rw [unhooked, hall, List.cons_append, List.append_assoc]
  | _ => cases hb

theorem Fits.forward_unhooked {code : Code} {p last : Nat} (h : Fits true acc)
    (hat : At code p (unhooked acc last)) : Forward code p (p + lastBranch acc) := by
  generalize hb : true = b at h
  induction h generalizing p with
  | branch hr ih => exact .refl p
  | @alt r u hr hu ihr ihu =>
      rw [unhooked, at_cons, at_append, length_asm] at hat
      obtain ⟨hbranch, -, hatu⟩ := hat
      have hplace : p + 1 + cells r = p + (cells r + 1) := by omega
      rw [hplace] at hatu
      rw [lastBranch, ← Nat.add_assoc]
      exact (Forward.node hbranch (by simp) (Nat.succ_pos _)).trans (ihu hatu rfl)
  | _ => cases hb

theorem Forward.append {X : Code} {p q : Nat} (h : Forward X p q) (Y : Code) :
    Forward (X ++ Y) p q := by
  induction h with
  | refl p => exact .refl p
  | @step p q e hnext hlt hf ih =>
      refine .step ?_ hlt ih
      rw [regnext] at hnext ⊢
      cases hcell : X[p]? with
      | none =>
          rw [hcell] at hnext
          cases hnext
      | some d =>
          rw [List.getElem?_append_left (List.getElem?_eq_some_iff.mp hcell).1, hcell]
          rw [hcell] at hnext
          exact hnext

/-- Behind the branches there is nothing to hook. -/
theorem hookTails_end {X : Code} {ender f : Nat} (hX : X[ender]? = some (.node op 0))
    (hop : op ≠ .BRANCH) (hf : 0 < f) : hookTails ender f ender (c.put X) = c.put X := by
  obtain ⟨f, rfl⟩ : ∃ m, f = m + 1 := ⟨f - 1, by omega⟩
  have hnot : X.op ender ≠ some .BRANCH := by
    rw [Code.op, hX]
    simpa using hop
  have hstay : (c.put X).regoptail ender ender = c.put X := if_neg hnot
  rw [hookTails, hstay, put_regcode, regnext_none hX]

/-- **The tails of the branches are led to the end of the choice.** -/
theorem hookTails_asm {ender f : Nat} (h : Fits true acc) (hop : op ≠ .BRANCH)
    (hender : ender = pre.length + cells acc) (hf : ender < pre.length + f) :
    hookTails ender f pre.length
        (c.put (pre ++ (unhooked acc (cells acc - lastBranch acc) ++ [.node op 0]))) =
      c.put (pre ++ (asm acc 0 ++ [.node op 0])) := by
  generalize hb : true = b at h
  induction h generalizing pre f with
  | @branch r hr ih =>
      obtain ⟨f, rfl⟩ : ∃ m, f = m + 1 := ⟨f - 1, by omega⟩
      have hlt := hr.tail_lt
      rw [cells] at hender
      have hhook : (c.put (pre ++
          (unhooked (.branch r) (cells (.branch r) - lastBranch (.branch r)) ++ [.node op 0]))).regoptail pre.length ender =
            c.put (pre ++ .node .BRANCH (cells r + 1) ::
              (asm r (cells r - tail r) ++ [.node op 0])) :=
        put_regoptail_asm hr rfl (by omega)
      have hnext : regnext (pre ++ .node .BRANCH (cells r + 1) ::
          (asm r (cells r - tail r) ++ [.node op 0])) pre.length = some ender := by
        rw [hender]
        exact regnext_forward (get_append _ _ _) (by simp) (Nat.succ_pos _)
      rw [hookTails, hhook, put_regcode, hnext]
      refine hookTails_end ?_ hop (by omega)
      have hlen :
          (pre ++ .node .BRANCH (cells r + 1) :: asm r (cells r - tail r)).length = ender := by
        rw [hender, List.length_append, List.length_cons, length_asm]
      rw [← hlen, ← List.cons_append, ← List.append_assoc]
      exact get_append _ _ _
  | @alt r u hr hu ihr ihu =>
      obtain ⟨f, rfl⟩ : ∃ m, f = m + 1 := ⟨f - 1, by omega⟩
      have hlt := hr.tail_lt
      rw [cells] at hender
      have hoff : cells (.alt r u) - lastBranch (.alt r u) = cells u - lastBranch u := by
        rw [cells, lastBranch]
        omega
      obtain ⟨X, hX⟩ : ∃ X, X = pre ++ .node .BRANCH (cells r + 1) ::
          asm r (cells r + cells u - tail r) := ⟨_, rfl⟩
      have hlen : X.length = pre.length + (cells r + 1) := by
        rw [hX, List.length_append, List.length_cons, length_asm]
      have hhook : (c.put (pre ++ (unhooked (.alt r u) (cells u - lastBranch u) ++
          [.node op 0]))).regoptail pre.length ender =
            c.put (X ++ (unhooked u (cells u - lastBranch u) ++ [.node op 0])) := by
        have hset := @put_regoptail_asm r c pre
          (unhooked u (cells u - lastBranch u) ++ [.node op 0]) _ ender (cells r + 1)
          (cells r + cells u - tail r) hr rfl (by omega)
        rw [hX, unhooked, List.cons_append, List.append_assoc, List.append_assoc, List.cons_append]
        exact hset
      have hnext : regnext (X ++ (unhooked u (cells u - lastBranch u) ++ [.node op 0])) pre.length =
          some X.length := by
        have hnode : (X ++ (unhooked u (cells u - lastBranch u) ++ [.node op 0]))[pre.length]? =
            some (.node .BRANCH (cells r + 1)) := by
          rw [hX, List.append_assoc, List.cons_append]
          exact get_append _ _ _
        rw [hlen]
        exact regnext_forward hnode (by simp) (Nat.succ_pos _)
      have hrest : hookTails ender f X.length
          (c.put (X ++ (unhooked u (cells u - lastBranch u) ++ [.node op 0]))) =
            c.put (X ++ (asm u 0 ++ [.node op 0])) := ihu (by omega) (by omega) rfl
      rw [hookTails, hoff, hhook, put_regcode, hnext]
      dsimp only
      rw [hrest, hX, asm]
      simp only [List.append_assoc, List.cons_append]
  | _ => cases hb

end Regexp
