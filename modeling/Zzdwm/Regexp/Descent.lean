import Zzdwm.Regexp.Emission

/-!
# The descent

The functions of the descent read a pattern as an expression of the grammar, and emit the
program of that expression.

* `Emits` — what has been read and emitted;
* `classLoop_listed` — the characters between brackets;
* `regatom_emits`, `regpiece_emits`, `regbranch_emits`, `reg_groups` — one lemma for each
  function;
* `regcomp_reads` — **an accepted pattern is an expression, and the program is its program**.
-/

namespace Regexp

open Ascii (Byte)
open Regular (Re)

variable {sub : Comp → Parsed} {c : Comp} {out : Nat × Flags × Comp} {r t acc : Exp}
  {text : List Byte} {l : Level}

/-- A text has been read as an expression, and its program emitted. -/
structure Emits (l : Level) (c : Comp) (out : Nat × Flags × Comp) (text : List Byte) (r : Exp) :
    Prop where
  parsed : c.regparse = text ++ out.2.2.regparse
  reads : Reads l text c.regnpar r out.2.2.regnpar
  code : out.2.2.regcode = c.regcode ++ asm r 0
  first : out.1 = c.regcode.length
  width : out.2.1.hasWidth = hasWidth r
  single : out.2.1.simple = simple r

/-- What `reg (1, …)` does, from behind the parenthesis. -/
structure EmitsGroup (c : Comp) (out : Nat × Flags × Comp) (text : List Byte) (r : Exp) :
    Prop where
  number : c.regnpar < NSUBEXP
  parsed : c.regparse = text ++ 0x29 :: out.2.2.regparse
  reads : Reads .choice text (c.regnpar + 1) r out.2.2.regnpar
  code : out.2.2.regcode = c.regcode ++ asm (.group c.regnpar r) 0
  first : out.1 = c.regcode.length
  width : out.2.1.hasWidth = hasWidth r

/-- There is no zero byte in the text, and the groups are numbered from 1. -/
def Comp.Ready (c : Comp) : Prop := 0 ∉ c.regparse ∧ 1 ≤ c.regnpar

def SubEmits (sub : Comp → Parsed) : Prop :=
  ∀ c out, Comp.Ready c → sub c = .ok out → ∃ text r, EmitsGroup c out text r

theorem Emits.ready (h : Emits l c out text r) (hc : c.Ready) :
    out.2.2.Ready ∧ Fits (l = .choice) r := by
  have hzero := hc.1
  rw [h.parsed, List.mem_append, not_or] at hzero
  obtain ⟨hfits, hm⟩ := h.reads.fits hzero.1 hc.2
  exact ⟨⟨hzero.2, hm⟩, hfits⟩

/-! ## Brackets -/

theorem bind_ok {α β : Type} {x : Except String α} {f : α → Except String β} {b : β}
    (h : (x >>= f) = .ok b) : ∃ a, x = .ok a ∧ f a = .ok b := by
  cases x with
  | error e => cases h
  | ok a => exact ⟨a, rfl, h⟩

theorem classLoop_listed {last : Byte} {text cs rest : List Byte}
    (h : classLoop last text = .ok (cs, rest)) (hrest : rest ≠ []) :
    ∃ inner rest', rest = 0x5D :: rest' ∧ text = inner ++ rest ∧ Listed last inner cs := by
  fun_induction classLoop last text generalizing cs rest with
  | case1 last =>
      cases h
      exact absurd rfl hrest
  | case2 last rest' =>
      cases h
      exact ⟨[], rest', rfl, rfl, .stop last⟩
  | case3 last hne =>
      cases h
      exact absurd rfl hrest
  | case4 last rest' hne =>
      cases h
      exact ⟨[0x2D], rest', rfl, rfl, .dash last⟩
  | case5 => cases h
  | case6 last d rest' hd hle hne ih =>
      obtain ⟨⟨cs', rest''⟩, hloop, hret⟩ := bind_ok h
      cases hret
      obtain ⟨inner, behind, rfl, rfl, hlisted⟩ := ih hloop hrest
      refine ⟨0x2D :: d :: inner, behind, rfl, rfl, .range hd ?_ hlisted⟩
      rw [UInt8.le_iff_toNat_le]
      omega
  | case7 last b rest' hclose hdash ih =>
      obtain ⟨⟨cs', rest''⟩, hloop, hret⟩ := bind_ok h
      cases hret
      obtain ⟨inner, behind, rfl, rfl, hlisted⟩ := ih hloop hrest
      exact ⟨b :: inner, behind, rfl, rfl, .char hclose hdash hlisted⟩

/-- The first character between the brackets stands for itself. -/
theorem classFirst_listed {last : Byte} {text cs rest : List Byte}
    (h : classFirst last text = .ok (cs, rest)) (hrest : rest ≠ []) :
    ∃ b inner ds rest', rest = 0x5D :: rest' ∧ text = b :: (inner ++ rest) ∧ cs = b :: ds ∧
      Listed b inner ds := by
  cases text with
  | nil =>
      cases h
      exact absurd rfl hrest
  | cons b text =>
      have hnext : ∃ ds, cs = b :: ds ∧ classLoop b text = .ok (ds, rest) := by
        rw [classFirst] at h
        split at h
        · obtain ⟨⟨ds, rest'⟩, hloop, hret⟩ := bind_ok h
          cases hret
          exact ⟨ds, rfl, hloop⟩
        · rename_i hnot
          rw [not_or] at hnot
          rw [classLoop.eq_def] at h
          dsimp only at h
          rw [if_neg hnot.1, if_neg hnot.2] at h
          obtain ⟨⟨ds, rest'⟩, hloop, hret⟩ := bind_ok h
          cases hret
          exact ⟨ds, rfl, hloop⟩
      obtain ⟨ds, rfl, hloop⟩ := hnext
      obtain ⟨inner, rest', rfl, rfl, hlisted⟩ := classLoop_listed hloop hrest
      exact ⟨b, inner, ds, rest', rfl, rfl, rfl, hlisted⟩

theorem listNode_listed {op : Op} {last : Byte} (h : listNode op last text c = .ok out) :
    ∃ b inner ds rest, text = b :: (inner ++ 0x5D :: rest) ∧ Listed b inner ds ∧
      out = (c.regcode.length, ⟨true, true, false⟩,
        (({ c with regparse := rest } : Comp).regnode op).regcs (b :: ds)) := by
  obtain ⟨⟨cs, behind⟩, hfirst, hret⟩ := bind_ok h
  cases behind with
  | nil => cases hret
  | cons d behind =>
      obtain ⟨b, inner, ds, rest, hrest, rfl, rfl, hlisted⟩ :=
        classFirst_listed hfirst (List.cons_ne_nil d behind)
      obtain ⟨rfl, rfl⟩ := List.cons.inj hrest
      cases hret
      exact ⟨b, inner, ds, behind, rfl, hlisted, rfl⟩

/-- `[…]`. -/
theorem regclass_emits {rest : List Byte} (hc : c.regparse = 0x5B :: rest)
    (h : regclass { c with regparse := rest } = .ok out) :
    ∃ text r, Emits .atom c out text r := by
  rw [regclass] at h
  dsimp only at h
  cases rest with
  | nil =>
      obtain ⟨b, inner, ds, rest, htext, -⟩ := listNode_listed h
      cases htext
  | cons b rest =>
      dsimp only at h
      by_cases hb : b = 0x5E
      · subst hb
        obtain ⟨b, inner, ds, rest, rfl, hlisted, rfl⟩ := listNode_listed h
        refine ⟨0x5B :: 0x5E :: b :: (inner ++ [0x5D]), .one (.anyBut (b :: ds)), ?_,
          .anyBut _ hlisted, ?_, rfl, rfl, rfl⟩
        · rw [hc]
          simp [Comp.regnode, Comp.regcs]
        · simp [Comp.regnode, Comp.regcs, asm, str]
      · rw [if_neg hb] at h
        obtain ⟨b', inner, ds, rest, htext, hlisted, rfl⟩ := listNode_listed h
        obtain ⟨rfl, rfl⟩ := List.cons.inj htext
        refine ⟨0x5B :: b :: (inner ++ [0x5D]), .one (.anyOf (b :: ds)), ?_, .anyOf _ hb hlisted,
          ?_, rfl, rfl, rfl⟩
        · rw [hc]
          simp [Comp.regnode, Comp.regcs]
        · simp [Comp.regnode, Comp.regcs, asm, str]

/-! ## Atoms -/

theorem mem_META {b : Byte} : b ∈ META ↔ b = 0x5E ∨ b = 0x24 ∨ b = 0x2E ∨ b = 0x5B ∨ b = 0x28 ∨
    b = 0x29 ∨ b = 0x7C ∨ b = 0x3F ∨ b = 0x2B ∨ b = 0x2A ∨ b = 0x5C := by
  have hmeta : META = [0x5E, 0x24, 0x2E, 0x5B, 0x28, 0x29, 0x7C, 0x3F, 0x2B, 0x2A, 0x5C] := by
    decide
  rw [hmeta]
  simp

theorem isMult_meta {b : Byte} (h : ISMULT b = true) : b ∈ META := by
  rw [mem_META]
  simp only [ISMULT, Bool.or_eq_true, decide_eq_true_eq] at h
  tauto

/-- **A run of ordinary characters** is one, or no operator follows it. -/
theorem runLength_spec {b : Byte} {rest : List Byte} (hb : b ∉ META) :
    (∀ d ∈ (b :: rest).take (runLength (b :: rest)), d ∉ META) ∧
      1 ≤ ((b :: rest).take (runLength (b :: rest))).length ∧
      ((b :: rest).take (runLength (b :: rest))).length = runLength (b :: rest) ∧
      (2 ≤ runLength (b :: rest) →
        ((b :: rest).drop (runLength (b :: rest))).head?.any ISMULT = false) := by
  obtain ⟨run, hrun⟩ : ∃ run, run = (b :: rest).takeWhile (· ∉ META) := ⟨_, rfl⟩
  have hprefix : run <+: b :: rest := hrun ▸ List.takeWhile_prefix _
  have hplain : ∀ d ∈ run, d ∉ META := by
    intro d hd
    rw [hrun] at hd
    simpa using List.mem_takeWhile_imp hd
  have hpos : 1 ≤ run.length := by
    rw [hrun, List.takeWhile_cons_of_pos (by simpa using hb)]
    exact Nat.succ_pos _
  have hlen : runLength (b :: rest) ≤ run.length ∧ 1 ≤ runLength (b :: rest) := by
    rw [runLength, ← hrun]
    split
    · omega
    · omega
  have htake : (b :: rest).take (runLength (b :: rest)) = run.take (runLength (b :: rest)) := by
    obtain ⟨behind, hbehind⟩ := hprefix
    rw [← hbehind, List.take_append_of_le_length (hbehind ▸ hlen.1)]
  have htakelen : ((b :: rest).take (runLength (b :: rest))).length = runLength (b :: rest) := by
    rw [htake, List.length_take, Nat.min_eq_left hlen.1]
  refine ⟨fun d hd => hplain d ?_, by rw [htakelen]; exact hlen.2, htakelen, fun htwo => ?_⟩
  · rw [htake] at hd
    exact List.mem_of_mem_take hd
  · by_contra hmult
    rw [Bool.not_eq_false] at hmult
    obtain ⟨d, hd, hmult⟩ := (Option.any_eq_true _ _).mp hmult
    rw [List.head?_drop] at hd
    rcases Nat.lt_or_ge (runLength (b :: rest)) run.length with hlt | hge
    · obtain ⟨behind, hbehind⟩ := hprefix
      have hin : run[runLength (b :: rest)]? = some d := by
        rw [← hd, ← hbehind, List.getElem?_append_left (hbehind ▸ hlt)]
      exact hplain d (List.mem_of_getElem? hin) (isMult_meta hmult)
    · have heq : runLength (b :: rest) = run.length := Nat.le_antisymm hlen.1 hge
      have hback : runLength (b :: rest) = run.length - 1 := by
        rw [runLength, ← hrun]
        refine if_pos ⟨by omega, ?_⟩
        rw [List.head?_drop, ← heq, hd]
        exact hmult
      omega

/-- **`regatom`** reads an atom, or a run of characters that no operator follows. -/
theorem regatom_emits (hsub : SubEmits sub) (hc : c.Ready) (h : regatom sub c = .ok out) :
    ∃ text r, Emits .atom c out text r ∨
      Emits .piece c out text r ∧ out.2.2.regparse.head?.any ISMULT = false := by
  rw [regatom] at h
  split at h
  · cases h
  · rename_i b rest hparse
    dsimp only at h
    split at h
    · rename_i hb
      cases h
      exact ⟨[0x5E], .bol, .inl ⟨by rw [hparse, hb]; rfl, .bol _, rfl, rfl, rfl, rfl⟩⟩
    split at h
    · rename_i hb
      cases h
      exact ⟨[0x24], .eol, .inl ⟨by rw [hparse, hb]; rfl, .eol _, rfl, rfl, rfl, rfl⟩⟩
    split at h
    · rename_i hb
      cases h
      exact ⟨[0x2E], .one .any, .inl ⟨by rw [hparse, hb]; rfl, .any _, rfl, rfl, rfl, rfl⟩⟩
    split at h
    · rename_i hb
      rw [hb] at hparse
      obtain ⟨text, r, hemits⟩ := regclass_emits hparse h
      exact ⟨text, r, .inl hemits⟩
    split at h
    · rename_i hb
      obtain ⟨⟨first, flags, c'⟩, hgroup, hret⟩ := bind_ok h
      cases hret
      have hready : Comp.Ready { c with regparse := rest } := by
        have hzero := hc.1
        rw [hparse, List.mem_cons, not_or] at hzero
        exact ⟨hzero.2, hc.2⟩
      obtain ⟨text, r, hemits⟩ := hsub _ _ hready hgroup
      refine ⟨0x28 :: (text ++ [0x29]), .group c.regnpar r, .inl ⟨?_,
        .group hemits.number hemits.reads, hemits.code, hemits.first, hemits.width, rfl⟩⟩
      have htext : rest = text ++ 0x29 :: c'.regparse := hemits.parsed
      rw [hparse, hb, htext]
      simp
    split at h
    · cases h
    split at h
    · cases h
    split at h
    · rename_i hb
      split at h
      · cases h
      · rename_i d rest
        cases h
        exact ⟨[0x5C, d], .lit [d], .inl ⟨by rw [hparse, hb]; rfl, .quoted d _,
          List.append_assoc .., rfl, rfl, rfl⟩⟩
    · rename_i hbol heol hany hset hgroup hbar hmult hquote
      have hb : b ∉ META := by
        simp only [ISMULT, Bool.or_eq_true, decide_eq_true_eq] at hmult
        rw [mem_META]
        tauto
      obtain ⟨hplain, hpos, hlen, hbehind⟩ := @runLength_spec b rest hb
      rw [hparse] at h
      split at h
      · cases h
      cases h
      have hcode : ∀ cs, (({ c with regparse := (b :: rest).drop (runLength (b :: rest)) } : Comp).regnode
          .EXACTLY).regcs cs = { c with
            regparse := (b :: rest).drop (runLength (b :: rest))
            regcode := c.regcode ++ asm (.lit cs) 0 } := by
        intro cs
        simp [Comp.regnode, Comp.regcs, asm, str]
      have hparsed : c.regparse = (b :: rest).take (runLength (b :: rest)) ++
          (b :: rest).drop (runLength (b :: rest)) := by
        rw [hparse, List.take_append_drop]
      rw [hcode]
      rcases Nat.lt_or_ge (runLength (b :: rest)) 2 with hlt | hge
      · have hone : runLength (b :: rest) = 1 := by omega
        refine ⟨[b], .lit [b], .inl ⟨?_, .char _ hb, ?_, rfl, rfl, ?_⟩⟩
        · rw [hparsed, hone]
          rfl
        · rw [hone]
          rfl
        · rw [hone]
          rfl
      · refine ⟨_, .lit ((b :: rest).take (runLength (b :: rest))), .inr ⟨⟨hparsed,
          .run _ hplain (by omega), rfl, rfl, rfl, ?_⟩, hbehind hge⟩⟩
        rw [simple, hlen]

/-! ## Pieces -/

theorem Emits.piece (h : Emits .atom c out text r) : Emits .piece c out text r :=
  ⟨h.parsed, .atom h.reads, h.code, h.first, h.width, h.single⟩

/-- An atom with an operator behind it. -/
theorem regpiece_mult {op : Byte} {rest : List Byte} {c' : Comp} {ret : Nat} {flags : Flags}
    (hemits : Emits .atom c (ret, flags, c') text r) (hc : c.Ready)
    (hparse : c'.regparse = op :: rest) (hop : ISMULT op = true)
    (hwidth : ¬ (!flags.hasWidth && op != 0x3F) = true) :
    ∃ t, Emits .piece c (ret, if op = 0x2B then ⟨true, false, false⟩ else ⟨false, false, true⟩,
      { repeated op flags.simple ret c' with regparse := rest }) (text ++ [op]) t := by
  have hparsed : c.regparse = (text ++ [op]) ++ rest := by
    rw [hemits.parsed, List.append_assoc, List.singleton_append]
    exact congrArg (text ++ ·) hparse
  have hr : Fits false r := by simpa using (hemits.ready hc).2
  have hsingle : flags.simple = simple r := hemits.single
  have hwide : flags.hasWidth = hasWidth r := hemits.width
  have hfirst : ret = c.regcode.length := hemits.first
  have hput : c' = c'.put (c.regcode ++ asm r 0) :=
    (put_self c').symm.trans (congrArg c'.put hemits.code)
  have hneeds : op ≠ 0x3F → hasWidth r = true := by
    intro hne
    rw [hwide] at hwidth
    simpa [hne] using hwidth
  simp only [ISMULT, Bool.or_eq_true, decide_eq_true_eq] at hop
  rw [hsingle, hfirst, hput]
  rcases hop with (rfl | rfl) | rfl
  · rw [repeated_star hr]
    exact ⟨.star r, hparsed, .star hemits.reads (hneeds (by decide)), rfl, rfl, rfl, rfl⟩
  · rw [repeated_plus hr]
    exact ⟨.plus r, hparsed, .plus hemits.reads (hneeds (by decide)), rfl, rfl, rfl, rfl⟩
  · rw [repeated_opt hr (by decide) (by decide)]
    exact ⟨.opt r, hparsed, .opt hemits.reads, rfl, rfl, rfl, rfl⟩

/-- **`regpiece`** reads a piece. -/
theorem regpiece_emits (hsub : SubEmits sub) (hc : c.Ready) (h : regpiece sub c = .ok out) :
    ∃ text r, Emits .piece c out text r := by
  obtain ⟨⟨ret, flags, c'⟩, hatom, hrest⟩ := bind_ok h
  obtain ⟨text, r, hemits⟩ := regatom_emits hsub hc hatom
  have hpiece : Emits .piece c (ret, flags, c') text r := by
    rcases hemits with hemits | ⟨hemits, -⟩
    · exact hemits.piece
    · exact hemits
  dsimp only at hrest
  split at hrest
  · cases hrest
    exact ⟨text, r, hpiece⟩
  · rename_i op rest hparse
    split at hrest
    · cases hrest
      exact ⟨text, r, hpiece⟩
    · rename_i hop
      have hop : ISMULT op = true := by simpa using hop
      split at hrest
      · cases hrest
      · rename_i hwidth
        split at hrest
        · cases hrest
        · cases hrest
          rcases hemits with hemits | ⟨-, hnone⟩
          · obtain ⟨t, ht⟩ := regpiece_mult hemits hc hparse hop hwidth
            exact ⟨_, t, ht⟩
          · rw [hparse] at hnone
            exact absurd (hop.symm.trans hnone) Bool.true_eq_false_eq_False

/-! ## Branches -/

variable {c₀ c' : Comp} {q : Nat} {flags flags' : Flags} {chain : Option Nat}

/-- Pieces have been strung together, `q` being the last one. -/
structure Strung (c₀ : Comp) (q : Nat) (flags : Flags) (c : Comp) (text : List Byte) (acc : Exp) :
    Prop where
  parsed : c₀.regparse = text ++ c.regparse
  reads : Reads .pieces text c₀.regnpar acc c.regnpar
  code : c.regcode = c₀.regcode ++ asm acc 0
  chained : Forward c.regcode q (c₀.regcode.length + tail acc)
  width : flags.hasWidth = hasWidth acc
  ready : c.Ready
  fits : Fits false acc

/-- The first piece. -/
theorem Emits.strung (h : Emits .piece c out text r) (hc : c.Ready)
    (hflags : flags.hasWidth = out.2.1.hasWidth) : Strung c out.1 flags out.2.2 text r := by
  obtain ⟨hready, hfits⟩ := h.ready hc
  have hr : Fits false r := by simpa using hfits
  refine ⟨h.parsed, .one h.reads, h.code, ?_, hflags.trans h.width, hready, hr⟩
  rw [h.code, h.first]
  have hat := at_of_append c.regcode (asm r 0) []
  rw [List.append_nil] at hat
  exact hr.forward hat

/-- Another piece: the chain of the ones before leads to it. -/
theorem Strung.more {text' : List Byte} (h : Strung c₀ q flags c text acc)
    (h' : Emits .piece c out text' t)
    (hflags : flags'.hasWidth = (flags.hasWidth || out.2.1.hasWidth)) :
    Strung c₀ out.1 flags' (out.2.2.regtail q out.1) (text ++ text') (.cat acc t) := by
  obtain ⟨hready, hfits⟩ := h'.ready h.ready
  have ht : Fits false t := by simpa using hfits
  have hlt := h.fits.tail_lt
  have hlatest : out.1 = c₀.regcode.length + cells acc := by
    rw [h'.first, h.code, List.length_append, length_asm]
  have hcode : out.2.2.regcode = c₀.regcode ++ asm acc 0 ++ asm t 0 := by rw [h'.code, h.code]
  have hput : out.2.2.regtail q out.1 =
      out.2.2.put (c₀.regcode ++ asm acc (cells acc - tail acc) ++ asm t 0) := by
    have hchain : Forward out.2.2.regcode q (c₀.regcode.length + tail acc) := by
      rw [h'.code]
      exact h.chained.append _
    have hset := @put_regtail_asm acc out.2.2 c₀.regcode (asm t 0) out.2.2.regcode q out.1
      (cells acc - tail acc) h.fits hcode hchain (by omega)
    rwa [put_self] at hset
  rw [hput]
  refine ⟨?_, .more h.reads h'.reads, ?_, ?_, ?_, hready, .cat h.fits ht⟩
  · rw [h.parsed, h'.parsed, List.append_assoc]
    rfl
  · rw [put_regcode, asm, List.append_assoc]
  · have hat := at_of_append (c₀.regcode ++ asm acc (cells acc - tail acc)) (asm t 0) []
    rw [List.append_nil, List.length_append, length_asm, ← hlatest] at hat
    have hforward := ht.forward hat
    rw [hlatest, Nat.add_assoc] at hforward
    rw [put_regcode, hlatest]
    exact hforward
  · rw [hflags, h.width, h'.width, hasWidth]

/-- The loop goes on stringing pieces together. -/
theorem pieces_strung {f : Nat} (hsub : SubEmits sub) (h : Strung c₀ q flags c text acc)
    (hrun : pieces sub f (some q) flags c = .ok (chain, flags', c')) :
    ∃ q' text' acc', chain = some q' ∧ Strung c₀ q' flags' c' text' acc' := by
  induction f generalizing q flags c text acc with
  | zero =>
      cases hrun
      exact ⟨q, text, acc, rfl, h⟩
  | succ f ih =>
      rw [pieces] at hrun
      split at hrun
      · cases hrun
        exact ⟨q, text, acc, rfl, h⟩
      · obtain ⟨⟨latest, piece, c₁⟩, hpiece, hrest⟩ := bind_ok hrun
        obtain ⟨text', t, hemits⟩ := regpiece_emits hsub h.ready hpiece
        exact ih (h.more hemits rfl) hrest

/-- What `regbranch` reads and emits. -/
structure EmitsBranch (c : Comp) (out : Nat × Flags × Comp) (text : List Byte) (r : Exp) :
    Prop where
  parsed : c.regparse = text ++ out.2.2.regparse
  reads : Reads .branch text c.regnpar r out.2.2.regnpar
  code : out.2.2.regcode = c.regcode ++ .node .BRANCH 0 :: asm r 0
  first : out.1 = c.regcode.length
  width : out.2.1.hasWidth = hasWidth r
  ready : out.2.2.Ready
  fits : Fits false r

/-- **`regbranch`** reads a branch. -/
theorem regbranch_emits (hsub : SubEmits sub) (hc : c.Ready) (h : regbranch sub c = .ok out) :
    ∃ text r, EmitsBranch c out text r := by
  obtain ⟨⟨chain, flags, c'⟩, hpieces, hret⟩ := bind_ok h
  have hempty : chain = none → flags = worst → c' = c.regnode .BRANCH →
      ∃ text r, EmitsBranch c out text r := by
    rintro rfl rfl rfl
    cases hret
    exact ⟨[], .nothing, rfl, .empty _, List.append_assoc .., rfl, rfl, hc, .nothing⟩
  cases hlen : c.regparse.length with
  | zero =>
      rw [hlen] at hpieces
      cases hpieces
      exact hempty rfl rfl rfl
  | succ f =>
      rw [hlen, pieces] at hpieces
      split at hpieces
      · cases hpieces
        exact hempty rfl rfl rfl
      · obtain ⟨⟨latest, piece, c₁⟩, hpiece, hrest⟩ := bind_ok hpieces
        have hready : (c.regnode .BRANCH).Ready := hc
        obtain ⟨text₁, r₁, hemits⟩ := regpiece_emits hsub hready hpiece
        have hfirst : Strung (c.regnode .BRANCH) latest
            ⟨worst.hasWidth || piece.hasWidth, worst.simple, worst.spStart || piece.spStart⟩ c₁
            text₁ r₁ := hemits.strung hready (Bool.false_or _)
        obtain ⟨q, text, r, rfl, hstrung⟩ := pieces_strung hsub hfirst hrest
        cases hret
        refine ⟨text, r, hstrung.parsed, .full hstrung.reads, ?_, rfl, hstrung.width,
          hstrung.ready, hstrung.fits⟩
        exact hstrung.code.trans (List.append_assoc ..)

/-! ## Choices -/

variable {base : Code} {place : Nat} {op : Op}

/-- A branch behind the others. -/
theorem reads_addBranch {text' : List Byte} {n m k : Nat} (h : Reads .choice text n acc m)
    (h' : Reads .branch text' m t k) :
    Reads .choice (text ++ 0x7C :: text') n (addBranch acc t) k := by
  generalize hl : Level.choice = l at h
  induction h with
  | branch hr ih => exact .alt hr (.branch h')
  | alt hr hu ihr ihu =>
      have hrest := ihu h' rfl
      rw [List.append_assoc, List.cons_append]
      exact .alt hr hrest
  | _ => cases hl

/-- Branches have been read; the chain from `place` leads to the last one. -/
structure Branched (c₀ : Comp) (base : Code) (flags : Flags) (c : Comp) (text : List Byte)
    (acc : Exp) : Prop where
  parsed : c₀.regparse = text ++ c.regparse
  reads : Reads .choice text c₀.regnpar acc c.regnpar
  code : c.regcode = base ++ unhooked acc 0
  width : flags.hasWidth = hasWidth acc
  ready : c.Ready
  fits : Fits true acc

/-- The last branch is led to what follows. -/
theorem regtail_branched {bs : Code} (hacc : Fits true acc)
    (hbase : Forward base place base.length) :
    (c.put (base ++ unhooked acc 0 ++ bs)).regtail place (base.length + cells acc) =
      c.put (base ++ unhooked acc (cells acc - lastBranch acc) ++ bs) := by
  obtain ⟨as, es, hlen, hall⟩ := hacc.unhooked_split
  have hlt := hacc.lastBranch_lt
  have hforward : Forward (base ++ unhooked acc 0 ++ bs) place (base ++ as).length := by
    have hrest := hacc.forward_unhooked (at_of_append base (unhooked acc 0) bs)
    rw [List.length_append, hlen]
    rw [List.append_assoc] at hrest ⊢
    exact (hbase.append _).trans hrest
  have hcode : ∀ last, base ++ unhooked acc last ++ bs =
      base ++ as ++ .node .BRANCH last :: (es ++ bs) := by
    intro last
    rw [hall, List.append_assoc, List.append_assoc, List.append_assoc, List.cons_append]
  have hset := @put_regtail c (base ++ as) (es ++ bs) .BRANCH _ place (base.length + cells acc)
    (cells acc - lastBranch acc) (hcode 0) hforward (by simp)
    (by rw [List.length_append, hlen]; omega)
  rw [hset, hcode]

/-- Another branch. -/
theorem Branched.more {text' rest : List Byte} (h : Branched c₀ base flags c text acc)
    (hbase : Forward base place base.length) (hparse : c.regparse = 0x7C :: rest)
    (h' : EmitsBranch { c with regparse := rest } out text' t) :
    Branched c₀ base (flags.join out.2.1) (out.2.2.regtail place out.1) (text ++ 0x7C :: text')
      (addBranch acc t) := by
  have hfirst : out.1 = base.length + cells acc := by
    have hfirst : out.1 = c.regcode.length := h'.first
    rw [hfirst, h.code, List.length_append, length_unhooked h.fits]
  have hcode : out.2.2.regcode = base ++ unhooked acc 0 ++ .node .BRANCH 0 :: asm t 0 := by
    have hcode : out.2.2.regcode = c.regcode ++ .node .BRANCH 0 :: asm t 0 := h'.code
    rw [hcode, h.code]
  have hput : out.2.2.regtail place out.1 = out.2.2.put (base ++ unhooked (addBranch acc t) 0) := by
    have hself : out.2.2 = out.2.2.put (base ++ unhooked acc 0 ++ .node .BRANCH 0 :: asm t 0) :=
      (put_self out.2.2).symm.trans (congrArg out.2.2.put hcode)
    have hset := @regtail_branched out.2.2 acc base place (.node .BRANCH 0 :: asm t 0) h.fits hbase
    rw [← hself, ← hfirst] at hset
    rw [hset, unhooked_addBranch h.fits, List.append_assoc]
  rw [hput]
  refine ⟨?_, reads_addBranch h.reads h'.reads, rfl, ?_, h'.ready, h.fits.addBranch h'.fits⟩
  · have hrest : rest = text' ++ out.2.2.regparse := h'.parsed
    rw [h.parsed, hparse, hrest, List.append_assoc, List.cons_append]
    rfl
  · rw [hasWidth_addBranch h.fits, ← h.width, ← h'.width]
    rfl

/-- The loop over the branches. -/
theorem branches_emits {f : Nat} (hsub : SubEmits sub) (hbase : Forward base place base.length)
    (h : Branched c₀ base flags c text acc)
    (hrun : branches sub place f flags c = .ok (flags', c')) :
    ∃ text' acc', Branched c₀ base flags' c' text' acc' := by
  induction f generalizing flags c text acc with
  | zero =>
      cases hrun
      exact ⟨text, acc, h⟩
  | succ f ih =>
      rw [branches] at hrun
      split at hrun
      · cases hrun
        exact ⟨text, acc, h⟩
      · rename_i b rest hparse
        split at hrun
        · cases hrun
          exact ⟨text, acc, h⟩
        · rename_i hbar
          rw [not_not] at hbar
          rw [hbar] at hparse
          obtain ⟨⟨br, branch, c₁⟩, hbranch, hrest⟩ := bind_ok hrun
          have hready : Comp.Ready { c with regparse := rest } := by
            have hzero := h.ready.1
            rw [hparse, List.mem_cons, not_or] at hzero
            exact ⟨hzero.2, h.ready.2⟩
          obtain ⟨text', t, hemits⟩ := regbranch_emits hsub hready hbranch
          exact ih (h.more hbase hparse hemits) hrest

/-! ## Groups, and the whole -/

/-- In front of the branches there is nothing to hook. -/
theorem hookTails_open {X : Code} {no ender f : Nat} :
    hookTails ender (f + 1) base.length (c.put (base ++ .node (.OPEN no) 1 :: X)) =
      hookTails ender f (base.length + 1) (c.put (base ++ .node (.OPEN no) 1 :: X)) := by
  have hnode := get_append base (.node (.OPEN no) 1) X
  have hnot : (base ++ .node (.OPEN no) 1 :: X).op base.length ≠ some .BRANCH := by
    rw [Code.op, hnode]
    simp
  have hstay : (c.put (base ++ .node (.OPEN no) 1 :: X)).regoptail base.length ender =
      c.put (base ++ .node (.OPEN no) 1 :: X) := if_neg hnot
  rw [hookTails, hstay, put_regcode, regnext_forward hnode (by simp) Nat.one_pos]

/-- The first branch. -/
theorem EmitsBranch.branched (h : EmitsBranch c₀ out text r)
    (hflags : flags.hasWidth = out.2.1.hasWidth) (hparse : c.regparse = out.2.2.regparse) (hnpar : c.regnpar = out.2.2.regnpar)
    (hcode : c.regcode = base ++ .node .BRANCH 0 :: asm r 0) :
    Branched c₀ base flags c text (.branch r) := by
  refine ⟨?_, .branch ?_, hcode, hflags.trans h.width, ?_, .branch h.fits⟩
  · rw [hparse]
    exact h.parsed
  · rw [hnpar]
    exact h.reads
  · have hready := h.ready
    rw [Comp.Ready] at hready ⊢
    rwa [hparse, hnpar]

/-- The closing node, and the last branch led to it. -/
theorem Branched.closed (h : Branched c₀ base flags c text acc)
    (hbase : Forward base place base.length) (op : Op) :
    (c.regnode op).regtail place c.regcode.length =
      c.put (base ++ (unhooked acc (cells acc - lastBranch acc) ++ [.node op 0])) := by
  have hself : c.regnode op = c.put (base ++ unhooked acc 0 ++ [.node op 0]) := by
    rw [← h.code]
    rfl
  have hender : c.regcode.length = base.length + cells acc := by
    rw [h.code, List.length_append, length_unhooked h.fits]
  rw [hself, hender, regtail_branched h.fits hbase, List.append_assoc]

/-- **`reg` in parentheses** reads a choice and the parenthesis behind it. -/
theorem reg_group {depth : Nat} (hsub : SubEmits (reg depth true)) :
    SubEmits (reg (depth + 1) true) := by
  intro c out hc h
  rw [reg] at h
  split at h
  · cases h
  · rename_i hno
    have hno : c.regnpar < NSUBEXP := by simpa using hno
    obtain ⟨⟨br, flags, c₁⟩, hbranch, hrest⟩ := bind_ok h
    obtain ⟨⟨flags', c₂⟩, hbranches, hend⟩ := bind_ok hrest
    obtain ⟨c₀, hc₀⟩ : ∃ c₀, c₀ = Comp.regnode (.OPEN c.regnpar)
        { c with regnpar := c.regnpar + 1 } := ⟨_, rfl⟩
    obtain ⟨base, hbase⟩ : ∃ base, base = c.regcode ++ [.node (.OPEN c.regnpar) 1] := ⟨_, rfl⟩
    have hready : c₀.Ready := hc₀ ▸ ⟨hc.1, Nat.le_succ_of_le hc.2⟩
    have hchain : Forward base c.regcode.length base.length := by
      rw [hbase, List.length_append, List.length_singleton]
      exact .node (get_append _ _ _) (by simp) Nat.one_pos
    obtain ⟨text₁, r, hemits⟩ := regbranch_emits hsub hready (hc₀ ▸ hbranch)
    -- the parenthesis leads to the first branch
    have hfirst : Branched c₀ base ⟨flags.hasWidth, false, flags.spStart⟩
        (c₁.regtail c.regcode.length br) text₁ (.branch r) := by
      refine hemits.branched rfl rfl rfl ?_
      have hbr : br = c.regcode.length + 1 := by
        have hlen : br = c₀.regcode.length := hemits.first
        rw [hlen, hc₀, Comp.regnode, List.length_append, List.length_singleton]
      have hcode : c₁.regcode = c.regcode ++ .node (.OPEN c.regnpar) 0 :: .node .BRANCH 0 ::
          asm r 0 := by
        have hcode : c₁.regcode = c₀.regcode ++ .node .BRANCH 0 :: asm r 0 := hemits.code
        rw [hcode, hc₀, Comp.regnode, List.append_assoc, List.singleton_append]
      have hset := @put_regtail c₁ _ _ _ c₁.regcode c.regcode.length br 1 hcode (.refl _) (by simp)
        hbr
      rw [put_self] at hset
      rw [hset, put_regcode, hbase, List.append_assoc, List.singleton_append]
    obtain ⟨text, acc, hall⟩ := branches_emits hsub hchain hfirst hbranches
    have hclosed : hookTails c₂.regcode.length (c.regcode.length + 1 + (cells acc + 1))
        c.regcode.length (c₂.put (base ++ (unhooked acc (cells acc - lastBranch acc) ++
          [.node (.CLOSE c.regnpar) 0]))) = c₂.put (c.regcode ++ asm (.group c.regnpar acc) 0) := by
      have hlen : base.length = c.regcode.length + 1 := by
        rw [hbase, List.length_append, List.length_singleton]
      have hender : c₂.regcode.length = base.length + cells acc := by
        rw [hall.code, List.length_append, length_unhooked hall.fits]
      have hhook : hookTails c₂.regcode.length (c.regcode.length + (cells acc + 1)) base.length
          (c₂.put (base ++ (unhooked acc (cells acc - lastBranch acc) ++
            [.node (.CLOSE c.regnpar) 0]))) =
          c₂.put (base ++ (asm acc 0 ++ [.node (.CLOSE c.regnpar) 0])) :=
        hookTails_asm hall.fits (by simp) hender (by omega)
      have hsplit : ∀ X, base ++ X = c.regcode ++ .node (.OPEN c.regnpar) 1 :: X := by
        intro X
        rw [hbase, List.append_assoc, List.singleton_append]
      rw [hlen, hsplit, hsplit] at hhook
      rw [hsplit, Nat.add_right_comm, hookTails_open, hhook, asm]
    simp only [↓reduceIte] at hend
    rw [hall.closed hchain] at hend
    have hsize : (c₂.put (base ++ (unhooked acc (cells acc - lastBranch acc) ++
        [.node (.CLOSE c.regnpar) 0]))).regcode.length = c.regcode.length + 1 + (cells acc + 1) := by
      rw [put_regcode, List.length_append, List.length_append, length_unhooked hall.fits, hbase,
        List.length_append]
      rfl
    rw [hsize, hclosed] at hend
    split at hend
    · cases hend
    · rename_i b rest hparse
      have hparse : c₂.regparse = b :: rest := hparse
      split at hend
      · rename_i hb
        cases hend
        refine ⟨text, acc, hno, ?_, ?_, rfl, rfl, hall.width⟩
        · have hparsed := hall.parsed
          rw [hc₀] at hparsed
          exact hparsed.trans (by rw [hparse, hb])
        · have hreads := hall.reads
          rw [hc₀] at hreads
          exact hreads
      · cases hend

theorem reg_groups (depth : Nat) : SubEmits (reg depth true) := by
  induction depth with
  | zero => exact fun c out hc h => by cases h
  | succ depth ih => exact reg_group ih

/-- **An accepted pattern is an expression, and the program is its program.** -/
theorem regcomp_reads {exp : List Byte} {prog : Prog} (h : regcomp exp = .ok prog) :
    ∃ r m spStart, Reads .choice (exp.takeWhile (· ≠ 0)) 1 r m ∧
      prog = digOut spStart (.char MAGIC :: (asm r 0 ++ [.node .END 0])) := by
  obtain ⟨⟨ret, flags, c⟩, hreg, hret⟩ := bind_ok h
  dsimp only at hret
  split at hret
  · cases hret
  cases hret
  obtain ⟨c₀, hc₀⟩ : ∃ c₀, c₀ = Comp.mk (exp.takeWhile (· ≠ 0)) 1 [.char MAGIC] := ⟨_, rfl⟩
  rw [← hc₀, NSUBEXP, reg] at hreg
  simp only [Bool.false_and, Bool.false_eq_true, ↓reduceIte] at hreg
  obtain ⟨⟨br, flags₁, c₁⟩, hbranch, hrest⟩ := bind_ok hreg
  obtain ⟨⟨flags₂, c₂⟩, hbranches, hend⟩ := bind_ok hrest
  have hready : c₀.Ready := by
    rw [hc₀]
    exact ⟨zero_notMem_cut exp, Nat.le_refl 1⟩
  obtain ⟨text₁, r, hemits⟩ := regbranch_emits (reg_groups 9) hready hbranch
  have hfirst : Branched c₀ c₀.regcode ⟨flags₁.hasWidth, false, flags₁.spStart⟩ c₁ text₁
      (.branch r) :=
    hemits.branched rfl rfl rfl hemits.code
  obtain ⟨text, acc, hall⟩ := branches_emits (reg_groups 9) (.refl _) hfirst hbranches
  rw [hall.closed (.refl _)] at hend
  have hender : c₂.regcode.length = c₀.regcode.length + cells acc := by
    rw [hall.code, List.length_append, length_unhooked hall.fits]
  have hsize : (c₂.put (c₀.regcode ++ (unhooked acc (cells acc - lastBranch acc) ++
      [.node .END 0]))).regcode.length = c₀.regcode.length + (cells acc + 1) := by
    rw [put_regcode, List.length_append, List.length_append, length_unhooked hall.fits]
    rfl
  rw [hsize, hookTails_asm hall.fits (by simp) hender (by omega)] at hend
  split at hend
  · rename_i hparse
    cases hend
    have hparsed := hall.parsed
    rw [show c₂.regparse = [] from hparse, List.append_nil, hc₀] at hparsed
    have hreads := hall.reads
    rw [← hparsed, hc₀] at hreads
    refine ⟨acc, _, flags₂.spStart, hreads, ?_⟩
    rw [hc₀]
    rfl
  · split at hend
    · cases hend
    · cases hend

end Regexp
