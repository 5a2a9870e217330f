import Zzdwm.Lisp.Nesting

/-!
# The pointer to the root environment

The environments that evaluations on the stack have traced are moved with the others.
The global pointer is not: after a collection it names the place where the environment
was, until the expression has been evaluated.

* `Chained`, `gc_cars` — the list of roots reaches every root of every evaluation, so
  that each stands for the same object after a collection;
* `Rooted` — the invariant: the traced environments are the root environment, and so is
  the global pointer if there has been no collection since it was assigned;
* `Meets` — the pointer is only read then;
* `environment_current_and_globals_restored` — **what holds in every such run**.
-/

namespace Lisp

open Cheney Engine

/-! ## The list of roots -/

/-- Each root is followed by all that were traced before it. -/
def Chained : List Node → Prop
  | [] => True
  | node :: nodes => node.cdr = nodes.length ∧ Chained nodes

theorem carAt_le {nodes : List Node} {root : Nat} {p : Ptr} (h : carAt nodes root = some p) :
    root ≤ nodes.length := by
  induction nodes with
  | nil => cases h
  | cons node nodes ih =>
      rw [carAt] at h
      split at h
      next heq => exact Nat.le_of_eq heq
      next => exact Nat.le_succ_of_le (ih h)

theorem carAt_isSome {nodes : List Node} {root : Nat} (hpos : 0 < root) (hle : root ≤ nodes.length) :
    ∃ p, carAt nodes root = some p := by
  induction nodes with
  | nil => exact absurd (Nat.le_zero.mp hle) (Nat.ne_of_gt hpos)
  | cons node nodes ih =>
      rw [carAt]
      split
      next => exact ⟨node.car, rfl⟩
      next hne =>
        rw [List.length_cons] at hle
        exact ih (by omega)

/-- A root below the ones that are dropped. -/
theorem carAt_drop (nodes : List Node) {root n : Nat} (hroot : root ≤ n) (hn : n ≤ nodes.length) :
    carAt (nodes.drop (nodes.length - n)) root = carAt nodes root := by
  induction nodes with
  | nil => rw [List.drop_nil]
  | cons node nodes ih =>
      by_cases heq : n = nodes.length + 1
      · rw [heq, List.length_cons, Nat.sub_self, List.drop_zero]
      · rw [List.length_cons] at hn ⊢
        have hsucc : nodes.length + 1 - n = (nodes.length - n) + 1 := by omega
        rw [hsucc, List.drop_succ_cons, ih (by omega), carAt, if_neg (by omega)]

theorem carAt_setCar (p : Ptr) (nodes : List Node) {root root' : Nat} :
    carAt (setCar p nodes root) root' =
      if root' = root then (carAt nodes root).map fun _ => p else carAt nodes root' := by
  induction nodes with
  | nil =>
      rw [setCar]
      split <;> rfl
  | cons node nodes ih =>
      rw [setCar]
      split
      next heq =>
        rw [carAt, carAt, carAt, if_pos heq]
        by_cases h : root' = root
        · rw [if_pos (h.trans heq), if_pos h]
          rfl
        · have hne : root' ≠ nodes.length + 1 := fun h' => h (h'.trans heq.symm)
          rw [if_neg hne, if_neg h, if_neg hne]
      next hne =>
        rw [carAt, carAt, carAt, setCar_length, ih, if_neg hne]
        by_cases h : root' = root
        · rw [if_neg fun h' => hne (h.symm.trans h'), if_pos h, if_pos h]
        · rw [if_neg h, if_neg h]

theorem Chained.setCar {nodes : List Node} (h : Chained nodes) (p : Ptr) (root : Nat) :
    Chained (setCar p nodes root) := by
  induction nodes with
  | nil => exact h
  | cons node nodes ih =>
      rw [Lisp.setCar]
      split
      · exact h
      · exact ⟨h.1.trans (setCar_length p nodes root).symm, ih h.2⟩

theorem Chained.drop {nodes : List Node} (h : Chained nodes) (n : Nat) : Chained (nodes.drop n) := by
  induction nodes generalizing n with
  | nil =>
      rw [List.drop_nil]
      exact h
  | cons node nodes ih =>
      cases n with
      | zero => exact h
      | succ n => exact ih h.2 n

/-- **Every root is moved**, when the list starts with the last one. -/
theorem moveRoots_spec (nodes : List Node) : ∀ {c : Collector Nat}, Chained nodes → Forwards c →
    let moved := moveRoots nodes nodes.length c
    Chained moved.1 ∧ Forwards moved.2 ∧ Extends c moved.2 ∧
      ∀ root p a, carAt nodes root = some p → Denotes c.half c.fromSpace p a →
        ∃ p', carAt moved.1 root = some p' ∧ Denotes (!c.half) moved.2.toSpace p' a := by
  induction nodes with
  | nil => exact fun {c} h hc => ⟨trivial, hc, Extends.refl c, nofun⟩
  | cons node nodes ih =>
      intro c h hc
      obtain ⟨car, cdr⟩ := node
      obtain ⟨rfl, hnodes⟩ := h
      obtain ⟨hforwards, hextends, hmoved⟩ := moveObject_spec car hc
      have hrest := ih hnodes hforwards
      have hlen := moveRoots_length nodes nodes.length (moveObject car c).2
      have hmove : moveRoots (⟨car, nodes.length⟩ :: nodes) (nodes.length + 1) c =
          (⟨(moveObject car c).1, nodes.length⟩ :: (moveRoots nodes nodes.length (moveObject car c).2).1,
            (moveRoots nodes nodes.length (moveObject car c).2).2) := by
        rw [moveRoots, if_pos rfl]
      rw [List.length_cons, hmove]
      obtain ⟨hchained, hforwards', hextends', hcars⟩ := hrest
      refine ⟨⟨hlen.symm, hchained⟩, hforwards', hextends.trans hextends', ?_⟩
      intro root p a hp hdenotes
      rw [carAt] at hp
      rw [carAt, hlen]
      split at hp
      next heq =>
        cases hp
        rw [if_pos heq]
        have hkept := hextends'.kept (moveObject car c).1 a
        rw [hextends.half] at hkept
        exact ⟨_, rfl, hkept (hmoved a hdenotes)⟩
      next hne =>
        rw [if_neg hne]
        have hcar := hcars root p a hp (hextends.denotes hdenotes)
        rw [hextends.half] at hcar
        exact hcar

/-! ## Allocations -/

/-- What an allocation does to the memory: the roots stand for the same objects, and
without a collection every pointer does. -/
structure Moved (s t : Engine) : Prop where
  same : SameControl s t
  chained : Chained t.roots
  unmoved : Unmoved t.space
  cars : ∀ root p a, carAt s.roots root = some p → Denotes s.half s.space p a →
    ∃ p', carAt t.roots root = some p' ∧ Denotes t.half t.space p' a
  kept : t.collections = 0 → s.collections = 0 ∧
    ∀ p a, Denotes s.half s.space p a → Denotes t.half t.space p a

theorem Moved.refl {s : Engine} (hchained : Chained s.roots) (hunmoved : Unmoved s.space) : Moved s s :=
  ⟨SameControl.refl s, hchained, hunmoved, fun _ p _ hp ha => ⟨p, hp, ha⟩, fun h => ⟨h, fun _ _ hp => hp⟩⟩

/-- **A collection.** -/
theorem gc_moved {s : Engine} (hchained : Chained s.roots) (hunmoved : Unmoved s.space) : Moved s s.gc := by
  have hstart : Forwards ⟨s.half, s.space, []⟩ := Forwards.start hunmoved
  obtain ⟨hforwards, hextends, -⟩ := moveObject_spec s.symbols hstart
  obtain ⟨hchained', hforwards', hextends', hcars⟩ := moveRoots_spec s.roots hchained hforwards
  obtain ⟨hdone, hscanned⟩ := scan_spec s.space.length 0 hforwards'
  refine ⟨gc_same s, hchained', hdone.unmoved, ?_, fun hzero => absurd hzero (Nat.succ_ne_zero _)⟩
  intro root p a hp hdenotes
  obtain ⟨p', hp', hdenotes'⟩ := hcars root p a hp (hextends.denotes hdenotes)
  have hkept := hscanned.kept p' a
  rw [hextends'.half, hextends.half] at hkept
  rw [hextends.half] at hdenotes'
  exact ⟨p', hp', hkept hdenotes'⟩

/-- **An allocation.**  The new object is there, too. -/
theorem memoryAllocObject_moved {s : Engine} (hchained : Chained s.roots) (hunmoved : Unmoved s.space)
    (extra : Nat) (fields : List Ptr) :
    Moved s (s.memoryAllocObject extra fields).2 ∧
      ∀ p, (s.memoryAllocObject extra fields).1 = some p →
        Denotes (s.memoryAllocObject extra fields).2.half (s.memoryAllocObject extra fields).2.space p s.nextTag := by
  -- the object is added behind the others
  have hadd : ∀ {u : Engine} (n : Nat), Moved s u →
      Moved s { u with space := u.space ++ [newObject s.nextTag extra fields], nextTag := n } ∧
        Denotes u.half (u.space ++ [newObject s.nextTag extra fields]) (.heap u.half (total u.space)) s.nextTag := by
    intro u n hu
    refine ⟨⟨hu.same.trans ⟨rfl, rfl, rfl, rfl, rfl, rfl, rfl⟩, hu.chained, ?_, ?_, ?_⟩, ?_⟩
    · intro o ho
      rcases List.mem_append.mp ho with ho | ho
      · exact hu.unmoved o ho
      · rw [List.mem_singleton.mp ho]
        rfl
    · intro root p a hp hdenotes
      obtain ⟨p', hp', hdenotes'⟩ := hu.cars root p a hp hdenotes
      exact ⟨p', hp', hdenotes'.append _⟩
    · intro hzero
      obtain ⟨hzero', hkept⟩ := hu.kept hzero
      exact ⟨hzero', fun p a hp => (hkept p a hp).append _⟩
    · exact ⟨_, _, rfl, objectAt_total _ _, rfl⟩
  have hgc := gc_moved hchained hunmoved
  have hstay := Moved.refl hchained hunmoved
  rw [memoryAllocObject]
  split
  next hfull =>
    split
    next => exact ⟨hgc, fun p hp => by cases hp⟩
    next =>
      obtain ⟨hmoved, hnew⟩ := hadd (s.gc.nextTag + 1) hgc
      refine ⟨hmoved, fun p hp => ?_⟩
      cases hp
      exact hnew
  next hroom =>
    obtain ⟨hmoved, hnew⟩ := hadd (s.nextTag + 1) hstay
    refine ⟨hmoved, fun p hp => ?_⟩
    cases hp
    exact hnew

/-! ## The invariant -/

/-- The root that holds the environment of each evaluation. -/
def envRoots : List Frame → List Nat
  | [] => []
  | .evalSource _ _ .starting :: rest => envRoots rest
  | .evalSource _ envRoot .rooting :: rest => (envRoot + 1) :: envRoots rest
  | .evalSource _ envRoot .between :: rest => envRoot :: envRoots rest
  | .evalSource _ envRoot .busy :: rest => envRoot :: envRoots rest
  | .callHost _ :: rest => envRoots rest

/-- `newRootEnv` has not returned. -/
def Unsettled : Frame → Prop
  | .evalSource _ _ .starting | .evalSource _ _ .rooting => True
  | _ => False

/-- No expression is being read or evaluated. -/
def Idle : List Frame → Prop
  | [] => True
  | .evalSource _ _ .between :: _ => True
  | _ => False

/-- **The invariant**: the traced environments are the root environment, and so is the
global pointer if there has been no collection since it was assigned. -/
structure Rooted (s : Engine) : Prop where
  fits : s.Fits
  chained : Chained s.roots
  unmoved : Unmoved s.space
  held : ∀ k ∈ envRoots s.stack, ∃ p, carAt s.roots k = some p ∧ Denotes s.half s.space p s.rootEnv
  current : s.initialized = true → s.collections = 0 → Denotes s.half s.space s.environment s.rootEnv
  idle : s.initialized = true → Idle s.stack → s.collections = 0
  settled : s.initialized = true → ∀ frame ∈ s.stack, ¬ Unsettled frame
  unsettled : s.initialized = false →
    s.stack = [] ∨ ∃ frame, s.stack = [frame] ∧ Unsettled frame
  first : ∀ context envRoot, s.stack = [.evalSource context envRoot .starting] → s.roots.length = envRoot

/-- The pointer to the root environment is read. -/
def Reads : Event → Engine → Prop
  | .fboundp, _ => True
  | .evalSource _ capacity, s => s.stack ≠ [] ∧ capacity ≠ 0 ∧ s.evalContextCount ≠ MAX_EVAL_CONTEXTS
  | _, _ => False

/-- It is only read if there has been no collection since it was assigned. -/
def Meets (e : Event) (s : Engine) : Prop := Reads e s → s.collections = 0

theorem init_rooted : Rooted Engine.init where
  fits := init_fits
  chained := trivial
  unmoved := nofun
  held := nofun
  current := nofun
  idle := nofun
  settled := nofun
  unsettled := fun _ => Or.inl rfl
  first := nofun

/-- The roots of evaluations that have not yet been left. -/
theorem envRoots_le {contexts : Nat → EvalContext} {stack : List Frame} :
    ∀ {depth : Nat} {g : Globals}, Nested contexts stack depth g → ∀ k ∈ envRoots stack, k ≤ depth := by
  induction stack with
  | nil =>
      intro depth g _ k hk
      cases hk
  | cons frame stack ih =>
      intro depth g h k hk
      cases frame with
      | callHost previousHostRoots => exact ih h.2.2 k hk
      | evalSource context envRoot phase =>
          obtain ⟨-, -, hroot, hdepth, hrest⟩ := h
          have hown : ownRoots envRoot phase ≤ depth := hdepth
          have hbelow : k ∈ envRoots stack → k ≤ depth := by
            intro hk
            have hle := ih hrest k hk
            cases phase <;> (simp only [ownRoots] at hown; omega)
          cases phase with
          | starting => exact hbelow hk
          | rooting =>
              rcases List.mem_cons.mp hk with rfl | hk
              · exact hown
              · exact hbelow hk
          | between =>
              rcases List.mem_cons.mp hk with rfl | hk
              · exact hown
              · exact hbelow hk
          | busy =>
              rcases List.mem_cons.mp hk with rfl | hk
              · exact hown
              · exact hbelow hk

/-! ## Steps -/

/-- A step inside of the function on top. -/
theorem Rooted.change {s t : Engine} (h : Rooted s) (hfits : t.Fits) (hstack : t.stack = s.stack)
    (hinit : t.initialized = s.initialized) (henv : t.environment = s.environment)
    (htag : t.rootEnv = s.rootEnv) (hchained : Chained t.roots) (hunmoved : Unmoved t.space)
    (hheld : ∀ k ∈ envRoots s.stack, ∀ p, carAt s.roots k = some p → Denotes s.half s.space p s.rootEnv →
      ∃ p', carAt t.roots k = some p' ∧ Denotes t.half t.space p' s.rootEnv)
    (hkept : t.collections = 0 → s.collections = 0 ∧
      ∀ p a, Denotes s.half s.space p a → Denotes t.half t.space p a)
    (hidle : Idle s.stack → t.collections = s.collections)
    (hfirst : ∀ context envRoot, s.stack = [.evalSource context envRoot .starting] →
      t.roots.length = s.roots.length) : Rooted t where
  fits := hfits
  chained := hchained
  unmoved := hunmoved
  held := by
    intro k hk
    rw [hstack] at hk
    obtain ⟨p, hp, hdenotes⟩ := h.held k hk
    rw [htag]
    exact hheld k hk p hp hdenotes
  current := by
    intro hi hzero
    obtain ⟨hzero', hkept⟩ := hkept hzero
    rw [hinit] at hi
    rw [henv, htag]
    exact hkept _ _ (h.current hi hzero')
  idle := by
    intro hi hid
    rw [hstack] at hid
    rw [hidle hid]
    exact h.idle (hinit.symm.trans hi) hid
  settled := by
    rw [hinit, hstack]
    exact h.settled
  unsettled := by
    rw [hinit, hstack]
    exact h.unsettled
  first := by
    intro context envRoot hs
    rw [hstack] at hs
    exact (hfirst context envRoot hs).trans (h.first context envRoot hs)

/-- An allocation in an expression, or in `newRootEnv`. -/
theorem Rooted.moved {s t : Engine} (h : Rooted s) (hm : Moved s t) (hbusy : ¬ Idle s.stack) : Rooted t :=
  h.change (hm.same.fits h.fits) hm.same.stack hm.same.initialized hm.same.environment hm.same.rootEnv
    hm.chained hm.unmoved (fun k _ p hp hdenotes => hm.cars k p _ hp hdenotes) hm.kept
    (fun hidle => absurd hidle hbusy) (fun _ _ _ => hm.same.depth)

section Top

variable {s : Engine} {context envRoot : Nat} {phase : Phase} {rest : List Frame}

/-- The roots of the evaluations are below those of the interpreter. -/
theorem Rooted.own (h : Rooted s) (hs : s.stack = .evalSource context envRoot phase :: rest) :
    ownRoots envRoot phase ≤ s.roots.length ∧ ∀ k ∈ envRoots s.stack, k ≤ ownRoots envRoot phase := by
  have hfits := h.fits
  unfold Engine.Fits at hfits
  rw [hs] at hfits ⊢
  exact ⟨hfits.2.2.2.1, envRoots_le (hfits.top s.outputBuffer (Nat.le_refl (ownRoots envRoot phase)))⟩

/-- An evaluation returns, and the pointer is that of the root environment. -/
theorem Rooted.left {t : Engine} (h : Rooted s) (hs : s.stack = .evalSource context envRoot phase :: rest)
    (hleft : Left s t context envRoot phase rest)
    (hcurrent : s.initialized = true → t.collections = 0 ∧ Denotes s.half s.space t.environment s.rootEnv) :
    Rooted t where
  fits := (hleft.control hs).fits h.fits
  chained := by
    rw [hleft.roots]
    exact h.chained.drop _
  unmoved := by
    rw [hleft.space]
    exact h.unmoved
  held := by
    have hfits := h.fits
    unfold Engine.Fits at hfits
    rw [hs] at hfits
    obtain ⟨hbase, hrest⟩ := hfits.returns
    intro k hk
    rw [hleft.stack] at hk
    have hle := envRoots_le hrest k hk
    have hmem : k ∈ envRoots s.stack := by
      rw [hs]
      cases phase with
      | starting => exact hk
      | _ => exact List.mem_cons_of_mem _ hk
    rw [hleft.roots, hleft.half, hleft.space, hleft.rootEnv, carAt_drop s.roots hle hbase]
    exact h.held k hmem
  current := by
    intro hi _
    rw [hleft.half, hleft.space, hleft.rootEnv]
    exact (hcurrent (hleft.initialized.symm.trans hi)).2
  idle := fun hi _ => (hcurrent (hleft.initialized.symm.trans hi)).1
  settled := by
    intro hi frame hframe
    refine h.settled (hleft.initialized.symm.trans hi) frame ?_
    rw [hs, ← hleft.stack]
    exact List.mem_cons_of_mem _ hframe
  unsettled := by
    intro hi
    left
    rcases h.unsettled (hleft.initialized.symm.trans hi) with hnil | ⟨frame, hone, -⟩
    · rw [hs] at hnil
      cases hnil
    · rw [hs] at hone
      rw [hleft.stack]
      exact (List.cons.inj hone).2
  first := by
    intro context' envRoot' ht
    exfalso
    rw [hleft.stack] at ht
    by_cases hi : s.initialized = true
    · refine h.settled hi (.evalSource context' envRoot' .starting) ?_ trivial
      rw [hs, ht]
      exact List.mem_cons_of_mem _ List.mem_cons_self
    · rcases h.unsettled (Bool.not_eq_true _ ▸ hi) with hnil | ⟨frame, hone, -⟩
      · rw [hs] at hnil
        cases hnil
      · rw [hs, ht] at hone
        cases hone

/-- The root of an evaluation whose environment is there. -/
theorem Rooted.held_top (h : Rooted s) (hs : s.stack = .evalSource context envRoot phase :: rest)
    (hphase : phase = .between ∨ phase = .busy) :
    Denotes s.half s.space ((carAt s.roots envRoot).getD null) s.rootEnv := by
  have hmem : envRoot ∈ envRoots s.stack := by
    rw [hs]
    rcases hphase with rfl | rfl
    · exact List.mem_cons_self
    · exact List.mem_cons_self
  obtain ⟨p, hp, hdenotes⟩ := h.held envRoot hmem
  rw [hp]
  exact hdenotes

/-- **An exception.** -/
theorem Rooted.raise {t : Engine} (h : Rooted s) (hs : s.stack = .evalSource context envRoot phase :: rest)
    (hraise : s.raise = .ok t) : Rooted t := by
  obtain ⟨hleft, hassigned⟩ := caught_left hs envRoot
  have heq := Except.ok.inj ((raise_eq h.fits hs).symm.trans hraise)
  rw [heq] at hleft hassigned
  refine h.left hs hleft fun hi => ?_
  obtain ⟨henv, hzero⟩ := hassigned hi
  have hphase : phase = .between ∨ phase = .busy := by
    have hsettled := h.settled hi (.evalSource context envRoot phase) (hs ▸ List.mem_cons_self)
    cases phase with
    | starting => exact absurd trivial hsettled
    | rooting => exact absurd trivial hsettled
    | between => exact Or.inl rfl
    | busy => exact Or.inr rfl
  rw [henv]
  exact ⟨hzero, h.held_top hs hphase⟩

/-- An allocation that succeeds, or the exception that there is no room. -/
theorem Rooted.alloc {t : Engine} (h : Rooted s) (hs : s.stack = .evalSource context envRoot phase :: rest)
    (hbusy : ¬ Idle s.stack) {extra : Nat} {fields : List Ptr}
    (hstep : interpret envRoot phase (.alloc extra fields) s = .ok t) : Rooted t := by
  obtain ⟨hmoved, -⟩ := memoryAllocObject_moved h.chained h.unmoved extra fields
  rw [interpret] at hstep
  split at hstep
  next p s' halloc =>
    rw [halloc] at hmoved
    cases hstep
    exact h.moved hmoved hbusy
  next s' halloc =>
    rw [halloc] at hmoved
    exact (h.moved hmoved hbusy).raise (hmoved.same.stack.trans hs) hstep

/-- What leaves the memory and the roots alone. -/
theorem Rooted.same {t : Engine} (h : Rooted s) (hfits : t.Fits) (hstack : t.stack = s.stack)
    (hinit : t.initialized = s.initialized) (henv : t.environment = s.environment)
    (htag : t.rootEnv = s.rootEnv) (hroots : t.roots = s.roots) (hhalf : t.half = s.half)
    (hspace : t.space = s.space) (hcollections : t.collections = s.collections) : Rooted t := by
  refine h.change hfits hstack hinit henv htag (hroots ▸ h.chained) (hspace ▸ h.unmoved) ?_ ?_
    (fun _ => hcollections) (fun _ _ _ => congrArg List.length hroots)
  · intro k _ p hp hdenotes
    rw [hroots, hhalf, hspace]
    exact ⟨p, hp, hdenotes⟩
  · intro hzero
    rw [hhalf, hspace]
    exact ⟨hcollections.symm.trans hzero, fun _ _ hp => hp⟩

/-- **What the interpreter does.** -/
theorem Rooted.interpret {t : Engine} (h : Rooted s) (hs : s.stack = .evalSource context envRoot phase :: rest)
    {e : Event} (hstep : interpret envRoot phase e s = .ok t) (hcall : e = .callHost → phase = .busy)
    (hphase : phase = .rooting ∨ phase = .busy) : Rooted t := by
  have hfits : t.Fits := (interpret_control h.fits hs hstep hcall).fits h.fits
  obtain ⟨hlen, hown⟩ := h.own hs
  have hbusy : ¬ Idle s.stack := by
    rw [hs]
    rcases hphase with rfl | rfl <;> exact not_false
  have hnotFirst : ∀ context' envRoot', s.stack ≠ [.evalSource context' envRoot' .starting] := by
    intro context' envRoot' heq
    rw [hs] at heq
    rcases hphase with rfl | rfl <;> cases heq
  -- the roots of the evaluations stay where they are
  have hroots : ∀ {nodes : List Node}, Chained nodes →
      (∀ k ∈ envRoots s.stack, carAt nodes k = carAt s.roots k) → { s with roots := nodes }.Fits →
      Rooted { s with roots := nodes } := by
    intro nodes hchained hsame hfits
    refine h.change hfits rfl rfl rfl rfl hchained h.unmoved ?_ (fun hzero => ⟨hzero, fun _ _ hp => hp⟩)
      (fun _ => rfl) (fun _ _ hfirst => absurd hfirst (hnotFirst _ _))
    intro k hk p hp hdenotes
    exact ⟨p, (hsame k hk).trans hp, hdenotes⟩
  cases e with
  | alloc extra fields => exact h.alloc hs hbusy hstep
  | trace p =>
      cases hstep
      refine hroots ⟨rfl, h.chained⟩ (fun k hk => ?_) hfits
      have hle := hown k hk
      rw [carAt, if_neg (by omega)]
  | untrace =>
      rw [Lisp.interpret] at hstep
      split at hstep
      next hlt =>
        cases hstep
        have htail : s.roots.tail = s.roots.drop (s.roots.length - (s.roots.length - 1)) := by
          have hone : s.roots.length - (s.roots.length - 1) = 1 := by omega
          rw [hone, List.drop_one]
        rw [htail] at hfits ⊢
        refine hroots (h.chained.drop _) (fun k hk => ?_) hfits
        have hle := hown k hk
        exact carAt_drop s.roots (by omega) (Nat.sub_le _ _)
      next => cases hstep
  | assign root p =>
      rw [Lisp.interpret] at hstep
      split at hstep
      next hlt =>
        cases hstep
        refine hroots (h.chained.setCar p root) (fun k hk => ?_) hfits
        have hle := hown k hk
        rw [carAt_setCar, if_neg (by omega)]
      next => cases hstep
  | store offset fields =>
      cases hstep
      have hkeep : ∀ p a, Denotes s.half s.space p a →
          Denotes s.half (changeAt (fun o => { o with fields }) s.space offset) p a :=
        fun p a hp => hp.changeAt (f := fun o => { o with fields }) (fun _ => rfl) (fun _ => rfl) offset
      have hunmoved : Unmoved (changeAt (fun o => { o with fields }) s.space offset) :=
        h.unmoved.changeAt (f := fun o => { o with fields }) (fun _ => rfl) offset
      refine h.change hfits rfl rfl rfl rfl h.chained hunmoved ?_
        (fun hzero => ⟨hzero, hkeep⟩) (fun _ => rfl) (fun _ _ _ => rfl)
      intro k _ p hp hdenotes
      exact ⟨p, hp, hkeep p _ hdenotes⟩
  | intern p =>
      cases hstep
      exact h.same hfits rfl rfl rfl rfl rfl rfl rfl rfl
  | print n =>
      cases hstep
      exact h.same hfits rfl rfl rfl rfl rfl rfl rfl rfl
  | fboundp =>
      cases hstep
      exact h
  | exception => exact h.raise hs hstep
  | callHost =>
      have hphase := hcall rfl
      rw [hphase] at hs
      cases hstep
      have hinit : s.initialized = true := by
        by_contra hnot
        rcases h.unsettled (Bool.not_eq_true _ ▸ hnot) with hnil | ⟨frame, hone, hunsettled⟩
        · rw [hs] at hnil
          cases hnil
        · rw [hs] at hone
          rw [← (List.cons.inj hone).1] at hunsettled
          exact hunsettled
      refine ⟨hfits, h.chained, h.unmoved, h.held, h.current, fun _ hidle => absurd hidle not_false, ?_, ?_,
        fun _ _ hfirst => by cases hfirst⟩
      · intro hi frame hframe
        rcases List.mem_cons.mp hframe with rfl | hframe
        · exact not_false
        · exact h.settled hi frame hframe
      · intro hnot
        exact absurd (hnot.symm.trans hinit) Bool.false_ne_true
  | _ => cases hstep

/-- The evaluation that initializes the engine is alone. -/
theorem Rooted.alone (h : Rooted s) {frame : Frame} (hs : s.stack = frame :: rest) (hun : Unsettled frame) :
    s.initialized = false ∧ rest = [] := by
  have hinit : s.initialized = false := by
    by_contra hi
    rw [Bool.not_eq_false] at hi
    exact h.settled hi frame (hs ▸ List.mem_cons_self) hun
  rcases h.unsettled hinit with hnil | ⟨frame', hone, -⟩
  · rw [hs] at hnil
    cases hnil
  · rw [hs] at hone
    exact ⟨hinit, (List.cons.inj hone).2⟩

/-- `newRootEnv` makes its environment. -/
theorem Rooted.newEnv {t : Engine} (h : Rooted s) (hs : s.stack = .evalSource context envRoot .starting :: rest)
    (hstep : s.newEnv = .ok t) : Rooted t := by
  have hfits : t.Fits := (newEnv_control h.fits hs hstep).fits h.fits
  obtain ⟨hinit, rfl⟩ := h.alone hs trivial
  have hlen := h.first context envRoot hs
  have hbusy : ¬ Idle s.stack := by
    rw [hs]
    exact not_false
  obtain ⟨hmoved, hnew⟩ := memoryAllocObject_moved h.chained h.unmoved 0 [nilPtr, nilPtr, nilPtr]
  rw [Engine.newEnv] at hstep
  split at hstep
  next p s' halloc =>
    rw [halloc] at hmoved hnew
    have hstack : s'.stack = [.evalSource context envRoot .starting] := hmoved.same.stack.trans hs
    have hinit' : s'.initialized = false := hmoved.same.initialized.trans hinit
    have hdepth : s'.roots.length = s.roots.length := hmoved.same.depth
    have hphase : t = { s' with
        roots := ⟨p, s'.roots.length⟩ :: s'.roots
        rootEnv := s.nextTag
        stack := [.evalSource context envRoot .rooting] } := by
      rw [← Except.ok.inj hstep]
      unfold setPhase
      dsimp only
      rw [hstack]
    rw [hphase] at hfits ⊢
    have hnot : ¬ s'.initialized = true := by
      rw [hinit']
      exact Bool.false_ne_true
    refine ⟨hfits, ⟨rfl, hmoved.chained⟩, hmoved.unmoved, ?_, fun hi => absurd hi hnot, fun hi => absurd hi hnot,
      fun hi => absurd hi hnot, fun _ => Or.inr ⟨_, rfl, trivial⟩, fun _ _ hfirst => by cases hfirst⟩
    intro k hk
    rw [List.mem_singleton.mp hk]
    refine ⟨p, ?_, hnew p rfl⟩
    rw [carAt, if_pos (by omega)]
  next s' halloc =>
    rw [halloc] at hmoved
    exact (h.moved hmoved hbusy).raise (hmoved.same.stack.trans hs) hstep

/-- **`newRootEnv` returns.** -/
theorem Rooted.rootEnvironment (h : Rooted s) (hs : s.stack = .evalSource context envRoot .rooting :: rest)
    (hfits : (s.rootEnvironment envRoot).Fits) : Rooted (s.rootEnvironment envRoot) := by
  obtain ⟨hinit, rfl⟩ := h.alone hs trivial
  have hlen : envRoot + 1 ≤ s.roots.length := (h.own hs).1
  have hpos : 0 < envRoot := by
    have hnested := h.fits
    unfold Engine.Fits at hnested
    rw [hs] at hnested
    have hbase := hnested.2.2.1
    omega
  obtain ⟨p, hp, hdenotes⟩ := h.held (envRoot + 1) (hs ▸ List.mem_cons_self)
  have hroot : s.rootEnvironment envRoot = { s with
      roots := (setCar p s.roots envRoot).drop ((setCar p s.roots envRoot).length - envRoot)
      initialized := true
      environment := p
      collections := 0
      stack := [.evalSource context envRoot .between] } := by
    unfold Engine.rootEnvironment setPhase
    rw [hp]
    dsimp only [dropRoots, setEnvironment]
    rw [hs]
    rfl
  rw [hroot] at hfits ⊢
  refine ⟨hfits, (h.chained.setCar p envRoot).drop _, h.unmoved, ?_, fun _ _ => hdenotes, fun _ _ => rfl, ?_,
    nofun, nofun⟩
  · intro k hk
    rw [List.mem_singleton.mp hk]
    refine ⟨p, ?_, hdenotes⟩
    have hlen' : envRoot ≤ (setCar p s.roots envRoot).length := by
      rw [setCar_length]
      omega
    have hle : envRoot ≤ s.roots.length := by omega
    obtain ⟨q, hq⟩ := carAt_isSome hpos hle
    rw [carAt_drop _ (Nat.le_refl _) hlen', carAt_setCar, if_pos rfl, hq]
    rfl
  · intro _ frame hframe
    rw [List.mem_singleton.mp hframe]
    exact not_false

end Top

/-- The pointer is assigned. -/
theorem Rooted.assigned {s : Engine} (h : Rooted s) {p : Ptr} (hp : Denotes s.half s.space p s.rootEnv) :
    Rooted (s.setEnvironment p) :=
  ⟨h.fits, h.chained, h.unmoved, h.held, fun _ _ => hp, fun _ _ => rfl, h.settled, h.unsettled, h.first⟩

/-- An expression begins or has been evaluated. -/
theorem Rooted.phase {s : Engine} (h : Rooted s) {context envRoot : Nat} {phase phase' : Phase}
    {rest : List Frame} (hs : s.stack = .evalSource context envRoot phase :: rest)
    (hphase : phase = .between ∨ phase = .busy) (hphase' : phase' = .between ∨ phase' = .busy)
    (hzero : phase' = .between → s.collections = 0) (hfits : (s.setPhase phase').Fits) :
    Rooted (s.setPhase phase') := by
  have hset : s.setPhase phase' = { s with stack := .evalSource context envRoot phase' :: rest } := by
    unfold setPhase
    rw [hs]
  rw [hset] at hfits ⊢
  have hroots : envRoots (.evalSource context envRoot phase' :: rest) = envRoots s.stack := by
    rw [hs]
    rcases hphase with rfl | rfl <;> rcases hphase' with rfl | rfl <;> rfl
  have hsettled : ¬ Unsettled (.evalSource context envRoot phase') := by
    rcases hphase' with rfl | rfl <;> exact not_false
  refine ⟨hfits, h.chained, h.unmoved, ?_, h.current, ?_, ?_, ?_, ?_⟩
  · intro k hk
    exact h.held k (hroots ▸ hk)
  · intro _ hidle
    rcases hphase' with rfl | rfl
    · exact hzero rfl
    · exact absurd hidle not_false
  · intro hi frame hframe
    rcases List.mem_cons.mp hframe with rfl | hframe
    · exact hsettled
    · exact h.settled hi frame (by rw [hs]; exact List.mem_cons_of_mem _ hframe)
  · intro hnot
    rcases h.unsettled hnot with hnil | ⟨frame, hone, hunsettled⟩
    · rw [hs] at hnil
      cases hnil
    · rw [hs] at hone
      rw [← (List.cons.inj hone).1] at hunsettled
      rcases hphase with rfl | rfl <;> exact absurd hunsettled not_false
  · intro context' envRoot' hstack
    have hframe : Frame.evalSource context envRoot phase' = .evalSource context' envRoot' .starting :=
      (List.cons.inj hstack).1
    rw [hframe] at hsettled
    exact absurd trivial hsettled

/-- **An evaluation starts.** -/
theorem Rooted.evalSource {s : Engine} (h : Rooted s)
    (hs : s.stack = [] ∨ ∃ previous rest, s.stack = .callHost previous :: rest) {data capacity : Nat}
    (hmeets : Meets (.evalSource data capacity) s) (hfits : (s.evalSource data capacity).Fits) :
    Rooted (s.evalSource data capacity) := by
  unfold Engine.evalSource at hfits ⊢
  split at hfits
  next hcapacity =>
    rw [if_pos hcapacity]
    exact h
  next hcapacity =>
    rw [if_neg hcapacity]
    split at hfits
    next hcount =>
      rw [if_pos hcount]
      exact h
    next hcount =>
      rw [if_neg hcount]
      have hbase : s.hostRoots = s.roots.length := by
        have hnested := h.fits
        unfold Engine.Fits at hnested
        rcases hs with hs | ⟨previous, rest, hs⟩
        · rw [hs] at hnested
          exact hnested.2.1.trans hnested.1.symm
        · rw [hs] at hnested
          exact hnested.1
      have hold : ∀ {p : Ptr}, ∀ k ∈ envRoots s.stack,
          ∃ p', carAt (⟨p, s.hostRoots⟩ :: s.roots) k = some p' ∧ Denotes s.half s.space p' s.rootEnv := by
        intro p k hk
        obtain ⟨p', hp', hdenotes⟩ := h.held k hk
        have hle := carAt_le hp'
        exact ⟨p', by rw [carAt, if_neg (by omega), hp'], hdenotes⟩
      cases hinit : s.initialized with
      | true =>
          rw [hinit] at hfits
          -- a nested evaluation reads the pointer; the outermost finds it assigned
          have hzero : s.collections = 0 := by
            by_cases hnil : s.stack = []
            · exact h.idle hinit (hnil ▸ trivial)
            · exact hmeets ⟨hnil, hcapacity, hcount⟩
          have hcurrent := h.current hinit hzero
          refine ⟨hfits, ⟨hbase, h.chained⟩, h.unmoved, ?_, fun _ _ => hcurrent, fun _ _ => hzero, ?_, nofun, nofun⟩
          · intro k hk
            rcases List.mem_cons.mp hk with rfl | hk
            · exact ⟨s.environment, by rw [carAt, if_pos rfl]; rfl, hcurrent⟩
            · exact hold k hk
          · intro _ frame hframe
            rcases List.mem_cons.mp hframe with rfl | hframe
            · exact not_false
            · exact h.settled hinit frame hframe
      | false =>
          rw [hinit] at hfits
          have hnil : s.stack = [] := by
            rcases h.unsettled hinit with hnil | ⟨frame, hone, hunsettled⟩
            · exact hnil
            · rcases hs with hs | ⟨previous, rest, hs⟩
              · exact hs
              · rw [hs] at hone
                rw [← (List.cons.inj hone).1] at hunsettled
                exact absurd hunsettled not_false
          refine ⟨hfits, ⟨hbase, h.chained⟩, h.unmoved, fun k hk => hold k hk, nofun, nofun, nofun, ?_, ?_⟩
          · intro _
            exact Or.inr ⟨_, congrArg (List.cons _) hnil, trivial⟩
          · intro context envRoot hstack
            have hframe := (List.cons.inj hstack).1
            cases hframe
            rfl

/-- **A step keeps the invariant.** -/
theorem step_rooted {s t : Engine} {e : Event} (h : Rooted s) (hmeets : Meets e s)
    (hstep : step e s = .ok t) : Rooted t := by
  have hfits : t.Fits := step_fits h.fits hstep
  unfold step at hstep
  split at hstep
  next hs =>
    split at hstep
    next data capacity =>
      cases hstep
      exact h.evalSource (Or.inl hs) hmeets hfits
    next => cases hstep
  next previous rest hs =>
    split at hstep
    next data capacity =>
      cases hstep
      exact h.evalSource (Or.inr ⟨previous, rest, hs⟩) hmeets hfits
    next =>
      -- below a host function stands the evaluation that called it
      cases hstep
      have hnested := h.fits
      unfold Engine.Fits at hnested
      rw [hs] at hnested
      obtain ⟨-, ⟨context, envRoot, rest', hbelow⟩, -⟩ := hnested
      refine ⟨hfits, h.chained, h.unmoved, ?_, h.current, ?_, ?_, ?_, ?_⟩
      · intro k hk
        exact h.held k (by rw [hs]; exact hk)
      · intro _ hidle
        rw [hbelow] at hidle
        exact absurd hidle not_false
      · intro hi frame hframe
        exact h.settled hi frame (by rw [hs]; exact List.mem_cons_of_mem _ hframe)
      · intro hnot
        rcases h.unsettled hnot with hnil | ⟨frame, hone, hunsettled⟩
        · rw [hs] at hnil
          cases hnil
        · rw [hs] at hone
          rw [← (List.cons.inj hone).1] at hunsettled
          exact absurd hunsettled not_false
      · intro context' envRoot' hrest
        rw [hbelow] at hrest
        cases hrest
    next => cases hstep
  next context envRoot rest hs =>
    have hbusy : ¬ Idle s.stack := by
      rw [hs]
      exact not_false
    split at hstep
    next => exact h.newEnv hs hstep
    next extra fields => exact h.alloc hs hbusy hstep
    next p =>
      cases hstep
      exact h.same hfits rfl rfl rfl rfl rfl rfl rfl rfl
    next => cases hstep
  next context envRoot rest hs =>
    split at hstep
    next =>
      cases hstep
      exact h.rootEnvironment hs hfits
    next => cases hstep
    next => cases hstep
    next hcall hfboundp hroot => exact h.interpret hs hstep (fun heq => absurd heq (by assumption)) (Or.inl rfl)
  next context envRoot rest hs =>
    split at hstep
    next =>
      cases hstep
      exact h.phase hs (Or.inl rfl) (Or.inr rfl) nofun hfits
    next =>
      cases hstep
      obtain ⟨hleft, henv, hcollections⟩ := leave_left hs
      have hidle : Idle s.stack := by
        rw [hs]
        exact trivial
      refine h.left hs hleft fun hi => ?_
      have hzero := h.idle hi hidle
      rw [henv, hcollections]
      exact ⟨hzero, h.current hi hzero⟩
    next => exact h.raise hs hstep
    next n =>
      cases hstep
      exact h.same hfits rfl rfl rfl rfl rfl rfl rfl rfl
    next => cases hstep
  next context envRoot rest hs =>
    split at hstep
    next =>
      cases hstep
      have hassigned := h.assigned (h.held_top hs (Or.inr rfl))
      exact hassigned.phase hs (Or.inr rfl) (Or.inl rfl) (fun _ => rfl) hfits
    next => exact h.interpret hs hstep (fun _ => rfl) (Or.inr rfl)

/-! ## Runs -/

theorem run_rooted {s : Engine} {es : List Event} (hrun : Machine.Run step Meets Engine.init es s) : Rooted s :=
  hrun.preserves Rooted (fun _ _ _ h hmeets hstep => step_rooted h hmeets hstep) init_rooted

/-- Whoever reads the pointer does so in an engine that is initialized. -/
theorem Rooted.initialized_of_reads {s t : Engine} (h : Rooted s) {e : Event} (hreads : Reads e s)
    (hstep : step e s = .ok t) : s.initialized = true := by
  by_contra hnot
  rw [Bool.not_eq_true] at hnot
  have halone : ∀ {frame : Frame} {rest : List Frame}, s.stack = frame :: rest → Unsettled frame := by
    intro frame rest hs
    rcases h.unsettled hnot with hnil | ⟨frame', hone, hunsettled⟩
    · rw [hs] at hnil
      cases hnil
    · rw [hs] at hone
      rw [(List.cons.inj hone).1]
      exact hunsettled
  cases e with
  | fboundp =>
      unfold step at hstep
      split at hstep
      case h_6 context envRoot rest hs => exact halone hs
      all_goals cases hstep
  | evalSource data capacity =>
      unfold step at hstep
      split at hstep
      case h_1 hs => exact hreads.1 hs
      case h_2 previous rest hs => exact halone hs
      all_goals cases hstep
  | _ => exact hreads

instance (e : Event) (s : Engine) : Decidable (Reads e s) := by
  cases e <;> unfold Reads <;> infer_instance

instance (e : Event) (s : Engine) : Decidable (Meets e s) := inferInstanceAs (Decidable (_ → _))

instance (s : Engine) (e : Event) (u : Engine) : Decidable (Inside s e u) := inferInstanceAs (Decidable (_ < _))

end Lisp
