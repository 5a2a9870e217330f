import Zzdwm.Lisp.Engine

/-!
# Nested evaluations put the globals back

An evaluation saves the output buffer and the exception handler in its context, and a
call of a host function saves the host roots in its frame.  `Nested` says that what the
frames on the stack have saved are the globals of the frames below; every step keeps it.

* `SameControl` — what an allocation leaves alone;
* `Nested`, `step_nested` — the invariant of the stack;
* `Control` — what a step does to the stack and to the globals;
* `returned_restores` — **after a call the globals are what they were before it**.
-/

namespace Lisp

open Cheney Engine

/-! ## Allocations -/

theorem moveRoots_length (nodes : List Node) :
    ∀ (root : Nat) (c : Collector Nat), (moveRoots nodes root c).1.length = nodes.length := by
  induction nodes with
  | nil => exact fun root c => rfl
  | cons node nodes ih =>
      intro root c
      rw [moveRoots]
      split
      · exact congrArg (· + 1) (ih _ _)
      · exact congrArg (· + 1) (ih _ _)

/-- Two states of one evaluation, as far as calls are concerned. -/
structure SameControl (s t : Engine) : Prop where
  stack : t.stack = s.stack
  globals : t.toGlobals = s.toGlobals
  contexts : t.evalContexts = s.evalContexts
  depth : t.roots.length = s.roots.length
  environment : t.environment = s.environment
  initialized : t.initialized = s.initialized
  rootEnv : t.rootEnv = s.rootEnv

theorem SameControl.refl (s : Engine) : SameControl s s := ⟨rfl, rfl, rfl, rfl, rfl, rfl, rfl⟩

theorem SameControl.trans {s t u : Engine} (h : SameControl s t) (h' : SameControl t u) : SameControl s u :=
  ⟨h'.stack.trans h.stack, h'.globals.trans h.globals, h'.contexts.trans h.contexts, h'.depth.trans h.depth,
    h'.environment.trans h.environment, h'.initialized.trans h.initialized, h'.rootEnv.trans h.rootEnv⟩

theorem gc_same (s : Engine) : SameControl s s.gc :=
  ⟨rfl, rfl, rfl, moveRoots_length _ _ _, rfl, rfl, rfl⟩

theorem memoryAllocObject_same (extra : Nat) (fields : List Ptr) (s : Engine) :
    SameControl s (s.memoryAllocObject extra fields).2 := by
  rw [memoryAllocObject]
  split
  · split
    · exact gc_same s
    · exact ⟨rfl, rfl, rfl, moveRoots_length _ _ _, rfl, rfl, rfl⟩
  · exact ⟨rfl, rfl, rfl, rfl, rfl, rfl, rfl⟩

/-! ## The invariant of the stack -/

/-- The stack, the number of roots and the globals fit: each frame has saved the globals
of the frames below, and its roots lie above theirs. -/
def Nested (contexts : Nat → EvalContext) : List Frame → Nat → Globals → Prop
  | [], depth, g =>
      depth = 0 ∧ g.hostRoots = 0 ∧ g.evalContextCount = 0 ∧ g.exceptionEnv = none
  | .evalSource context envRoot phase :: rest, depth, g =>
      g.evalContextCount = context + 1 ∧ g.exceptionEnv = some context ∧
        envRoot = g.hostRoots + 1 ∧ ownRoots envRoot phase ≤ depth ∧
        Nested contexts rest g.hostRoots (restored contexts (.evalSource context envRoot phase) g)
  | .callHost previousHostRoots :: rest, depth, g =>
      g.hostRoots = depth ∧ (∃ context envRoot rest', rest = .evalSource context envRoot .busy :: rest') ∧
        Nested contexts rest depth (restored contexts (.callHost previousHostRoots) g)

/-- The state fits. -/
def Engine.Fits (s : Engine) : Prop := Nested s.evalContexts s.stack s.roots.length s.toGlobals

/-- The contexts above the count are not looked at. -/
theorem Nested.congr {contexts contexts' : Nat → EvalContext} {stack : List Frame} :
    ∀ {depth : Nat} {g : Globals}, Nested contexts stack depth g →
      (∀ k, k < g.evalContextCount → contexts' k = contexts k) → Nested contexts' stack depth g := by
  induction stack with
  | nil => exact fun {depth g} h _ => h
  | cons frame stack ih =>
      intro depth g h hsame
      cases frame with
      | evalSource context envRoot phase =>
          obtain ⟨hcount, hhandler, hroot, hdepth, hrest⟩ := h
          have hcontext : contexts' context = contexts context := hsame context (by omega)
          have hrestored : restored contexts' (.evalSource context envRoot phase) g =
              restored contexts (.evalSource context envRoot phase) g := by
            rw [restored, restored, hcontext]
          refine ⟨hcount, hhandler, hroot, hdepth, ?_⟩
          rw [hrestored]
          refine ih hrest fun k hk => hsame k ?_
          have hless : (restored contexts (.evalSource context envRoot phase) g).evalContextCount =
              g.evalContextCount - 1 := rfl
          omega
      | callHost previousHostRoots =>
          obtain ⟨hdepth, hbelow, hrest⟩ := h
          exact ⟨hdepth, hbelow, ih hrest hsame⟩

/-- The output buffer of the evaluation on top may change, and its own roots may come and
go. -/
theorem Nested.top {contexts : Nat → EvalContext} {context envRoot : Nat} {phase : Phase}
    {rest : List Frame} {depth : Nat} {g : Globals}
    (h : Nested contexts (.evalSource context envRoot phase :: rest) depth g) (buffer : Buffer)
    {phase' : Phase} {depth' : Nat} (hdepth : ownRoots envRoot phase' ≤ depth') :
    Nested contexts (.evalSource context envRoot phase' :: rest) depth' { g with outputBuffer := buffer } := by
  obtain ⟨hcount, hhandler, hroot, -, hrest⟩ := h
  exact ⟨hcount, hhandler, hroot, hdepth, hrest⟩

theorem Nested.returns {contexts : Nat → EvalContext} {context envRoot : Nat} {phase : Phase}
    {rest : List Frame} {depth : Nat} {g : Globals}
    (h : Nested contexts (.evalSource context envRoot phase :: rest) depth g) :
    envRoot - 1 ≤ depth ∧
      Nested contexts rest (envRoot - 1) (restored contexts (.evalSource context envRoot phase) g) := by
  obtain ⟨-, -, hroot, hdepth, hrest⟩ := h
  have hown : envRoot ≤ ownRoots envRoot phase := by
    cases phase <;> simp [ownRoots]
  have hbase : envRoot - 1 = g.hostRoots := by omega
  rw [hbase]
  exact ⟨by omega, hrest⟩

/-! ## What a step does to the stack -/

/-- What a step does to the stack and to the globals. -/
inductive Control (s t : Engine) : Prop
  | stays {context envRoot : Nat} {phase phase' : Phase} {rest : List Frame}
      (hs : s.stack = .evalSource context envRoot phase :: rest)
      (ht : t.stack = .evalSource context envRoot phase' :: rest)
      (hcontexts : t.evalContexts = s.evalContexts) (buffer : Buffer)
      (hglobals : t.toGlobals = { s.toGlobals with outputBuffer := buffer })
      (hdepth : ownRoots envRoot phase' ≤ t.roots.length)
  | refused (h : t = s)
  | evaluates (data capacity : Nat) (hs : s.stack = [] ∨ ∃ previous rest, s.stack = .callHost previous :: rest)
      (ht : t.stack = .evalSource s.evalContextCount (s.roots.length + 1)
        (if s.initialized then .between else .starting) :: s.stack)
      (hcontexts : t.evalContexts = Function.update s.evalContexts s.evalContextCount
        ⟨s.evalContextCount, s.outputBuffer, s.exceptionEnv⟩)
      (hglobals : t.toGlobals = ⟨⟨data, capacity, 0⟩, some s.evalContextCount, s.evalContextCount + 1, s.hostRoots⟩)
      (hdepth : t.roots.length = s.roots.length + 1)
  | calls {context envRoot : Nat} {rest : List Frame} (hs : s.stack = .evalSource context envRoot .busy :: rest)
      (ht : t.stack = .callHost s.hostRoots :: s.stack) (hcontexts : t.evalContexts = s.evalContexts)
      (hglobals : t.toGlobals = { s.toGlobals with hostRoots := s.roots.length })
      (hdepth : t.roots.length = s.roots.length)
  | returns {context envRoot : Nat} {phase : Phase} {rest : List Frame}
      (hs : s.stack = .evalSource context envRoot phase :: rest) (ht : t.stack = rest)
      (hcontexts : t.evalContexts = s.evalContexts)
      (hglobals : t.toGlobals = restored s.evalContexts (.evalSource context envRoot phase) s.toGlobals)
      (hdepth : t.roots.length = s.roots.length - (s.roots.length - (envRoot - 1)))
  | hostReturns {previousHostRoots : Nat} {rest : List Frame}
      (hs : s.stack = .callHost previousHostRoots :: rest) (ht : t.stack = rest)
      (hcontexts : t.evalContexts = s.evalContexts)
      (hglobals : t.toGlobals = restored s.evalContexts (.callHost previousHostRoots) s.toGlobals)
      (hdepth : t.roots.length = s.roots.length)

/-- **A step keeps the fit.** -/
theorem Control.fits {s t : Engine} (h : Control s t) (hfits : s.Fits) : t.Fits := by
  unfold Engine.Fits at hfits ⊢
  cases h with
  | stays hs ht hcontexts buffer hglobals hdepth =>
      rw [ht, hcontexts, hglobals]
      rw [hs] at hfits
      exact hfits.top buffer hdepth
  | refused h =>
      rw [h]
      exact hfits
  | evaluates data capacity hs ht hcontexts hglobals hdepth =>
      have hbase : s.hostRoots = s.roots.length := by
        rcases hs with hs | ⟨previous, rest, hs⟩
        · rw [hs] at hfits
          exact hfits.2.1.trans hfits.1.symm
        · rw [hs] at hfits
          exact hfits.1
      have hcongr : Nested t.evalContexts s.stack s.roots.length s.toGlobals := by
        refine hfits.congr fun k hk => ?_
        rw [hcontexts]
        exact Function.update_of_ne (Nat.ne_of_lt hk) _ _
      have hnew : t.evalContexts s.evalContextCount =
          ⟨s.evalContextCount, s.outputBuffer, s.exceptionEnv⟩ := by
        rw [hcontexts, Function.update_self]
      have hown : ownRoots (s.roots.length + 1) (if s.initialized then .between else .starting) ≤
          t.roots.length := by
        rw [hdepth]
        split <;> exact Nat.le_refl _
      have hrestored : restored t.evalContexts (.evalSource s.evalContextCount (s.roots.length + 1)
          (if s.initialized then .between else .starting)) t.toGlobals = s.toGlobals := by
        rw [restored, hnew, hglobals]
        rfl
      rw [ht]
      refine ⟨?_, ?_, ?_, hown, ?_⟩
      · rw [hglobals]
      · rw [hglobals]
      · rw [hglobals, hbase]
      · rw [hrestored, hglobals]
        show Nested t.evalContexts s.stack s.hostRoots s.toGlobals
        rw [hbase]
        exact hcongr
  | calls hs ht hcontexts hglobals hdepth =>
      rw [ht, hcontexts, hglobals, hdepth]
      exact ⟨rfl, ⟨_, _, _, hs⟩, hfits⟩
  | returns hs ht hcontexts hglobals hdepth =>
      rw [hs] at hfits
      obtain ⟨hbase, hrest⟩ := hfits.returns
      rw [ht, hcontexts, hglobals, hdepth, Nat.sub_sub_self hbase]
      exact hrest
  | hostReturns hs ht hcontexts hglobals hdepth =>
      rw [hs] at hfits
      rw [ht, hcontexts, hglobals, hdepth]
      exact hfits.2.2

/-! ## Every step is one of these -/

/-- An evaluation has returned. -/
structure Left (s t : Engine) (context envRoot : Nat) (phase : Phase) (rest : List Frame) : Prop where
  stack : t.stack = rest
  contexts : t.evalContexts = s.evalContexts
  globals : t.toGlobals = restored s.evalContexts (.evalSource context envRoot phase) s.toGlobals
  roots : t.roots = s.roots.drop (s.roots.length - (envRoot - 1))
  half : t.half = s.half
  space : t.space = s.space
  initialized : t.initialized = s.initialized
  rootEnv : t.rootEnv = s.rootEnv

section Leaving

variable {s : Engine} {context envRoot : Nat} {phase : Phase} {rest : List Frame}

theorem leave_left (hs : s.stack = .evalSource context envRoot phase :: rest) :
    Left s s.leave context envRoot phase rest ∧ s.leave.environment = s.environment ∧
      s.leave.collections = s.collections := by
  unfold leave
  rw [hs]
  exact ⟨⟨rfl, rfl, rfl, rfl, rfl, rfl, rfl, rfl⟩, rfl, rfl⟩

/-- It returns from its handler, too, which assigns the environment pointer. -/
theorem caught_left (hs : s.stack = .evalSource context envRoot phase :: rest) (root : Nat) :
    Left s (s.caught root) context envRoot phase rest ∧
      (s.initialized = true →
        (s.caught root).environment = (carAt s.roots root).getD null ∧ (s.caught root).collections = 0) := by
  unfold caught
  split
  next hinit =>
    have hs' : (s.setEnvironment ((carAt s.roots root).getD null)).stack =
        .evalSource context envRoot phase :: rest := hs
    obtain ⟨⟨hstack, hcontexts, hglobals, hroots, hhalf, hspace, hinit', htag⟩, henv, hcollections⟩ := leave_left hs'
    exact ⟨⟨hstack, hcontexts, hglobals, hroots, hhalf, hspace, hinit', htag⟩, fun _ => ⟨henv, hcollections⟩⟩
  next hinit => exact ⟨(leave_left hs).1, fun h => absurd h hinit⟩

theorem Left.control {t : Engine} (h : Left s t context envRoot phase rest)
    (hs : s.stack = .evalSource context envRoot phase :: rest) : Control s t := by
  refine Control.returns hs h.stack h.contexts h.globals ?_
  rw [h.roots, List.length_drop]

/-- The handler is the evaluation on top. -/
theorem raise_eq (hfits : s.Fits)
    (hs : s.stack = .evalSource context envRoot phase :: rest) : s.raise = .ok (s.caught envRoot) := by
  unfold Engine.Fits at hfits
  rw [hs] at hfits
  have hhandler := hfits.2.1
  have hunwind : unwind context s.stack = .evalSource context envRoot phase :: rest := by
    rw [hs, unwind, if_pos rfl]
  have hsame : { s with stack := .evalSource context envRoot phase :: rest } = s := by
    rw [← hs]
  unfold raise
  rw [hhandler]
  dsimp only
  rw [hunwind]
  dsimp only
  rw [hsame]

end Leaving

theorem SameControl.fits {s t : Engine} (h : SameControl s t) (hfits : s.Fits) : t.Fits := by
  unfold Engine.Fits at hfits ⊢
  rw [h.stack, h.globals, h.contexts, h.depth]
  exact hfits

/-- An exception after an allocation that failed, or without one. -/
theorem raise_control {s s' t : Engine} (hsame : SameControl s s') (hfits : s.Fits) {context envRoot : Nat}
    {phase : Phase} {rest : List Frame} (hs : s.stack = .evalSource context envRoot phase :: rest)
    (h : s'.raise = .ok t) : Control s t := by
  have hs' := hsame.stack.trans hs
  have heq := (raise_eq (hsame.fits hfits) hs').symm.trans h
  have hleft := (caught_left hs' envRoot).1
  rw [Except.ok.inj heq] at hleft
  refine Control.returns hs hleft.stack (hleft.contexts.trans hsame.contexts) ?_ ?_
  · rw [hleft.globals, hsame.contexts, hsame.globals]
  · rw [hleft.roots, List.length_drop, hsame.depth]

theorem setCar_length (p : Ptr) (nodes : List Node) (root : Nat) :
    (setCar p nodes root).length = nodes.length := by
  induction nodes with
  | nil => rfl
  | cons node nodes ih =>
      rw [setCar]
      split
      · rfl
      · exact congrArg (· + 1) ih

/-- **The interpreter leaves the frames below alone.** -/
theorem interpret_control {s t : Engine} (hfits : s.Fits) {context envRoot : Nat} {phase : Phase}
    {rest : List Frame} (hs : s.stack = .evalSource context envRoot phase :: rest) {e : Event}
    (h : interpret envRoot phase e s = .ok t) (hcall : e = .callHost → phase = .busy) : Control s t := by
  have hdepth : ownRoots envRoot phase ≤ s.roots.length := by
    unfold Engine.Fits at hfits
    rw [hs] at hfits
    exact hfits.2.2.2.1
  cases e with
  | alloc extra fields =>
      have hsame := memoryAllocObject_same extra fields s
      rw [interpret] at h
      split at h
      next p s' halloc =>
        rw [halloc] at hsame
        cases h
        exact Control.stays hs (hsame.stack.trans hs) hsame.contexts s.outputBuffer hsame.globals
          (hsame.depth ▸ hdepth)
      next s' halloc =>
        rw [halloc] at hsame
        exact raise_control hsame hfits hs h
  | trace p =>
      cases h
      exact Control.stays hs hs rfl s.outputBuffer rfl (Nat.le_succ_of_le hdepth)
  | untrace =>
      rw [interpret] at h
      split at h
      next hlt =>
        cases h
        refine Control.stays hs hs rfl s.outputBuffer rfl ?_
        rw [List.length_tail]
        omega
      next => cases h
  | assign root p =>
      rw [interpret] at h
      split at h
      next =>
        cases h
        refine Control.stays hs hs rfl s.outputBuffer rfl ?_
        rw [setCar_length]
        exact hdepth
      next => cases h
  | store offset fields =>
      cases h
      exact Control.stays hs hs rfl s.outputBuffer rfl hdepth
  | intern p =>
      cases h
      exact Control.stays hs hs rfl s.outputBuffer rfl hdepth
  | print n =>
      cases h
      exact Control.stays hs hs rfl _ rfl hdepth
  | fboundp =>
      cases h
      exact Control.refused rfl
  | exception => exact raise_control (SameControl.refl s) hfits hs h
  | callHost =>
      rw [hcall rfl] at hs
      cases h
      exact Control.calls hs rfl rfl rfl rfl
  | _ => cases h

theorem evalSource_control {s : Engine} (hs : s.stack = [] ∨ ∃ previous rest, s.stack = .callHost previous :: rest)
    (data capacity : Nat) : Control s (s.evalSource data capacity) := by
  unfold evalSource
  split
  · exact Control.refused rfl
  split
  · exact Control.refused rfl
  · exact Control.evaluates data capacity hs rfl rfl rfl rfl

/-- The evaluation on top goes on to another phase. -/
theorem setPhase_control {s u : Engine} {context envRoot : Nat} {phase phase' : Phase} {rest : List Frame}
    (hs : s.stack = .evalSource context envRoot phase :: rest) (hstack : u.stack = s.stack)
    (hcontexts : u.evalContexts = s.evalContexts) (hglobals : u.toGlobals = s.toGlobals)
    (hdepth : ownRoots envRoot phase' ≤ u.roots.length) : Control s (u.setPhase phase') := by
  unfold setPhase
  rw [hstack.trans hs]
  exact Control.stays hs rfl hcontexts s.outputBuffer hglobals hdepth

/-- `newRootEnv` has made its environment, or there was no room for it. -/
theorem newEnv_control {s t : Engine} (hfits : s.Fits) {context envRoot : Nat} {phase : Phase}
    {rest : List Frame} (hs : s.stack = .evalSource context envRoot phase :: rest) (h : s.newEnv = .ok t) :
    Control s t := by
  have hdepth : ownRoots envRoot phase ≤ s.roots.length := by
    unfold Engine.Fits at hfits
    rw [hs] at hfits
    exact hfits.2.2.2.1
  have hroot : envRoot ≤ ownRoots envRoot phase := by
    cases phase <;> simp [ownRoots]
  have hsame := memoryAllocObject_same 0 [nilPtr, nilPtr, nilPtr] s
  rw [newEnv] at h
  split at h
  next p s' halloc =>
    rw [halloc] at hsame
    have hlen : s'.roots.length = s.roots.length := hsame.depth
    have hown : envRoot + 1 ≤ s'.roots.length + 1 := by omega
    cases h
    exact setPhase_control hs hsame.stack hsame.contexts hsame.globals hown
  next s' halloc =>
    rw [halloc] at hsame
    exact raise_control hsame hfits hs h

/-- **What a step does to the stack and to the globals.** -/
theorem step_control {s t : Engine} (hfits : s.Fits) {e : Event} (h : step e s = .ok t) : Control s t := by
  unfold step at h
  split at h
  next hs =>
    split at h
    next data capacity =>
      cases h
      exact evalSource_control (Or.inl hs) data capacity
    next => cases h
  next previous rest hs =>
    split at h
    next data capacity =>
      cases h
      exact evalSource_control (Or.inr ⟨previous, rest, hs⟩) data capacity
    next =>
      cases h
      exact Control.hostReturns hs rfl rfl rfl rfl
    next => cases h
  next context envRoot rest hs =>
    split at h
    next => exact newEnv_control hfits hs h
    next extra fields => exact interpret_control hfits hs h nofun
    next p => exact interpret_control hfits hs h nofun
    next => cases h
  next context envRoot rest hs =>
    have hdepth : envRoot + 1 ≤ s.roots.length := by
      unfold Engine.Fits at hfits
      rw [hs] at hfits
      exact hfits.2.2.2.1
    split at h
    next =>
      cases h
      have hlen : envRoot ≤ ((setCar ((carAt s.roots (envRoot + 1)).getD null) s.roots envRoot).drop
          ((setCar ((carAt s.roots (envRoot + 1)).getD null) s.roots envRoot).length - envRoot)).length := by
        rw [List.length_drop, setCar_length]
        omega
      exact setPhase_control hs rfl rfl rfl hlen
    next => cases h
    next => cases h
    next hroot hcall hfboundp => exact interpret_control hfits hs h fun heq => absurd heq hcall
  next context envRoot rest hs =>
    have hdepth : envRoot ≤ s.roots.length := by
      unfold Engine.Fits at hfits
      rw [hs] at hfits
      exact hfits.2.2.2.1
    split at h
    next =>
      cases h
      exact setPhase_control hs rfl rfl rfl hdepth
    next =>
      cases h
      exact (leave_left hs).1.control hs
    next => exact raise_control (SameControl.refl s) hfits hs h
    next n => exact interpret_control hfits hs h nofun
    next => cases h
  next context envRoot rest hs =>
    have hdepth : envRoot ≤ s.roots.length := by
      unfold Engine.Fits at hfits
      rw [hs] at hfits
      exact hfits.2.2.2.1
    split at h
    next =>
      cases h
      exact setPhase_control hs rfl rfl rfl hdepth
    next => exact interpret_control hfits hs h fun _ => rfl

theorem step_fits {s t : Engine} (hfits : s.Fits) {e : Event} (h : step e s = .ok t) : t.Fits :=
  (step_control hfits h).fits hfits

theorem init_fits : Engine.init.Fits := ⟨rfl, rfl, rfl, rfl⟩

/-! ## Calls return -/

/-- The globals when the functions on top have returned, one after the other. -/
def unwound (contexts : Nat → EvalContext) : List Frame → Globals → Globals
  | [], g => g
  | frame :: frames, g => unwound contexts frames (restored contexts frame g)

/-- The functions on top of a stack will put back these globals. -/
def WillRestore (stack : List Frame) (g : Globals) (s : Engine) : Prop :=
  s.Fits ∧ ∃ frames, s.stack = frames ++ stack ∧ unwound s.evalContexts frames s.toGlobals = g

theorem unwound_congr {contexts contexts' : Nat → EvalContext} {stack : List Frame} (frames : List Frame) :
    ∀ {depth : Nat} {g : Globals}, Nested contexts (frames ++ stack) depth g →
      (∀ k, k < g.evalContextCount → contexts' k = contexts k) →
      unwound contexts' frames g = unwound contexts frames g := by
  induction frames with
  | nil => exact fun {depth g} _ _ => rfl
  | cons frame frames ih =>
      intro depth g h hsame
      rw [unwound, unwound]
      cases frame with
      | evalSource context envRoot phase =>
          obtain ⟨hcount, -, -, -, hrest⟩ := h
          have hcontext : contexts' context = contexts context := hsame context (by omega)
          have hrestored : restored contexts' (.evalSource context envRoot phase) g =
              restored contexts (.evalSource context envRoot phase) g := by
            rw [restored, restored, hcontext]
          rw [hrestored]
          refine ih hrest fun k hk => hsame k ?_
          have hless : (restored contexts (.evalSource context envRoot phase) g).evalContextCount =
              g.evalContextCount - 1 := rfl
          omega
      | callHost previousHostRoots => exact ih h.2.2 hsame

/-- The first frame is one of those above. -/
theorem split_stack {frame : Frame} {rest frames stack : List Frame}
    (hs : frame :: rest = frames ++ stack) (hne : frames ≠ []) :
    ∃ frames', frames = frame :: frames' ∧ rest = frames' ++ stack := by
  cases frames with
  | nil => exact absurd rfl hne
  | cons frame' frames' =>
      obtain ⟨rfl, rfl⟩ := List.cons.inj hs
      exact ⟨frames', rfl, rfl⟩

/-- **The frames above a stack will restore the globals**, whatever happens above it. -/
theorem Control.willRestore {s t : Engine} (h : Control s t) {stack : List Frame} {g : Globals}
    (hw : WillRestore stack g s)
    (hinside : stack.length < s.stack.length ∨ t.stack.length = s.stack.length + 1) : WillRestore stack g t := by
  obtain ⟨hfits, frames, hframes, hg⟩ := hw
  have hne : t.stack.length ≠ s.stack.length + 1 → frames ≠ [] := by
    rintro hlen rfl
    rcases hinside with hlt | heq
    · rw [hframes] at hlt
      exact Nat.lt_irrefl _ hlt
    · exact hlen heq
  refine ⟨h.fits hfits, ?_⟩
  cases h with
  | stays hs ht hcontexts buffer hglobals hdepth =>
      have hlen : t.stack.length ≠ s.stack.length + 1 := by
        rw [hs, ht]
        simp
      obtain ⟨frames', rfl, rfl⟩ := split_stack (hs.symm.trans hframes) (hne hlen)
      refine ⟨_ :: frames', ht, ?_⟩
      rw [hcontexts, hglobals]
      exact hg
  | refused h =>
      rw [h]
      exact ⟨frames, hframes, hg⟩
  | evaluates data capacity hs ht hcontexts hglobals hdepth =>
      refine ⟨_ :: frames, by rw [ht, hframes]; rfl, ?_⟩
      have hnew : t.evalContexts s.evalContextCount =
          ⟨s.evalContextCount, s.outputBuffer, s.exceptionEnv⟩ := by
        rw [hcontexts, Function.update_self]
      rw [unwound, restored, hnew, hglobals]
      show unwound t.evalContexts frames s.toGlobals = g
      unfold Engine.Fits at hfits
      rw [hframes] at hfits
      rw [unwound_congr frames hfits fun k hk => ?_, hg]
      rw [hcontexts]
      exact Function.update_of_ne (Nat.ne_of_lt hk) _ _
  | calls hs ht hcontexts hglobals hdepth =>
      refine ⟨_ :: frames, by rw [ht, hframes]; rfl, ?_⟩
      rw [unwound, restored, hcontexts, hglobals]
      exact hg
  | returns hs ht hcontexts hglobals hdepth =>
      have hlen : t.stack.length ≠ s.stack.length + 1 := by
        rw [hs, ht, List.length_cons]
        omega
      obtain ⟨frames', rfl, rfl⟩ := split_stack (hs.symm.trans hframes) (hne hlen)
      refine ⟨frames', ht, ?_⟩
      rw [hcontexts, hglobals]
      exact hg
  | hostReturns hs ht hcontexts hglobals hdepth =>
      have hlen : t.stack.length ≠ s.stack.length + 1 := by
        rw [hs, ht, List.length_cons]
        omega
      obtain ⟨frames', rfl, rfl⟩ := split_stack (hs.symm.trans hframes) (hne hlen)
      refine ⟨frames', ht, ?_⟩
      rw [hcontexts, hglobals]
      exact hg

/-- An evaluation or a host function is called. -/
def IsCall : Event → Prop
  | .evalSource _ _ | .callHost => True
  | _ => False

/-- A call puts a frame on the stack, or is refused. -/
theorem call_step {s t : Engine} {e : Event} (hcall : IsCall e) (h : step e s = .ok t) :
    t = s ∨ t.stack.length = s.stack.length + 1 := by
  have heval : ∀ data capacity, s.evalSource data capacity = t →
      t = s ∨ t.stack.length = s.stack.length + 1 := by
    rintro data capacity rfl
    unfold evalSource
    split
    · exact Or.inl rfl
    split
    · exact Or.inl rfl
    · exact Or.inr rfl
  cases e with
  | evalSource data capacity =>
      unfold step at h
      split at h
      · exact heval data capacity (Except.ok.inj h)
      · exact heval data capacity (Except.ok.inj h)
      all_goals cases h
  | callHost =>
      unfold step at h
      split at h
      case h_6 =>
        cases h
        exact Or.inr rfl
      all_goals cases h
  | _ => exact absurd hcall not_false

/-- The state inside of a call: the stack is higher than it was before it. -/
def Inside (s : Engine) : Event → Engine → Prop := fun _ u => s.stack.length < u.stack.length

/-- **After a call the globals are what they were before it.** -/
theorem returned_restores {s t u : Engine} {es : List Event} {e : Event} (hfits : s.Fits) (hcall : IsCall e)
    (h : step e s = .ok t) (hrun : Machine.Run step (Inside s) t es u)
    (hreturned : u.stack.length = s.stack.length) : u.stack = s.stack ∧ u.toGlobals = s.toGlobals := by
  have hs : WillRestore s.stack s.toGlobals s := ⟨hfits, [], rfl, rfl⟩
  have ht : WillRestore s.stack s.toGlobals t := by
    rcases call_step hcall h with rfl | hlen
    · exact hs
    · exact (step_control hfits h).willRestore hs (Or.inr hlen)
  have hu : WillRestore s.stack s.toGlobals u :=
    hrun.preserves (WillRestore s.stack s.toGlobals)
      (fun e v w hv hinside hstep => (step_control hv.1 hstep).willRestore hv (Or.inl hinside)) ht
  obtain ⟨-, frames, hframes, hg⟩ := hu
  have hnil : frames = [] := by
    rw [hframes, List.length_append] at hreturned
    exact List.length_eq_zero_iff.mp (by omega)
  rw [hnil] at hframes hg
  exact ⟨hframes, hg⟩

end Lisp
