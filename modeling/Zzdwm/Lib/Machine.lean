/-!
# Machines whose steps may fail

A machine reads one input at a time.  A step either fails with a fault or
yields the next state; a *run* is a finite list of inputs none of which
fails.  A run carries a guard `ok`: a condition on each input and on the state
it meets.  A run of the bare machine is a run under the guard that is always
true, and a theorem about every guarded run is a theorem about every input
sequence whose steps all meet the guard.

* `Run.preserves` — what one guarded step preserves, a guarded run preserves;
* `Run.append` — runs compose;
* `Run.exec` — a run is exactly what the executable `exec` computes;
* `Post` — what holds of every state that a computation can return.
-/

namespace Machine

variable {S E F : Type}

/-- A run of `step` from the first state to the last, every step of it taken
under the guard `ok`. -/
inductive Run (step : E → S → Except F S) (ok : E → S → Prop) :
    S → List E → S → Prop
  | nil (s : S) : Run step ok s [] s
  | cons {s t u : S} {e : E} {es : List E}
      (hok : ok e s) (hstep : step e s = .ok t) (tail : Run step ok t es u) :
      Run step ok s (e :: es) u

/-- The guard of a run that is not restricted at all. -/
def Any : E → S → Prop := fun _ _ => True

/-- Feed a list of inputs to the machine, stopping at the first fault. -/
def exec (step : E → S → Except F S) : List E → S → Except F S
  | [], s => .ok s
  | e :: es, s => step e s >>= exec step es

variable {step : E → S → Except F S} {ok ok' : E → S → Prop}

/-- **Invariant rule.**  A property that every guarded step preserves holds at
the end of every guarded run that starts in it. -/
theorem Run.preserves (P : S → Prop)
    (hP : ∀ e s t, P s → ok e s → step e s = .ok t → P t)
    {s t : S} {es : List E} (hrun : Run step ok s es t) (hs : P s) : P t := by
  induction hrun with
  | nil => exact hs
  | cons hok hstep _ ih => exact ih (hP _ _ _ hs hok hstep)

/-- A weaker guard admits more runs. -/
theorem Run.mono (h : ∀ e s, ok e s → ok' e s)
    {s t : S} {es : List E} (hrun : Run step ok s es t) : Run step ok' s es t := by
  induction hrun with
  | nil s => exact Run.nil s
  | cons hok hstep _ ih => exact Run.cons (h _ _ hok) hstep ih

/-- A run of inputs that meet a guard in every state is a run under it. -/
theorem Run.guarded {s t : S} {es : List E} (hrun : Run step ok s es t)
    (h : ∀ e ∈ es, ∀ s, ok' e s) : Run step ok' s es t := by
  induction hrun with
  | nil s => exact Run.nil s
  | cons _ hstep _ ih =>
      exact Run.cons (h _ List.mem_cons_self _) hstep (ih fun e he => h e (List.mem_cons_of_mem _ he))

/-- Runs compose. -/
theorem Run.append {s t u : S} {es es' : List E}
    (hleft : Run step ok s es t) (hright : Run step ok t es' u) :
    Run step ok s (es ++ es') u := by
  induction hleft with
  | nil => exact hright
  | cons hok hstep _ ih => exact Run.cons hok hstep (ih hright)

/-- An unguarded run is what `exec` computes. -/
theorem Run.exec {s t : S} {es : List E} :
    Run step Any s es t ↔ exec step es s = .ok t := by
  constructor
  · intro hrun
    induction hrun with
    | nil => rfl
    | cons _ hstep _ ih =>
        rw [Machine.exec, hstep]
        exact ih
  · intro h
    induction es generalizing s with
    | nil =>
        cases h
        exact Run.nil _
    | cons e es ih =>
        rw [Machine.exec] at h
        cases hstep : step e s with
        | error f => rw [hstep] at h; cases h
        | ok u =>
            rw [hstep] at h
            exact Run.cons trivial hstep (ih h)

/-- Feed a list of inputs to the machine, with a test before each step and one at the
end. -/
def checks (step : E → S → Except F S) (test : E → S → Bool) (p : S → Bool) : List E → S → Bool
  | [], s => p s
  | e :: es, s =>
      test e s &&
        match step e s with
        | .ok t => checks step test p es t
        | .error _ => false

/-- A test that implies the guard finds a guarded run. -/
theorem exists_of_checks {test : E → S → Bool} {p : S → Bool} (hok : ∀ e s, test e s = true → ok e s)
    {es : List E} {s : S} (h : checks step test p es s = true) :
    ∃ t, Run step ok s es t ∧ p t = true := by
  induction es generalizing s with
  | nil => exact ⟨s, Run.nil s, h⟩
  | cons e es ih =>
      obtain ⟨htest, hrest⟩ := Bool.and_eq_true_iff.mp h
      cases hstep : step e s with
      | error f =>
          rw [hstep] at hrest
          cases hrest
      | ok t =>
          rw [hstep] at hrest
          obtain ⟨u, hrun, hp⟩ := ih hrest
          exact ⟨u, Run.cons (hok e s htest) hstep hrun, hp⟩

/-- Does the computation return a state that passes the test? -/
def passes (x : Except F S) (p : S → Bool) : Bool :=
  match x with
  | .ok s => p s
  | .error _ => false

theorem exists_of_passes {x : Except F S} {p : S → Bool} (h : passes x p = true) :
    ∃ s, x = .ok s ∧ p s = true := by
  cases x with
  | error f => cases h
  | ok s => exact ⟨s, rfl, h⟩

/-- Every state that the computation returns has the property; a fault has
none to show. -/
def Post {A : Type} (x : Except F A) (P : A → Prop) : Prop := ∀ a, x = .ok a → P a

section Post

variable {A B : Type} {P Q : A → Prop} {R : B → Prop}

@[simp] theorem post_ok (a : A) : Post (.ok a : Except F A) P ↔ P a :=
  ⟨fun h => h a rfl, fun h _ hb => Except.ok.inj hb ▸ h⟩

@[simp] theorem post_pure (a : A) : Post (pure a : Except F A) P ↔ P a := post_ok a

@[simp] theorem post_error (f : F) : Post (.error f : Except F A) P :=
  fun _ h => by cases h

/-- The postcondition of a sequence is a postcondition of its first part. -/
theorem Post.bind {x : Except F A} {k : A → Except F B} (hx : Post x P)
    (hk : ∀ a, P a → Post (k a) R) : Post (x >>= k) R := by
  cases x with
  | error f => exact post_error f
  | ok a => exact hk a (hx a rfl)

theorem Post.mono {x : Except F A} (hx : Post x P) (h : ∀ a, P a → Q a) : Post x Q :=
  fun a ha => h a (hx a ha)

/-- Nothing is known about what the first part returns. -/
theorem post_any (x : Except F A) : Post x fun _ => True := fun _ _ => trivial

end Post

end Machine
