import Mathlib

/-!
# A copying collector

Cheney's collector over two half-spaces.  Objects lie one behind the other in the half
in use, and a pointer names a half and an offset.  A collection copies what the roots
reach into the other half and leaves the new address in each object that it has moved.

* `objectAt`, `total` — a half-space as the list of its objects;
* `moveObject`, `moveAll`, `scan` — the collector;
* `Denotes` — a pointer stands for an object, named by its tag;
* `Forwards` — what the collector has moved so far is found in the new half;
* `moveObject_denotes`, `scan_denotes` — **a pointer that is moved stands for the same
  object afterwards**.
-/

namespace Cheney

/-- A pointer to an object outside the two halves, or to the one at an offset in a half. -/
inductive Ptr
  | static (k : Nat)
  | heap (half : Bool) (offset : Nat)
deriving DecidableEq

/-- An object: a tag that moves along with it, its size, its pointers, and where it has
been moved to. -/
structure Obj (A : Type) where
  tag : A
  size : Nat
  size_pos : 0 < size
  fields : List Ptr
  forward : Option Ptr
deriving DecidableEq

variable {A : Type}

/-! ## Half-spaces -/

/-- The offset behind the last object. -/
def total (space : List (Obj A)) : Nat := (space.map Obj.size).sum

/-- The object that starts at an offset. -/
def objectAt : List (Obj A) → Nat → Option (Obj A)
  | [], _ => none
  | o :: space, offset =>
      if offset = 0 then some o
      else if offset < o.size then none
      else objectAt space (offset - o.size)

/-- Change the object that starts at an offset, which keeps its size. -/
def changeAt (f : Obj A → Obj A) : List (Obj A) → Nat → List (Obj A)
  | [], _ => []
  | o :: space, offset =>
      if offset = 0 then f o :: space
      else if offset < o.size then o :: space
      else o :: changeAt f space (offset - o.size)

@[simp] theorem total_nil : total ([] : List (Obj A)) = 0 := rfl

@[simp] theorem total_cons (o : Obj A) (space : List (Obj A)) : total (o :: space) = o.size + total space := rfl

theorem objectAt_append_left {space : List (Obj A)} {offset : Nat} {o : Obj A}
    (h : objectAt space offset = some o) (rest : List (Obj A)) :
    objectAt (space ++ rest) offset = some o := by
  induction space generalizing offset with
  | nil => cases h
  | cons o' space ih =>
      rw [List.cons_append, objectAt]
      rw [objectAt] at h
      split
      next h0 => rwa [if_pos h0] at h
      next h0 =>
        rw [if_neg h0] at h
        split
        next hlt =>
          rw [if_pos hlt] at h
          cases h
        next hge =>
          rw [if_neg hge] at h
          exact ih h

/-- The object that is added last. -/
theorem objectAt_total (space : List (Obj A)) (o : Obj A) :
    objectAt (space ++ [o]) (total space) = some o := by
  induction space with
  | nil => rfl
  | cons o' space ih =>
      have hpos := o'.size_pos
      have hrest : o'.size + total space - o'.size = total space := by omega
      rw [List.cons_append, objectAt, total_cons, if_neg (by omega), if_neg (by omega), hrest]
      exact ih

/-- The object that is changed, and the others. -/
theorem objectAt_changeAt {f : Obj A → Obj A} (hf : ∀ o, (f o).size = o.size) (space : List (Obj A)) :
    ∀ offset offset', objectAt (changeAt f space offset) offset' =
      if offset' = offset then (objectAt space offset).map f else objectAt space offset' := by
  induction space with
  | nil =>
      intro offset offset'
      split <;> rfl
  | cons o space ih =>
      intro offset offset'
      have hpos := o.size_pos
      rw [changeAt]
      split
      next h0 =>
        rw [h0, objectAt, objectAt, objectAt, hf]
        by_cases h : offset' = 0
        · rw [if_pos h, if_pos h, if_pos rfl]
          rfl
        · rw [if_neg h, if_neg h, if_neg h]
      next h0 =>
        split
        next hlt =>
          rw [objectAt, objectAt, if_neg h0, if_pos hlt]
          by_cases h : offset' = offset
          · rw [if_pos h, h, if_neg h0, if_pos hlt]
            rfl
          · rw [if_neg h]
        next hge =>
          rw [objectAt, objectAt, objectAt, ih, if_neg h0, if_neg hge]
          by_cases h : offset' = offset
          · rw [if_pos h, h, if_neg h0, if_neg hge, if_pos rfl]
          · rw [if_neg h]
            by_cases h0' : offset' = 0
            · rw [if_pos h0', if_pos h0']
            · rw [if_neg h0', if_neg h0']
              by_cases hlt' : offset' < o.size
              · rw [if_pos hlt', if_pos hlt']
              · rw [if_neg hlt', if_neg hlt', if_neg (by omega)]

theorem mem_changeAt {f : Obj A → Obj A} {space : List (Obj A)} :
    ∀ {offset : Nat} {o : Obj A}, o ∈ changeAt f space offset → ∃ o' ∈ space, o = o' ∨ o = f o' := by
  induction space with
  | nil =>
      intro offset o h
      cases h
  | cons o₀ space ih =>
      intro offset o h
      rw [changeAt] at h
      split at h
      · rcases List.mem_cons.mp h with rfl | h
        · exact ⟨o₀, List.mem_cons_self, Or.inr rfl⟩
        · exact ⟨o, List.mem_cons_of_mem _ h, Or.inl rfl⟩
      split at h
      · exact ⟨o, h, Or.inl rfl⟩
      · rcases List.mem_cons.mp h with rfl | h
        · exact ⟨o, List.mem_cons_self, Or.inl rfl⟩
        · obtain ⟨o', ho', heq⟩ := ih h
          exact ⟨o', List.mem_cons_of_mem _ ho', heq⟩

/-! ## The collector -/

/-- The half in use, its objects, and the objects in the other half so far. -/
structure Collector (A : Type) where
  half : Bool
  fromSpace : List (Obj A)
  toSpace : List (Obj A)

/-- Move one object: what is not in the half in use stays, and what has been moved is
found at its new address. -/
def moveObject (p : Ptr) (c : Collector A) : Ptr × Collector A :=
  match p with
  | .static _ => (p, c)
  | .heap half offset =>
      if half ≠ c.half then (p, c)
      else
        match objectAt c.fromSpace offset with
        | none => (p, c)
        | some o =>
            match o.forward with
            | some forward => (forward, c)
            | none =>
                let forward := Ptr.heap (!c.half) (total c.toSpace)
                (forward, { c with
                  fromSpace := changeAt (fun o => { o with forward := some forward }) c.fromSpace offset
                  toSpace := c.toSpace ++ [o] })

def moveAll : List Ptr → Collector A → List Ptr × Collector A
  | [], c => ([], c)
  | p :: ps, c =>
      let (p, c) := moveObject p c
      let (ps, c) := moveAll ps c
      (p :: ps, c)

/-- Move what the objects in the other half point to, the object at the index first.  An
object is copied once, so there are never more than the half in use has. -/
def scan : Nat → Nat → Collector A → Collector A
  | 0, _, c => c
  | fuel + 1, i, c =>
      match c.toSpace[i]? with
      | none => c
      | some o =>
          let (fields, c) := moveAll o.fields c
          scan fuel (i + 1) { c with toSpace := c.toSpace.modify i fun o => { o with fields } }

/-! ## What a pointer stands for -/

/-- The pointer stands for the object with this tag in a half. -/
def Denotes (half : Bool) (space : List (Obj A)) (p : Ptr) (a : A) : Prop :=
  ∃ offset o, p = .heap half offset ∧ objectAt space offset = some o ∧ o.tag = a

/-- No object has been moved. -/
def Unmoved (space : List (Obj A)) : Prop := ∀ o ∈ space, o.forward = none

/-- Every object that has been moved is found where it went, and what lies there has not
been moved itself. -/
structure Forwards (c : Collector A) : Prop where
  found : ∀ offset o forward, objectAt c.fromSpace offset = some o → o.forward = some forward →
    Denotes (!c.half) c.toSpace forward o.tag
  unmoved : Unmoved c.toSpace

theorem Denotes.append {half : Bool} {space : List (Obj A)} {p : Ptr} {a : A}
    (h : Denotes half space p a) (rest : List (Obj A)) : Denotes half (space ++ rest) p a := by
  obtain ⟨offset, o, hp, ho, ha⟩ := h
  exact ⟨offset, o, hp, objectAt_append_left ho rest, ha⟩

theorem Denotes.changeAt {half : Bool} {space : List (Obj A)} {p : Ptr} {a : A}
    (h : Denotes half space p a) {f : Obj A → Obj A} (hsize : ∀ o, (f o).size = o.size)
    (htag : ∀ o, (f o).tag = o.tag) (offset : Nat) : Denotes half (changeAt f space offset) p a := by
  obtain ⟨offset', o, hp, ho, ha⟩ := h
  have hat := objectAt_changeAt hsize space offset offset'
  by_cases heq : offset' = offset
  · rw [if_pos heq, ← heq, ho] at hat
    rw [← heq]
    exact ⟨offset', f o, hp, hat, (htag o).trans ha⟩
  · rw [if_neg heq, ho] at hat
    exact ⟨offset', o, hp, hat, ha⟩

theorem Unmoved.changeAt {space : List (Obj A)} (h : Unmoved space) {f : Obj A → Obj A}
    (hforward : ∀ o, (f o).forward = o.forward) (offset : Nat) : Unmoved (changeAt f space offset) := by
  intro o ho
  obtain ⟨o', ho', heq⟩ := mem_changeAt ho
  rcases heq with rfl | rfl
  · exact h o ho'
  · exact (hforward o').trans (h o' ho')

theorem mem_of_objectAt {space : List (Obj A)} {offset : Nat} {o : Obj A}
    (h : objectAt space offset = some o) : o ∈ space := by
  induction space generalizing offset with
  | nil => cases h
  | cons o' space ih =>
      rw [objectAt] at h
      split at h
      · cases h
        exact List.mem_cons_self
      split at h
      · cases h
      · exact List.mem_cons_of_mem _ (ih h)

theorem Forwards.start {half : Bool} {space : List (Obj A)} (h : Unmoved space) :
    Forwards ⟨half, space, []⟩ := by
  refine ⟨fun offset o forward ho hforward => ?_, nofun⟩
  rw [h o (mem_of_objectAt ho)] at hforward
  cases hforward

/-- What the collector keeps as it goes on: the half, the tags of the objects, and what
has been found in the other half. -/
structure Extends (c c' : Collector A) : Prop where
  half : c'.half = c.half
  tags : ∀ offset, (objectAt c'.fromSpace offset).map Obj.tag = (objectAt c.fromSpace offset).map Obj.tag
  kept : ∀ p a, Denotes (!c.half) c.toSpace p a → Denotes (!c.half) c'.toSpace p a

theorem Extends.refl (c : Collector A) : Extends c c := ⟨rfl, fun _ => rfl, fun _ _ h => h⟩

theorem Extends.trans {c c' c'' : Collector A} (h : Extends c c') (h' : Extends c' c'') :
    Extends c c'' := by
  refine ⟨h'.half.trans h.half, fun offset => (h'.tags offset).trans (h.tags offset), fun p a hp => ?_⟩
  have hkept := h'.kept p a
  rw [h.half] at hkept
  exact hkept (h.kept p a hp)

/-- A pointer into the half in use still stands for the same object, moved or not. -/
theorem Extends.denotes {c c' : Collector A} (h : Extends c c') {p : Ptr} {a : A}
    (hp : Denotes c.half c.fromSpace p a) : Denotes c'.half c'.fromSpace p a := by
  obtain ⟨offset, o, rfl, ho, rfl⟩ := hp
  have htag := h.tags offset
  rw [ho, Option.map_some, Option.map_eq_some_iff] at htag
  obtain ⟨o', ho', htag'⟩ := htag
  rw [h.half]
  exact ⟨offset, o', rfl, ho', htag'⟩

/-! ## Moving -/

/-- **What moving one pointer does.** -/
theorem moveObject_spec (p : Ptr) {c : Collector A} (h : Forwards c) :
    Forwards (moveObject p c).2 ∧ Extends c (moveObject p c).2 ∧
      ∀ a, Denotes c.half c.fromSpace p a →
        Denotes (!c.half) (moveObject p c).2.toSpace (moveObject p c).1 a := by
  have hstay : (¬ ∃ a, Denotes c.half c.fromSpace p a) → Forwards c ∧ Extends c c ∧
      ∀ a, Denotes c.half c.fromSpace p a → Denotes (!c.half) c.toSpace p a :=
    fun hnone => ⟨h, Extends.refl c, fun a ha => absurd ⟨a, ha⟩ hnone⟩
  cases p with
  | static k =>
      apply hstay
      rintro ⟨a, offset, o, hp, -⟩
      cases hp
  | heap half offset =>
      rw [moveObject]
      dsimp only
      split
      next hhalf =>
        apply hstay
        rintro ⟨a, offset', o, hp, -⟩
        cases hp
        exact hhalf rfl
      next hhalf =>
        have hhalf : half = c.half := not_not.mp hhalf
        split
        next hnone =>
          apply hstay
          rintro ⟨a, offset', o, hp, ho, -⟩
          cases hp
          rw [hnone] at ho
          cases ho
        next o ho =>
          split
          next forward hforward =>
            refine ⟨h, Extends.refl c, ?_⟩
            rintro a ⟨offset', o', hp, ho', rfl⟩
            cases hp
            cases ho.symm.trans ho'
            exact h.found offset o forward ho hforward
          next hforward =>
            -- the object is copied
            have hnew : Denotes (!c.half) (c.toSpace ++ [o]) (.heap (!c.half) (total c.toSpace)) o.tag :=
              ⟨_, o, rfl, objectAt_total _ _, rfl⟩
            have hsize : ∀ o' : Obj A,
                ({ o' with forward := some (Ptr.heap (!c.half) (total c.toSpace)) } : Obj A).size = o'.size :=
              fun _ => rfl
            refine ⟨⟨fun offset' o' forward ho' hforward' => ?_, fun o' ho' => ?_⟩,
              ⟨rfl, fun offset' => ?_, fun p a hp => hp.append _⟩, ?_⟩
            · rw [objectAt_changeAt hsize] at ho'
              split at ho'
              · rw [ho, Option.map_some, Option.some.injEq] at ho'
                rw [← ho'] at hforward' ⊢
                cases hforward'
                exact hnew
              · exact (h.found offset' o' forward ho' hforward').append _
            · rcases List.mem_append.mp ho' with ho' | ho'
              · exact h.unmoved o' ho'
              · rw [List.mem_singleton.mp ho']
                exact hforward
            · rw [objectAt_changeAt hsize]
              split
              next heq =>
                rw [heq, ho]
                rfl
              next => rfl
            · rintro a ⟨offset', o', hp, ho', rfl⟩
              cases hp
              cases ho.symm.trans ho'
              exact hnew

theorem moveAll_spec (ps : List Ptr) : ∀ {c : Collector A}, Forwards c →
    Forwards (moveAll ps c).2 ∧ Extends c (moveAll ps c).2 := by
  induction ps with
  | nil => exact fun {c} h => ⟨h, Extends.refl c⟩
  | cons p ps ih =>
      intro c h
      obtain ⟨hforwards, hextends, -⟩ := moveObject_spec p h
      obtain ⟨hforwards', hextends'⟩ := ih hforwards
      exact ⟨hforwards', hextends.trans hextends'⟩

/-! ## Scanning -/

/-- Changing the object at an index changes no other. -/
theorem objectAt_modify {f : Obj A → Obj A} (hf : ∀ o, (f o).size = o.size) (space : List (Obj A)) :
    ∀ i offset o, objectAt space offset = some o →
      ∃ o', objectAt (space.modify i f) offset = some o' ∧ (o' = o ∨ o' = f o) := by
  induction space with
  | nil =>
      intro i offset o h
      cases h
  | cons o₀ space ih =>
      intro i offset o h
      cases i with
      | zero =>
          rw [List.modify_zero_cons, objectAt]
          rw [objectAt] at h
          split at h
          next h0 =>
            rw [if_pos h0, ← Option.some.inj h]
            exact ⟨f o₀, rfl, Or.inr rfl⟩
          next h0 =>
            rw [if_neg h0, hf]
            exact ⟨o, h, Or.inl rfl⟩
      | succ i =>
          rw [List.modify_succ_cons, objectAt]
          rw [objectAt] at h
          split at h
          next h0 =>
            rw [if_pos h0, ← Option.some.inj h]
            exact ⟨o₀, rfl, Or.inl rfl⟩
          next h0 =>
            rw [if_neg h0]
            split at h
            next hlt => cases h
            next hge =>
              rw [if_neg hge]
              exact ih i _ o h

theorem Denotes.modify {half : Bool} {space : List (Obj A)} {p : Ptr} {a : A}
    (h : Denotes half space p a) {f : Obj A → Obj A} (hsize : ∀ o, (f o).size = o.size)
    (htag : ∀ o, (f o).tag = o.tag) (i : Nat) : Denotes half (space.modify i f) p a := by
  obtain ⟨offset, o, hp, ho, ha⟩ := h
  obtain ⟨o', ho', heq⟩ := objectAt_modify hsize space i offset o ho
  refine ⟨offset, o', hp, ho', ?_⟩
  rcases heq with rfl | rfl
  · exact ha
  · exact (htag o).trans ha

theorem Unmoved.modify {space : List (Obj A)} (h : Unmoved space) {f : Obj A → Obj A}
    (hforward : ∀ o, (f o).forward = o.forward) (i : Nat) : Unmoved (space.modify i f) := by
  intro o ho
  obtain ⟨k, hk⟩ := List.mem_iff_getElem?.mp ho
  rw [List.getElem?_modify] at hk
  obtain ⟨o', ho', heq⟩ := Option.map_eq_some_iff.mp hk
  have hunmoved := h o' (List.mem_of_getElem? ho')
  rw [← heq]
  split
  · rw [hforward, hunmoved]
  · exact hunmoved

/-- **What the collector does behind the roots.** -/
theorem scan_spec (fuel : Nat) : ∀ (i : Nat) {c : Collector A}, Forwards c →
    Forwards (scan fuel i c) ∧ Extends c (scan fuel i c) := by
  induction fuel with
  | zero => exact fun i {c} h => ⟨h, Extends.refl c⟩
  | succ fuel ih =>
      intro i c h
      rw [scan]
      split
      · exact ⟨h, Extends.refl c⟩
      next o ho =>
        obtain ⟨hforwards, hextends⟩ := moveAll_spec o.fields h
        generalize moveAll o.fields c = moved at hforwards hextends ⊢
        obtain ⟨fields, c'⟩ := moved
        have hsize : ∀ o' : Obj A, ({ o' with fields } : Obj A).size = o'.size := fun _ => rfl
        have htag : ∀ o' : Obj A, ({ o' with fields } : Obj A).tag = o'.tag := fun _ => rfl
        have hsame : ∀ o' : Obj A, ({ o' with fields } : Obj A).forward = o'.forward := fun _ => rfl
        have hmodified : Forwards { c' with toSpace := c'.toSpace.modify i fun o => { o with fields } } :=
          ⟨fun offset o' forward ho' hforward =>
            (hforwards.found offset o' forward ho' hforward).modify hsize htag i,
            hforwards.unmoved.modify hsame i⟩
        have hkeeps : Extends c' { c' with toSpace := c'.toSpace.modify i fun o => { o with fields } } :=
          ⟨rfl, fun _ => rfl, fun p a hp => hp.modify hsize htag i⟩
        obtain ⟨hdone, hscanned⟩ := ih (i + 1) hmodified
        exact ⟨hdone, (hextends.trans hkeeps).trans hscanned⟩

end Cheney
