import Mathlib

/-!
# Regular expressions with anchors and groups

What an expression matches is a stretch of a text, from one place to another, together
with the marks that its groups leave on the way.

* `Re`, `Matches` — the expressions and their meaning;
* `Wide` — an expression that matches no empty stretch;
* `Spans`, `record` — where the groups begin and end, a later round of a loop before an
  earlier one;
* `Matches.bounds`, `matches_star_iff`, `matches_star_single_iff` — a match stays in the
  text, and a loop is a round and a loop again;
* `Matches.genuine` — **what is recorded for a group is a match of the group**.
-/

namespace Regular

/-- An expression over an alphabet `C` and names `K` of sets of characters. -/
inductive Re (C K : Type)
  | nothing
  | bol
  | eol
  | one (k : K)
  | lit (cs : List C)
  | cat (r t : Re C K)
  | star (r : Re C K)
  | plus (r : Re C K)
  | opt (r : Re C K)
  | group (no : Nat) (r : Re C K)
  | branch (r : Re C K)
  | alt (r t : Re C K)

/-- A group begins or ends at a place. -/
inductive Mark
  | opens (no place : Nat)
  | closes (no place : Nat)

variable {C K : Type}

/-- From place `i` of the text to place `j`. -/
inductive Matches (mem : K → C → Bool) (s : List C) : Re C K → Nat → Nat → List Mark → Prop
  | nothing (i : Nat) : Matches mem s .nothing i i []
  | bol : Matches mem s .bol 0 0 []
  | eol : Matches mem s .eol s.length s.length []
  | one {k : K} {i : Nat} {c : C} (hc : s[i]? = some c) (hk : mem k c = true) :
      Matches mem s (.one k) i (i + 1) []
  | lit {cs : List C} {i : Nat} (h : cs <+: s.drop i) :
      Matches mem s (.lit cs) i (i + cs.length) []
  | cat {r t : Re C K} {i j k : Nat} {ms ns : List Mark} (hr : Matches mem s r i j ms)
      (ht : Matches mem s t j k ns) : Matches mem s (.cat r t) i k (ms ++ ns)
  | stop (r : Re C K) (i : Nat) : Matches mem s (.star r) i i []
  | more {r : Re C K} {i j k : Nat} {ms ns : List Mark} (hr : Matches mem s r i j ms)
      (hs : Matches mem s (.star r) j k ns) : Matches mem s (.star r) i k (ms ++ ns)
  | plus {r : Re C K} {i j k : Nat} {ms ns : List Mark} (hr : Matches mem s r i j ms)
      (hs : Matches mem s (.star r) j k ns) : Matches mem s (.plus r) i k (ms ++ ns)
  | skip (r : Re C K) (i : Nat) : Matches mem s (.opt r) i i []
  | opt {r : Re C K} {i j : Nat} {ms : List Mark} (hr : Matches mem s r i j ms) :
      Matches mem s (.opt r) i j ms
  | group {no : Nat} {r : Re C K} {i j : Nat} {ms : List Mark} (hr : Matches mem s r i j ms) :
      Matches mem s (.group no r) i j (.opens no i :: (ms ++ [.closes no j]))
  | branch {r : Re C K} {i j : Nat} {ms : List Mark} (hr : Matches mem s r i j ms) :
      Matches mem s (.branch r) i j ms
  | left {r : Re C K} (t : Re C K) {i j : Nat} {ms : List Mark} (hr : Matches mem s r i j ms) :
      Matches mem s (.alt r t) i j ms
  | right (r : Re C K) {t : Re C K} {i j : Nat} {ms : List Mark} (ht : Matches mem s t i j ms) :
      Matches mem s (.alt r t) i j ms

/-- No stretch that the expression matches is empty. -/
def Wide (mem : K → C → Bool) (r : Re C K) : Prop :=
  ∀ (s : List C) (i j : Nat) (ms : List Mark), Matches mem s r i j ms → i < j

variable {mem : K → C → Bool} {s : List C} {r t : Re C K} {i j : Nat} {ms ns : List Mark}

/-- **A match stays in the text.** -/
theorem Matches.bounds (h : Matches mem s r i j ms) : i ≤ j ∧ (i < j → j ≤ s.length) := by
  induction h with
  | nothing i => exact ⟨Nat.le_refl i, fun hlt => absurd hlt (Nat.lt_irrefl i)⟩
  | bol => exact ⟨Nat.le_refl 0, nofun⟩
  | eol => exact ⟨Nat.le_refl _, fun _ => Nat.le_refl _⟩
  | one hc hk =>
      obtain ⟨hlt, -⟩ := List.getElem?_eq_some_iff.mp hc
      exact ⟨Nat.le_succ _, fun _ => hlt⟩
  | @lit cs i h =>
      have hlen := h.length_le
      rw [List.length_drop] at hlen
      omega
  | cat hr ht ihr iht => omega
  | stop r i => exact ⟨Nat.le_refl i, fun hlt => absurd hlt (Nat.lt_irrefl i)⟩
  | more hr hs ihr ihs => omega
  | plus hr hs ihr ihs => omega
  | skip r i => exact ⟨Nat.le_refl i, fun hlt => absurd hlt (Nat.lt_irrefl i)⟩
  | opt hr ih => exact ih
  | group hr ih => exact ih
  | branch hr ih => exact ih
  | left t hr ih => exact ih
  | right r ht ih => exact ih

/-! ## Width -/

theorem wide_one (k : K) : Wide mem (.one k : Re C K) := by
  intro s i j ms h
  cases h
  exact Nat.lt_succ_self i

theorem wide_lit {cs : List C} (hcs : cs ≠ []) : Wide mem (.lit cs) := by
  intro s i j ms h
  cases h
  exact Nat.lt_add_of_pos_right (List.length_pos_iff.mpr hcs)

theorem wide_cat (h : Wide mem r ∨ Wide mem t) : Wide mem (.cat r t) := by
  intro s i k ms hm
  cases hm with
  | cat hr ht =>
      rcases h with h | h
      · exact Nat.lt_of_lt_of_le (h _ _ _ _ hr) ht.bounds.1
      · exact Nat.lt_of_le_of_lt hr.bounds.1 (h _ _ _ _ ht)

theorem wide_plus (h : Wide mem r) : Wide mem (.plus r) := by
  intro s i k ms hm
  cases hm with
  | plus hr hs => exact Nat.lt_of_lt_of_le (h _ _ _ _ hr) hs.bounds.1

theorem wide_group {no : Nat} (h : Wide mem r) : Wide mem (.group no r) := by
  intro s i j ms hm
  cases hm with
  | group hr => exact h _ _ _ _ hr

theorem wide_branch (h : Wide mem r) : Wide mem (.branch r) := by
  intro s i j ms hm
  cases hm with
  | branch hr => exact h _ _ _ _ hr

theorem wide_alt (hr : Wide mem r) (ht : Wide mem t) : Wide mem (.alt r t) := by
  intro s i j ms hm
  cases hm with
  | left t h => exact hr _ _ _ _ h
  | right r h => exact ht _ _ _ _ h

/-! ## Loops -/

/-- A loop is over, or goes through a round. -/
theorem matches_star_iff {k : Nat} : Matches mem s (.star r) i k ns ↔
    (k = i ∧ ns = []) ∨
      ∃ j ms ms', Matches mem s r i j ms ∧ Matches mem s (.star r) j k ms' ∧ ns = ms ++ ms' := by
  constructor
  · intro h
    cases h with
    | stop => exact Or.inl ⟨rfl, rfl⟩
    | more hr hs => exact Or.inr ⟨_, _, _, hr, hs, rfl⟩
  · rintro (⟨rfl, rfl⟩ | ⟨j, ms, ms', hr, hs, rfl⟩)
    · exact .stop r _
    · exact .more hr hs

/-- An expression of single characters: a loop goes as far as the run of them. -/
theorem matches_star_single_iff {p : C → Bool} {k : Nat}
    (hr : ∀ i j ms, Matches mem s r i j ms ↔ ms = [] ∧ j = i + 1 ∧ ∃ c, s[i]? = some c ∧ p c = true) :
    Matches mem s (.star r) i k ms ↔
      ms = [] ∧ i ≤ k ∧ k ≤ i + ((s.drop i).takeWhile p).length := by
  constructor
  · intro h
    generalize hstar : Re.star r = t at h
    induction h with
    | stop t i => exact ⟨rfl, Nat.le_refl i, Nat.le_add_right i _⟩
    | more hm hs _ ih =>
        cases hstar
        obtain ⟨rfl, hle, hrun⟩ := ih rfl
        obtain ⟨rfl, rfl, c, hc, hp⟩ := (hr _ _ _).mp hm
        obtain ⟨hlt, hget⟩ := List.getElem?_eq_some_iff.mp hc
        refine ⟨rfl, Nat.le_of_succ_le hle, ?_⟩
        rw [List.drop_eq_getElem_cons hlt, hget, List.takeWhile_cons_of_pos hp, List.length_cons]
        omega
    | _ => cases hstar
  · rintro ⟨rfl, hle, hrun⟩
    obtain ⟨d, rfl⟩ := Nat.exists_eq_add_of_le hle
    clear hle
    induction d generalizing i with
    | zero => exact .stop r i
    | succ d ih =>
        obtain ⟨c, hc, hp, hrest⟩ : ∃ c, s[i]? = some c ∧ p c = true ∧
            ((s.drop i).takeWhile p).length = ((s.drop (i + 1)).takeWhile p).length + 1 := by
          rcases Nat.lt_or_ge i s.length with hlt | hge
          · rw [List.drop_eq_getElem_cons hlt] at hrun ⊢
            cases hp : p s[i] with
            | true => exact ⟨s[i], List.getElem?_eq_getElem hlt, hp, by
                rw [List.takeWhile_cons_of_pos hp, List.length_cons]⟩
            | false =>
                rw [List.takeWhile_cons_of_neg (by simp [hp]), List.length_nil] at hrun
                omega
          · rw [List.drop_eq_nil_of_le hge, List.takeWhile_nil, List.length_nil] at hrun
            omega
        have htail := @ih (i + 1) (by omega)
        have hplace : i + (d + 1) = i + 1 + d := by omega
        rw [hplace]
        exact .more ((hr i (i + 1) []).mpr ⟨rfl, rfl, c, hc, hp⟩) htail

/-- A loop that is gone through at least once. -/
theorem matches_plus_iff {k : Nat} : Matches mem s (.plus r) i k ns ↔
    ∃ j ms ms', Matches mem s r i j ms ∧ Matches mem s (.star r) j k ms' ∧ ns = ms ++ ms' := by
  constructor
  · intro h
    cases h with
    | plus hr hs => exact ⟨_, _, _, hr, hs, rfl⟩
  · rintro ⟨j, ms, ms', hr, hs, rfl⟩
    exact .plus hr hs

/-! ## What is recorded -/

/-- Where the groups begin and where they end. -/
structure Spans where
  startp : Nat → Option Nat
  endp : Nat → Option Nat

/-- Nothing is recorded. -/
def Spans.none : Spans := ⟨fun _ => .none, fun _ => .none⟩

/-- A mark is recorded unless a later one is. -/
def Spans.add (g : Spans) : Mark → Spans
  | .opens no place => { g with
      startp := Function.update g.startp no ((g.startp no).or (some place)) }
  | .closes no place => { g with
      endp := Function.update g.endp no ((g.endp no).or (some place)) }

@[simp] theorem Spans.add_opens_startp (no place n : Nat) (g : Spans) :
    (g.add (.opens no place)).startp n =
      if n = no then (g.startp no).or (some place) else g.startp n := Function.update_apply ..

@[simp] theorem Spans.add_opens_endp (no place n : Nat) (g : Spans) :
    (g.add (.opens no place)).endp n = g.endp n := rfl

@[simp] theorem Spans.add_closes_startp (no place n : Nat) (g : Spans) :
    (g.add (.closes no place)).startp n = g.startp n := rfl

@[simp] theorem Spans.add_closes_endp (no place n : Nat) (g : Spans) :
    (g.add (.closes no place)).endp n =
      if n = no then (g.endp no).or (some place) else g.endp n := Function.update_apply ..

/-- The last mark of each kind stands. -/
def record (ms : List Mark) (g : Spans) : Spans := ms.foldr (fun m g => g.add m) g

@[simp] theorem record_nil (g : Spans) : record [] g = g := rfl

@[simp] theorem record_cons (m : Mark) (ms : List Mark) (g : Spans) :
    record (m :: ms) g = (record ms g).add m := rfl

theorem record_append (ms ns : List Mark) (g : Spans) :
    record (ms ++ ns) g = record ms (record ns g) := List.foldr_append

/-- What was recorded before stands. -/
theorem record_startp (ms : List Mark) (g : Spans) (no : Nat) :
    (record ms g).startp no = (g.startp no).or ((record ms .none).startp no) := by
  induction ms with
  | nil => exact Option.or_none.symm
  | cons m ms ih =>
      cases m with
      | opens n place =>
          rw [record_cons, record_cons, Spans.add_opens_startp, Spans.add_opens_startp]
          split
          · rename_i hn
            subst hn
            rw [ih, Option.or_assoc]
          · exact ih
      | closes n place => exact ih

theorem record_endp (ms : List Mark) (g : Spans) (no : Nat) :
    (record ms g).endp no = (g.endp no).or ((record ms .none).endp no) := by
  induction ms with
  | nil => exact Option.or_none.symm
  | cons m ms ih =>
      cases m with
      | opens n place => exact ih
      | closes n place =>
          rw [record_cons, record_cons, Spans.add_closes_endp, Spans.add_closes_endp]
          split
          · rename_i hn
            subst hn
            rw [ih, Option.or_assoc]
          · exact ih

/-- A group of an expression. -/
inductive Inside (no : Nat) (u : Re C K) : Re C K → Prop
  | here : Inside no u (.group no u)
  | group {n : Nat} {r : Re C K} (h : Inside no u r) : Inside no u (.group n r)
  | catLeft {r : Re C K} (t : Re C K) (h : Inside no u r) : Inside no u (.cat r t)
  | catRight (r : Re C K) {t : Re C K} (h : Inside no u t) : Inside no u (.cat r t)
  | star {r : Re C K} (h : Inside no u r) : Inside no u (.star r)
  | plus {r : Re C K} (h : Inside no u r) : Inside no u (.plus r)
  | opt {r : Re C K} (h : Inside no u r) : Inside no u (.opt r)
  | branch {r : Re C K} (h : Inside no u r) : Inside no u (.branch r)
  | altLeft {r : Re C K} (t : Re C K) (h : Inside no u r) : Inside no u (.alt r t)
  | altRight (r : Re C K) {t : Re C K} (h : Inside no u t) : Inside no u (.alt r t)

/-- No group stands in one of the same number. -/
def Unnested : Re C K → Prop
  | .group no r => (∀ u, ¬ Inside no u r) ∧ Unnested r
  | .cat r t | .alt r t => Unnested r ∧ Unnested t
  | .star r | .plus r | .opt r | .branch r => Unnested r
  | _ => True

/-- Nothing is recorded for a group, or a match of it between two places. -/
def GenuineAt (mem : K → C → Bool) (s : List C) (r : Re C K) (i j no : Nat) (g : Spans) : Prop :=
  (g.startp no = none ∧ g.endp no = none) ∨
    ∃ a b u ms, g.startp no = some a ∧ g.endp no = some b ∧ Inside no u r ∧
      Matches mem s u a b ms ∧ i ≤ a ∧ b ≤ j

variable {no i' j' : Nat} {u : Re C K} {g : Spans}

theorem GenuineAt.mono (h : GenuineAt mem s r i j no g)
    (hin : ∀ u, Inside no u r → Inside no u t) (hi : i' ≤ i) (hj : j ≤ j') :
    GenuineAt mem s t i' j' no g := by
  rcases h with hnone | ⟨a, b, u, ms, ha, hb, hu, hm, hia, hbj⟩
  · exact Or.inl hnone
  · exact Or.inr ⟨a, b, u, ms, ha, hb, hin u hu, hm, Nat.le_trans hi hia, Nat.le_trans hbj hj⟩

/-- Of two stretches in a row the second one's records stand. -/
theorem GenuineAt.append (hm : GenuineAt mem s r i j no (record ms .none))
    (hn : GenuineAt mem s r i j no (record ns .none)) :
    GenuineAt mem s r i j no (record (ms ++ ns) .none) := by
  unfold GenuineAt
  rw [record_append, record_startp ms, record_endp ms]
  rcases hn with ⟨hstart, hend⟩ | ⟨a, b, u, ms', ha, hb, h⟩
  · rw [hstart, hend, Option.none_or, Option.none_or]
    exact hm
  · rw [ha, hb, Option.some_or, Option.some_or]
    exact Or.inr ⟨a, b, u, ms', rfl, rfl, h⟩

/-- A group that has recorded nothing inside records itself. -/
theorem GenuineAt.group (hm : Matches mem s r i j ms) (hno : ∀ u, ¬ Inside no u r)
    (h : ∀ n, GenuineAt mem s r i j n (record ms .none)) (n : Nat) :
    GenuineAt mem s (.group no r) i j n (record (.opens no i :: (ms ++ [.closes no j])) .none) := by
  have hstart : (record (.opens no i :: (ms ++ [.closes no j])) .none).startp n =
      if n = no then ((record ms .none).startp no).or (some i) else (record ms .none).startp n := by
    have hrest : ∀ m, (record (ms ++ [.closes no j]) .none).startp m =
        (record ms .none).startp m := by
      intro m
      rw [record_append, record_startp ms (record [.closes no j] .none)]
      exact Option.none_or
    rw [record_cons, Spans.add_opens_startp, hrest, hrest]
  have hend : (record (.opens no i :: (ms ++ [.closes no j])) .none).endp n =
      if n = no then some j else (record ms .none).endp n := by
    rw [record_cons, Spans.add_opens_endp, record_append, record_endp ms, record_cons,
      Spans.add_closes_endp]
    split <;> rfl
  unfold GenuineAt
  rw [hstart, hend]
  by_cases hn : n = no
  · subst hn
    have hnone : (record ms .none).startp n = none := by
      rcases h n with hnone | ⟨a, b, u, ms', -, -, hu, -⟩
      · exact hnone.1
      · exact absurd hu (hno u)
    rw [if_pos rfl, if_pos rfl, hnone]
    exact Or.inr ⟨i, j, r, ms, rfl, rfl, .here, hm, Nat.le_refl i, Nat.le_refl j⟩
  · rw [if_neg hn, if_neg hn]
    exact (h n).mono (fun u hu => .group hu) (Nat.le_refl i) (Nat.le_refl j)

/-- **What is recorded for a group is a match of the group.** -/
theorem Matches.genuine (h : Matches mem s r i j ms) (hr : Unnested r) (no : Nat) :
    GenuineAt mem s r i j no (record ms .none) := by
  induction h generalizing no with
  | cat hm hn ihm ihn =>
      refine GenuineAt.append ?_ ?_
      · exact (ihm hr.1 no).mono (fun u hu => .catLeft _ hu) (Nat.le_refl _) hn.bounds.1
      · exact (ihn hr.2 no).mono (fun u hu => .catRight _ hu) hm.bounds.1 (Nat.le_refl _)
  | more hm hs ihm ihs =>
      refine GenuineAt.append ?_ ?_
      · exact (ihm hr no).mono (fun u hu => .star hu) (Nat.le_refl _) hs.bounds.1
      · exact (ihs hr no).mono (fun u hu => hu) hm.bounds.1 (Nat.le_refl _)
  | plus hm hs ihm ihs =>
      refine GenuineAt.append ?_ ?_
      · exact (ihm hr no).mono (fun u hu => .plus hu) (Nat.le_refl _) hs.bounds.1
      · refine (ihs hr no).mono (fun u hu => ?_) hm.bounds.1 (Nat.le_refl _)
        cases hu with
        | star hu => exact .plus hu
  | opt hm ih => exact (ih hr no).mono (fun u hu => .opt hu) (Nat.le_refl _) (Nat.le_refl _)
  | group hm ih => exact GenuineAt.group hm hr.1 (ih hr.2) no
  | branch hm ih => exact (ih hr no).mono (fun u hu => .branch hu) (Nat.le_refl _) (Nat.le_refl _)
  | left t hm ih =>
      exact (ih hr.1 no).mono (fun u hu => .altLeft t hu) (Nat.le_refl _) (Nat.le_refl _)
  | right r hm ih =>
      exact (ih hr.2 no).mono (fun u hu => .altRight r hu) (Nat.le_refl _) (Nat.le_refl _)
  | _ => exact Or.inl ⟨rfl, rfl⟩

end Regular
