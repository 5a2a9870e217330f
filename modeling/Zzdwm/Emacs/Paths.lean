import Mathlib
import Zzdwm.Emacs.Utf8
import Zzdwm.Lib.Walks

/-!
# Path names (`path.c`)

`path_normalize` rewrites a path where it stands: what has been written is in front of what
is still to be read.

* `pathNormalize` — the code;
* `place` — where a path leads, by its components after the root;
* `Reached` — the state of the buffer in the middle of the loop;
* `pathNormalize_eq` — what is written in the end: of the `..` in front at most one, and
  none if their number is even;
* `path_normalize_resolves_iff` — when that is the lexical resolution.
-/

namespace Emacs.Paths

section Source

/-- `'/'`. -/
def slash : Byte := 0x2f

/-- `'.'`. -/
def period : Byte := 0x2e

/-- `path[i]`.  The string ends with a zero byte. -/
def pathAt (path : List Byte) (i : Nat) : Byte := path.getD i 0

/-- `path_is_separator`. -/
def pathIsSeparator (character : Byte) : Bool := character = slash

/-- `path_root_length`. -/
def pathRootLength (path : List Byte) : Nat :=
  if pathIsSeparator (pathAt path 0) then
    if pathIsSeparator (pathAt path 1) then 2 else 1
  else 0

/-- The buffer of `path_normalize`, with the places where it reads and writes. -/
structure Scan where
  path : List Byte
  source : Nat
  destination : Nat

/-- `*destination++ = c`. -/
def Scan.put (c : Byte) (s : Scan) : Scan :=
  { s with path := s.path.set s.destination c, destination := s.destination + 1 }

/-- `destination > path && destination[-1] != '/'`. -/
def Scan.behindName (s : Scan) : Bool :=
  s.destination > 0 && pathAt s.path (s.destination - 1) ≠ slash

/-- The loop that copies a component, in at most `n` rounds. -/
def copyComponent : Nat → Scan → Scan
  | 0, s => s
  | n + 1, s =>
      let c := pathAt s.path s.source
      if c ≠ 0 ∧ !pathIsSeparator c then
        copyComponent n { s.put c with source := s.source + 1 }
      else s

/-- The loop that goes back to the separator in front of a component. -/
def backUp (path : List Byte) (rootLength : Nat) : Nat → Nat
  | 0 => 0
  | d + 1 => if d + 1 > rootLength ∧ pathAt path d ≠ slash then backUp path rootLength d else d + 1

/-- What is written for a `..` that has been read. -/
def Scan.up (rootLength : Nat) (s : Scan) : Scan :=
  if s.destination > rootLength then
    let d := backUp s.path rootLength s.destination
    { s with destination := if d > rootLength ∧ pathAt s.path (d - 1) = slash then d - 1 else d }
  else if rootLength = 0 then
    let s := if s.behindName then s.put slash else s
    (s.put period).put period
  else s

/-- What is written in front of a name. -/
def Scan.separate (rootLength : Nat) (s : Scan) : Scan :=
  if s.behindName ∧ (rootLength = 0 ∨ s.destination > rootLength ∨
      pathAt s.path (rootLength - 1) = slash) then s.put slash
  else s

/-- One round of the loop of `path_normalize`. -/
def normalizeRound (rootLength : Nat) (s : Scan) : Scan :=
  let next i := pathAt s.path (s.source + i)
  if pathIsSeparator (next 0) then { s with source := s.source + 1 }
  else if next 0 = period ∧ (next 1 = 0 ∨ pathIsSeparator (next 1)) then
    { s with source := s.source + if next 1 = 0 then 1 else 2 }
  else if next 0 = period ∧ next 1 = period ∧ (next 2 = 0 ∨ pathIsSeparator (next 2)) then
    { s with source := s.source + if next 2 = 0 then 2 else 3 }.up rootLength
  else copyComponent s.path.length (s.separate rootLength)

/-- The loop of `path_normalize`; every round reads at least one byte. -/
def normalizeLoop (rootLength : Nat) : Nat → Scan → Option Scan
  | 0, _ => none
  | f + 1, s =>
      if pathAt s.path s.source ≠ 0 then normalizeLoop rootLength f (normalizeRound rootLength s)
      else some s

/-- What `path_normalize` writes behind its loop, and the string that is there then. -/
def Scan.finish (rootLength : Nat) (s : Scan) : List Byte :=
  let s :=
    if s.source > 0 ∧ pathIsSeparator (pathAt s.path (s.source - 1)) ∧
        s.destination > rootLength ∧ pathAt s.path (s.destination - 1) ≠ slash then s.put slash
    else s
  let s := if s.destination = 0 then s.put period else s
  s.path.take s.destination

/-- `path_normalize`. -/
def pathNormalize (path : List Byte) : Option (List Byte) :=
  if path = [] then some path
  else
    let rootLength := pathRootLength path
    match normalizeLoop rootLength (path.length + 1) ⟨path, rootLength, rootLength⟩ with
    | none => none
    | some s => some (s.finish rootLength)

/-- `path_join`, into a buffer of a size. -/
def pathJoin (directory component : List Byte) (resultSize : Nat) : Option (List Byte) :=
  if directory = [] ∨ component = [] ∨ resultSize = 0 then none
  else
    let separator := if pathIsSeparator (pathAt directory (directory.length - 1)) then [] else [slash]
    let result := directory ++ separator ++ component
    if result.length ≥ resultSize then none else pathNormalize result

end Source

/-! ## Where a path leads -/

/-- `"."`. -/
def dot : List Byte := [period]

/-- `".."`. -/
def dots : List Byte := [period, period]

/-- What a component of a path says. -/
def component (c : List Byte) : Walks.Step (List Byte) :=
  if c = dot then .here else if c = dots then .up else .down c

/-- The root of a path. -/
def pathRoot (path : List Byte) : List Byte := path.take (pathRootLength path)

/-- Where a path leads, after its root. -/
def place (path : List Byte) : Walks.Place (List Byte) :=
  Walks.walk (pathRootLength path ≠ 0) ((Walks.parts slash (path.drop (pathRootLength path))).map component)

/-- The components of a place. -/
def componentsOf (p : Walks.Place (List Byte)) : List (List Byte) := List.replicate p.above dots ++ p.names

/-- The lexical resolution of a path; an empty one is written as a dot if the path is relative. -/
def resolution (path : List Byte) : List (List Byte) :=
  if pathRootLength path = 0 ∧ componentsOf (place path) = [] then [dot]
  else componentsOf (place path)

/-- **A path is normalised**: it is resolved, to normalise it again changes nothing, and it
has not become longer. -/
structure Normalized (path result : List Byte) : Prop where
  root : pathRoot result = pathRoot path
  components : Walks.parts slash (result.drop (pathRootLength path)) = resolution path
  again : pathNormalize result = some result
  length : result.length ≤ path.length

/-- The place that `path_normalize` writes: two `..` in front cancel each other. -/
def shorten (p : Walks.Place (List Byte)) : Walks.Place (List Byte) := ⟨p.above % 2, p.names⟩

/-- The text of a place, behind a root. -/
def textOf (root : List Byte) (p : Walks.Place (List Byte)) : List Byte :=
  root ++ [slash].intercalate (componentsOf p)

variable {root w g c r x done rest path : List Byte} {cs : List (List Byte)} {p : Walks.Place (List Byte)}
  {s : Scan} {n : Nat}

/-! ## Joined components -/

/-- What can stand between slashes. -/
structure Plain (c : List Byte) : Prop where
  ne_nil : c ≠ []
  noslash : slash ∉ c
  nozero : (0 : Byte) ∉ c

theorem piece_dots : Plain dots := ⟨by decide, by decide, by decide⟩

theorem intercalate_concat (h : cs ≠ []) (c : List Byte) :
    [slash].intercalate (cs ++ [c]) = [slash].intercalate cs ++ slash :: c := by
  induction cs with
  | nil => exact absurd rfl h
  | cons d cs ih =>
      cases cs with
      | nil => simp
      | cons e cs =>
          have hrest := ih (List.cons_ne_nil _ _)
          rw [List.cons_append, List.cons_append, List.intercalate_cons_cons, ← List.cons_append, hrest,
            List.intercalate_cons_cons]
          simp

/-- Joined components end with a byte that is no slash. -/
theorem joined_last (hcs : ∀ c ∈ cs, Plain c) (h : cs ≠ []) :
    ∃ u b, [slash].intercalate cs = u ++ [b] ∧ b ≠ slash := by
  obtain ⟨ds, d, rfl⟩ := cs.eq_nil_or_concat.resolve_left h
  have hd := hcs d (by simp)
  obtain ⟨v, b, hv⟩ := d.eq_nil_or_concat.resolve_left hd.ne_nil
  have hb : b ≠ slash := by
    rintro rfl
    exact hd.noslash (by rw [hv]; simp)
  by_cases hds : ds = []
  · subst hds
    exact ⟨v, b, by simp [hv], hb⟩
  · refine ⟨[slash].intercalate ds ++ slash :: v, b, ?_, hb⟩
    rw [List.concat_eq_append, intercalate_concat hds, hv]
    simp

theorem pathAt_append (w x : List Byte) (i : Nat) : pathAt (w ++ x) (w.length + i) = pathAt x i := by
  unfold pathAt
  rw [List.getD_eq_getElem?_getD, List.getD_eq_getElem?_getD, List.getElem?_append_right (by omega),
    Nat.add_sub_cancel_left]

theorem pathAt_last (u x : List Byte) (b : Byte) : pathAt (u ++ [b] ++ x) ((u ++ [b]).length - 1) = b := by
  have hat := pathAt_append u ([b] ++ x) 0
  rw [List.append_assoc, List.length_append, List.length_singleton, Nat.add_sub_cancel]
  exact hat

/-! ## The loops -/

/-- Writing behind what has been written. -/
theorem put_eq (hpath : s.path = w ++ g ++ rest) (hg : g ≠ []) (hdest : s.destination = w.length)
    (b : Byte) :
    s.put b = ⟨w ++ [b] ++ g.tail ++ rest, s.source, (w ++ [b]).length⟩ := by
  obtain ⟨y, g, rfl⟩ := List.exists_cons_of_ne_nil hg
  unfold Scan.put
  rw [hpath, hdest, List.append_assoc, List.set_append_right _ _ (Nat.le_refl _), Nat.sub_self,
    List.length_append]
  simp

/-- **The copy of a component.** -/
theorem copyComponent_eq (hslash : slash ∉ c) (hzero : (0 : Byte) ∉ c)
    (hr : ∀ b ∈ r.head?, b = slash) (hn : c.length ≤ n) :
    copyComponent n ⟨w ++ g ++ (c ++ r), (w ++ g).length, w.length⟩ =
      ⟨w ++ c ++ (g ++ c).drop c.length ++ r, (w ++ g ++ c).length, (w ++ c).length⟩ := by
  induction c generalizing w g n with
  | nil =>
      have hstop : ¬ (pathAt (w ++ g ++ r) (w ++ g).length ≠ 0 ∧
          (!pathIsSeparator (pathAt (w ++ g ++ r) (w ++ g).length)) = true) := by
        have hat := pathAt_append (w ++ g) r 0
        rw [Nat.add_zero] at hat
        rw [hat]
        cases r with
        | nil => exact fun h => h.1 rfl
        | cons b r =>
            have hb := hr b rfl
            subst hb
            exact fun h => absurd h.2 Bool.false_ne_true
      have hnil : copyComponent n ⟨w ++ g ++ r, (w ++ g).length, w.length⟩ =
          ⟨w ++ g ++ r, (w ++ g).length, w.length⟩ := by
        cases n with
        | zero => rfl
        | succ n =>
            rw [copyComponent]
            exact if_neg hstop
      simpa using hnil
  | cons b c ih =>
      obtain ⟨n, rfl⟩ : ∃ k, n = k + 1 := ⟨n - 1, by rw [List.length_cons] at hn; omega⟩
      have hat := pathAt_append (w ++ g) (b :: c ++ r) 0
      rw [Nat.add_zero] at hat
      have hgo : pathAt (w ++ g ++ (b :: c ++ r)) (w ++ g).length ≠ 0 ∧
          (!pathIsSeparator (pathAt (w ++ g ++ (b :: c ++ r)) (w ++ g).length)) = true := by
        rw [hat]
        refine ⟨fun h => hzero (h ▸ List.mem_cons_self), ?_⟩
        rw [Bool.not_eq_true', pathIsSeparator, decide_eq_false_iff_not]
        exact fun h => hslash (h ▸ List.mem_cons_self)
      -- what is read is written in the place of the first byte between the two places
      have hput : (Scan.put b ⟨w ++ g ++ (b :: c ++ r), (w ++ g).length, w.length⟩).path =
          w ++ [b] ++ (g ++ [b]).drop 1 ++ (c ++ r) := by
        unfold Scan.put
        cases g with
        | nil => simp [List.set_append_right]
        | cons y g => simp [List.set_append_right]
      have hrest := ih (w := w ++ [b]) (g := (g ++ [b]).drop 1) (n := n)
        (fun h => hslash (List.mem_cons_of_mem _ h)) (fun h => hzero (List.mem_cons_of_mem _ h))
        (by rw [List.length_cons] at hn; omega)
      have hlen : (w ++ [b] ++ (g ++ [b]).drop 1).length = (w ++ g).length + 1 := by
        simp only [List.length_append, List.length_drop, List.length_singleton]
        omega
      have hdrop : ((g ++ [b]).drop 1 ++ c).drop c.length = (g ++ b :: c).drop (b :: c).length := by
        have hassoc : (g ++ b :: c) = (g ++ [b]) ++ c := by simp
        have hle : 1 ≤ (g ++ [b]).length := by
          rw [List.length_append, List.length_singleton]
          omega
        rw [hassoc, List.length_cons, Nat.add_comm, ← List.drop_drop, List.drop_append_of_le_length hle]
      rw [copyComponent]
      dsimp only
      rw [if_pos hgo, hat]
      change copyComponent n ⟨(Scan.put b _).path, (w ++ g).length + 1, w.length + 1⟩ = _
      rw [hput, ← hlen]
      have hdest : w.length + 1 = (w ++ [b]).length := by simp
      rw [hdest, hrest, hdrop]
      simp [Nat.add_assoc, Nat.add_comm, Nat.add_left_comm]

/-- **Going back over a component.** -/
theorem backUp_eq {t : List Byte} {rootLength : Nat} (hc : slash ∉ c) (hroot : rootLength ≤ t.length)
    (ht : t.length = rootLength ∨ ∃ u, t = u ++ [slash]) (x : List Byte) :
    backUp (t ++ c ++ x) rootLength (t ++ c).length = t.length := by
  induction c using List.reverseRecOn generalizing x with
  | nil =>
      rw [List.append_nil]
      cases hlen : t.length with
      | zero => rfl
      | succ d =>
          rw [backUp, if_neg]
          rintro ⟨hgt, hne⟩
          rcases ht with heq | ⟨u, rfl⟩
          · omega
          · have hlast := pathAt_last u x slash
            rw [hlen] at hlast
            exact hne hlast
  | append_singleton c b ih =>
      have hb : b ≠ slash := by
        rintro rfl
        exact hc (by simp)
      have hat : pathAt (t ++ (c ++ [b]) ++ x) (t ++ c).length = b := by
        have hat := pathAt_append (t ++ c) (b :: x) 0
        have hassoc : t ++ (c ++ [b]) ++ x = t ++ c ++ b :: x := by simp
        rw [hassoc]
        exact hat
      have hlen : (t ++ (c ++ [b])).length = (t ++ c).length + 1 := by simp [Nat.add_assoc]
      have hgt : (t ++ c).length + 1 > rootLength := by
        rw [List.length_append]
        omega
      rw [hlen, backUp, if_pos ⟨hgt, by rw [hat]; exact hb⟩]
      have hrest := ih (fun h => hc (by simp [h])) (b :: x)
      rw [← hrest]
      simp

/-! ## The rounds -/

/-- Written components. -/
theorem textOf_nil (h : componentsOf p = []) (root : List Byte) : textOf root p = root := by
  rw [textOf, h, List.intercalate_nil, List.append_nil]

/-- `path_normalize` in the middle of its work: `done` has been read, and the text of a place
has been written in front of a gap. -/
structure Reached (root : List Byte) (p : Walks.Place (List Byte)) (done g rest : List Byte) (s : Scan) :
    Prop where
  scan : s = ⟨textOf root (shorten p) ++ g ++ rest, (textOf root (shorten p) ++ g).length,
    (textOf root (shorten p)).length⟩
  last : (textOf root (shorten p) ++ g).getLast? = done.getLast?
  size : (textOf root (shorten p) ++ g).length = done.length
  apart : componentsOf (shorten p) ≠ [] → (∀ b ∈ rest.head?, b = slash) ∨ g ≠ []
  names : ∀ c ∈ p.names, Plain c ∧ c ≠ dot ∧ c ≠ dots
  rooted : root ≠ [] → p.above = 0

/-- A root. -/
def IsRoot (root : List Byte) : Prop := root = [] ∨ root = [slash] ∨ root = [slash, slash]

theorem Reached.plain {root : List Byte} (h : Reached root p done g rest s) :
    ∀ c ∈ componentsOf (shorten p), Plain c := by
  intro c hc
  rcases List.mem_append.mp hc with hc | hc
  · rw [List.eq_of_mem_replicate hc]
    exact piece_dots
  · exact (h.names c hc).1

/-- What is read in the next places. -/
theorem Reached.next {root : List Byte} (h : Reached root p done g rest s) (i : Nat) :
    pathAt s.path (s.source + i) = pathAt rest i := by
  rw [h.scan]
  exact pathAt_append _ rest i

/-- Going on without writing. -/
theorem Reached.skip {root : List Byte} (h : Reached root p done g (x ++ rest) s) (hx : x ≠ []) :
    Reached root p (done ++ x) (g ++ x) rest { s with source := s.source + x.length } where
  scan := by
    rw [h.scan]
    simp [Nat.add_assoc]
  last := by
    rw [← List.append_assoc, List.getLast?_append_of_ne_nil _ hx, List.getLast?_append_of_ne_nil _ hx]
  size := by
    rw [← List.append_assoc, List.length_append, h.size, List.length_append]
  apart _ := .inr (List.append_ne_nil_of_right_ne_nil g hx)
  names := h.names
  rooted := h.rooted

/-- Behind a component comes a slash or the end. -/
theorem pathAt_behind (hr : ∀ b ∈ r.head?, b = slash) :
    pathAt r 0 = 0 ∧ r.take 1 = [] ∨ pathAt r 0 = slash ∧ r.take 1 = [slash] := by
  cases r with
  | nil => exact .inl ⟨rfl, rfl⟩
  | cons b r =>
      obtain rfl : b = slash := hr b rfl
      exact .inr ⟨rfl, rfl⟩

theorem ends_iff (b : Byte) : (b = 0 ∨ pathIsSeparator b = true) ↔ b = 0 ∨ b = slash := by
  rw [pathIsSeparator, decide_eq_true_iff]

theorem isDot_iff (hc : Plain c) (hr : ∀ b ∈ r.head?, b = slash) :
    (pathAt (c ++ r) 0 = period ∧
      (pathAt (c ++ r) 1 = 0 ∨ pathIsSeparator (pathAt (c ++ r) 1) = true)) ↔ c = dot := by
  rw [ends_iff]
  match c, hc with
  | [], hc => exact absurd rfl hc.ne_nil
  | [a], _ =>
      have hends : pathAt r 0 = 0 ∨ pathAt r 0 = slash := (pathAt_behind hr).imp And.left And.left
      exact ⟨fun h => congrArg ([·]) h.1, fun h => ⟨(List.cons.inj h).1, hends⟩⟩
  | a :: b :: c, hc =>
      refine iff_of_false (fun h => ?_) (fun h => nomatch h)
      rcases h.2 with hb | hb
      · exact hc.nozero (hb ▸ by simp [pathAt])
      · exact hc.noslash (hb ▸ by simp [pathAt])

theorem isDots_iff (hc : Plain c) (hr : ∀ b ∈ r.head?, b = slash) :
    (pathAt (c ++ r) 0 = period ∧ pathAt (c ++ r) 1 = period ∧
      (pathAt (c ++ r) 2 = 0 ∨ pathIsSeparator (pathAt (c ++ r) 2) = true)) ↔ c = dots := by
  rw [ends_iff]
  match c, hc with
  | [], hc => exact absurd rfl hc.ne_nil
  | [a], _ =>
      refine iff_of_false (fun h => ?_) (fun h => nomatch h)
      have hperiod : pathAt r 0 = period := h.2.1
      rcases pathAt_behind hr with hb | hb
      · exact absurd (hb.1.symm.trans hperiod) (by decide)
      · exact absurd (hb.1.symm.trans hperiod) (by decide)
  | [a, b], _ =>
      have hends : pathAt r 0 = 0 ∨ pathAt r 0 = slash := (pathAt_behind hr).imp And.left And.left
      constructor
      · rintro ⟨ha, hb, -⟩
        have ha' : a = period := ha
        have hb' : b = period := hb
        rw [ha', hb']
        rfl
      · rintro h
        obtain ⟨ha, hb⟩ := List.cons.inj h
        exact ⟨ha, (List.cons.inj hb).1, hends⟩
  | a :: b :: d :: c, hc =>
      refine iff_of_false (fun h => ?_) (fun h => nomatch h)
      rcases h.2.2 with hd | hd
      · exact hc.nozero (hd ▸ by simp [pathAt])
      · exact hc.noslash (hd ▸ by simp [pathAt])

/-- What follows a component up to the next one. -/
theorem parts_behind (hr : ∀ b ∈ r.head?, b = slash) : Walks.parts slash r = Walks.parts slash (r.drop 1) := by
  cases r with
  | nil => rfl
  | cons b r =>
      obtain rfl : b = slash := hr b rfl
      exact Walks.parts_cons_self

/-- What a round does at a component. -/
theorem round_eq {root : List Byte} (h : Reached root p done g (c ++ r) s) (hc : Plain c)
    (hr : ∀ b ∈ r.head?, b = slash) (k : Nat) :
    normalizeRound k s =
      if c = dot then { s with source := s.source + (c ++ r.take 1).length }
      else if c = dots then { s with source := s.source + (c ++ r.take 1).length }.up k
      else copyComponent s.path.length (s.separate k) := by
  have hfirst : pathIsSeparator (pathAt (c ++ r) 0) = false := by
    obtain ⟨b, c, rfl⟩ := List.exists_cons_of_ne_nil hc.ne_nil
    rw [pathIsSeparator, decide_eq_false_iff_not]
    exact fun heq => hc.noslash (List.mem_cons.mpr (.inl heq.symm))
  have hlen : ∀ n : Nat, c.length = n →
      (if pathAt (c ++ r) n = 0 then n else n + 1) = (c ++ r.take 1).length := by
    rintro n rfl
    have hat := pathAt_append c r 0
    rw [Nat.add_zero] at hat
    rw [hat, List.length_append]
    rcases pathAt_behind hr with ⟨hzero, htake⟩ | ⟨hslash, htake⟩
    · rw [if_pos hzero, htake]
      rfl
    · rw [hslash, if_neg (by decide), htake]
      rfl
  unfold normalizeRound
  simp only [h.next, hfirst, Bool.false_eq_true, if_false]
  by_cases hdot : c = dot
  · rw [if_pos ((isDot_iff hc hr).mpr hdot), if_pos hdot, hlen 1 (by rw [hdot]; rfl)]
  · rw [if_neg (mt (isDot_iff hc hr).mp hdot), if_neg hdot]
    by_cases hdots : c = dots
    · rw [if_pos ((isDots_iff hc hr).mpr hdots), if_pos hdots, hlen 2 (by rw [hdots]; rfl)]
    · rw [if_neg (mt (isDots_iff hc hr).mp hdots), if_neg hdots]

/-- **Going up** takes the last component away. -/
theorem Reached.pop {root : List Byte} {p' : Walks.Place (List Byte)} (h : Reached root p done g rest s)
    (hcs : componentsOf (shorten p) = cs ++ [c]) (hcs' : componentsOf (shorten p') = cs)
    (hnames : ∀ d ∈ p'.names, d ∈ p.names) (hrooted : root ≠ [] → p'.above = 0) :
    ∃ g', Reached root p' done g' rest (s.up root.length) := by
  have hc : Plain c := h.plain c (by rw [hcs]; simp)
  have hpos := List.length_pos_iff.mpr hc.ne_nil
  have hscan := h.scan
  have hlast := h.last
  have hsize := h.size
  have hkeep : ∀ g', textOf root (shorten p') ++ g' = textOf root (shorten p) ++ g → g' ≠ [] →
      s.up root.length = { s with destination := (textOf root (shorten p')).length } →
      Reached root p' done g' rest (s.up root.length) := by
    intro g' heq hg' hup
    refine ⟨?_, ?_, ?_, fun _ => .inr hg', fun d hd => h.names d (hnames d hd), hrooted⟩
    · rw [hup, hscan, heq]
    · rw [heq, hlast]
    · rw [heq, hsize]
  by_cases hnil : cs = []
  · subst hnil
    have htext : textOf root (shorten p) = root ++ c := by
      rw [textOf, hcs, List.nil_append, List.intercalate_singleton]
    have htext' : textOf root (shorten p') = root := textOf_nil hcs' root
    rw [htext] at hscan hkeep
    rw [htext'] at hkeep
    refine ⟨c ++ g, hkeep _ (List.append_assoc ..).symm (List.append_ne_nil_of_left_ne_nil hc.ne_nil g) ?_⟩
    have hback := backUp_eq (t := root) hc.noslash (Nat.le_refl _) (.inl rfl) (g ++ rest)
    have hgt : (root ++ c).length > root.length := by
      rw [List.length_append]
      omega
    rw [hscan, Scan.up, if_pos hgt]
    dsimp only
    rw [List.append_assoc (root ++ c), hback, if_neg (fun hlt => Nat.lt_irrefl _ hlt.1)]
  · have htext : textOf root (shorten p) = root ++ [slash].intercalate cs ++ [slash] ++ c := by
      rw [textOf, hcs, intercalate_concat hnil]
      simp
    have htext' : textOf root (shorten p') = root ++ [slash].intercalate cs := by rw [textOf, hcs']
    rw [htext] at hscan hkeep
    rw [htext'] at hkeep
    generalize hw : root ++ [slash].intercalate cs = w at hscan hkeep
    have hle : root.length ≤ w.length := by
      rw [← hw, List.length_append]
      omega
    refine ⟨slash :: c ++ g, hkeep _ (by simp) (List.cons_ne_nil _ _) ?_⟩
    have hlen : (w ++ [slash]).length = w.length + 1 := by
      rw [List.length_append, List.length_singleton]
    have hroot : root.length ≤ (w ++ [slash]).length := by omega
    have hback := backUp_eq hc.noslash hroot (.inr ⟨w, rfl⟩) (g ++ rest)
    have hgt : (w ++ [slash] ++ c).length > root.length := by
      rw [List.length_append]
      omega
    have hslash := pathAt_last w (c ++ (g ++ rest)) slash
    rw [← List.append_assoc] at hslash
    rw [hscan, Scan.up, if_pos hgt]
    dsimp only
    have hbehind : (w ++ [slash]).length > root.length := by omega
    rw [List.append_assoc (w ++ [slash] ++ c), hback, if_pos ⟨hbehind, hslash⟩, hlen,
      Nat.add_sub_cancel]

/-- **Going up from the start of a relative path** puts `..` there. -/
theorem Reached.push {p' : Walks.Place (List Byte)} (h : Reached [] p done g rest s)
    (hcs : componentsOf (shorten p) = []) (hcs' : componentsOf (shorten p') = [dots])
    (hnames : p'.names = []) (hg : 2 < g.length ∨ g = dots ∧ rest = []) :
    ∃ g', Reached [] p' done g' rest (s.up 0) := by
  have htext : textOf [] (shorten p) = [] := textOf_nil hcs []
  have htext' : textOf [] (shorten p') = dots := by
    rw [textOf, hcs', List.intercalate_singleton, List.nil_append]
  have hscan := h.scan
  have hlast := h.last
  have hsize := h.size
  rw [htext, List.nil_append] at hscan hlast hsize
  obtain ⟨a, b, g, rfl⟩ : ∃ a b g', g = a :: b :: g' := by
    match g, hg with
    | a :: b :: g, _ => exact ⟨a, b, g, rfl⟩
    | [], hg => exact absurd (hg.resolve_left (by simp)).1 (by simp [dots])
    | [_], hg => exact absurd (hg.resolve_left (by simp)).1 (by simp [dots])
  refine ⟨g, ⟨?_, ?_, ?_, fun _ => ?_, fun d hd => ?_, fun hne => absurd rfl hne⟩⟩
  · rw [hscan, htext', Scan.up, Scan.behindName, Scan.put, Scan.put]
    simp [dots]
  · rw [htext', ← hlast]
    rcases hg with hg | ⟨hg, -⟩
    · have hne : g ≠ [] := by
        rintro rfl
        simp at hg
      change (dots ++ g).getLast? = ([a, b] ++ g).getLast?
      rw [List.getLast?_append_of_ne_nil _ hne, List.getLast?_append_of_ne_nil _ hne]
    · rw [hg, (List.cons.inj (List.cons.inj hg).2).2, List.append_nil]
  · rw [htext', ← hsize]
    simp [dots, Nat.add_comm]
  · rcases hg with hg | ⟨-, rfl⟩
    · right
      rintro rfl
      simp at hg
    · exact .inl fun b hb => nomatch hb
  · rw [hnames] at hd
    cases hd

/-- **What `..` does**, when it has been read. -/
theorem Reached.up {root : List Byte} (h : Reached root p done (g ++ (dots ++ r.take 1)) (r.drop 1) s) :
    ∃ g', Reached root (p.go (root ≠ []) .up) done g' (r.drop 1) (s.up root.length) := by
  by_cases hnames : p.names = []
  · have hcs : componentsOf (shorten p) = List.replicate (p.above % 2) dots := by
      rw [componentsOf, shorten, hnames, List.append_nil]
    by_cases hroot : root = []
    · subst hroot
      have hgo : p.go (decide (([] : List Byte) ≠ [])) .up = ⟨p.above + 1, []⟩ := by
        simp [Walks.Place.go, hnames]
      rw [hgo]
      rcases Nat.mod_two_eq_zero_or_one p.above with hmod | hmod
      · have hmod' : (p.above + 1) % 2 = 1 := by omega
        rw [hmod] at hcs
        refine h.push hcs (by rw [componentsOf, shorten, hmod']; rfl) rfl ?_
        cases r with
        | nil =>
            rw [List.take_nil, List.append_nil]
            cases g with
            | nil => exact .inr ⟨rfl, rfl⟩
            | cons b g =>
                left
                simp [dots]
        | cons b r =>
            left
            simp [dots]
      · have hmod' : (p.above + 1) % 2 = 0 := by omega
        rw [hmod] at hcs
        have hcs' : componentsOf (shorten ⟨p.above + 1, []⟩) = [] := by
          rw [componentsOf, shorten, hmod']
          rfl
        exact h.pop hcs hcs' (fun d hd => by cases hd) (fun hne => absurd rfl hne)
    · have hgo : p.go (decide (root ≠ [])) .up = p := by
        simp [Walks.Place.go, hnames, hroot]
      rw [h.rooted hroot] at hcs
      have hscan := h.scan
      rw [textOf_nil hcs] at hscan
      have hup : s.up root.length = s := by
        rw [hscan, Scan.up, if_neg (Nat.lt_irrefl _), if_neg (by rwa [List.length_eq_zero_iff])]
      rw [hgo, hup]
      exact ⟨_, h⟩
  · obtain ⟨ns, n, hns⟩ := p.names.eq_nil_or_concat.resolve_left hnames
    rw [List.concat_eq_append] at hns
    have hgo : p.go (decide (root ≠ [])) .up = ⟨p.above, ns⟩ := by
      simp [Walks.Place.go, hns]
    rw [hgo]
    have hcs : componentsOf (shorten p) = componentsOf (shorten ⟨p.above, ns⟩) ++ [n] := by
      rw [componentsOf, componentsOf, shorten, shorten, hns, List.append_assoc]
    refine h.pop hcs rfl (fun d hd => ?_) h.rooted
    · rw [hns]
      exact List.mem_append_left _ hd

/-- In front of a name a slash is written, unless it is the first one. -/
theorem Reached.separate {root : List Byte} (hroot : IsRoot root)
    (h : Reached root p done g rest s) (hg : componentsOf (shorten p) ≠ [] → g ≠ []) :
    ∃ w g', s.separate root.length = ⟨w ++ g' ++ rest, (w ++ g').length, w.length⟩ ∧
      (w ++ g').length = done.length ∧
      ∀ n, [slash].intercalate (componentsOf (shorten p) ++ [n]) = (w ++ n).drop root.length ∧
        root ++ (w ++ n).drop root.length = w ++ n := by
  have hscan := h.scan
  by_cases hcs : componentsOf (shorten p) = []
  · have htext := textOf_nil hcs root
    rw [htext] at hscan
    have hbehind : s.behindName = false := by
      rw [hscan]
      rcases hroot with rfl | rfl | rfl
      · rfl
      · rfl
      · rfl
    refine ⟨root, g, ?_, by rw [← h.size, htext], fun n => ?_⟩
    · rw [Scan.separate, hbehind, if_neg (fun hand => Bool.false_ne_true hand.1), hscan]
    · rw [hcs, List.nil_append, List.intercalate_singleton, List.drop_left]
      exact ⟨rfl, rfl⟩
  · obtain ⟨u, b, hjoined, hb⟩ := joined_last h.plain hcs
    have htext : textOf root (shorten p) = root ++ u ++ [b] := by
      rw [textOf, hjoined, List.append_assoc]
    rw [htext] at hscan
    have hlast := pathAt_last (root ++ u) (g ++ rest) b
    rw [← List.append_assoc] at hlast
    have hbehind : s.behindName = true := by
      rw [hscan, Scan.behindName]
      dsimp only
      have hpos : (root ++ u ++ [b]).length > 0 := by
        rw [List.length_append, List.length_singleton]
        omega
      rw [hlast, decide_eq_true hb, decide_eq_true hpos]
      rfl
    have hgt : s.destination > root.length := by
      rw [hscan]
      simp only [List.length_append, List.length_singleton]
      omega
    have hput := put_eq (s := s) (congrArg Scan.path hscan) (hg hcs) (congrArg Scan.destination hscan) slash
    have hpos := List.length_pos_iff.mpr (hg hcs)
    have hlen : (root ++ u ++ [b] ++ [slash] ++ g.tail).length = (root ++ u ++ [b] ++ g).length := by
      simp only [List.length_append, List.length_singleton, List.length_tail]
      omega
    refine ⟨root ++ u ++ [b] ++ [slash], g.tail, ?_, by rw [hlen, ← h.size, htext], fun n => ?_⟩
    · rw [Scan.separate, if_pos ⟨hbehind, .inr (.inl hgt)⟩, hput, hlen]
      exact congrArg (Scan.mk _ · _) (congrArg Scan.source hscan)
    · rw [intercalate_concat hcs, hjoined]
      simp

/-- **Going down** writes a name. -/
theorem Reached.down {root : List Byte} (hroot : IsRoot root)
    (h : Reached root p done g (c ++ r) s) (hc : Plain c) (hdot : c ≠ dot) (hdots : c ≠ dots)
    (hr : ∀ b ∈ r.head?, b = slash) :
    ∃ g', Reached root ⟨p.above, p.names ++ [c]⟩ (done ++ c) g' r
      (copyComponent s.path.length (s.separate root.length)) := by
  have hfirst : ¬ ∀ b ∈ (c ++ r).head?, b = slash := by
    obtain ⟨b, c, rfl⟩ := List.exists_cons_of_ne_nil hc.ne_nil
    intro hall
    exact hc.noslash (List.mem_cons.mpr (.inl (hall b rfl).symm))
  obtain ⟨w, g', hsep, hsize, hjoin⟩ := h.separate hroot fun hcs => (h.apart hcs).resolve_left hfirst
  obtain ⟨hjoined, hwhole⟩ := hjoin c
  have hlen : c.length ≤ s.path.length := by
    rw [h.scan]
    simp only [List.length_append]
    omega
  have hcopy := copyComponent_eq (w := w) (g := g') (n := s.path.length) hc.noslash hc.nozero hr hlen
  have htext : textOf root (shorten ⟨p.above, p.names ++ [c]⟩) = w ++ c := by
    rw [textOf, componentsOf, shorten, ← List.append_assoc]
    change root ++ [slash].intercalate (componentsOf (shorten p) ++ [c]) = _
    rw [hjoined, hwhole]
  have hdrop : ((g' ++ c).drop c.length).length = g'.length := by
    rw [List.length_drop, List.length_append, Nat.add_sub_cancel]
  refine ⟨(g' ++ c).drop c.length, ⟨?_, ?_, ?_, fun _ => .inl hr, ?_, h.rooted⟩⟩
  · rw [hsep, hcopy, htext]
    simp only [List.length_append, hdrop]
    congr 1
    omega
  · rw [htext, List.getLast?_append_of_ne_nil _ hc.ne_nil]
    by_cases hnil : (g' ++ c).drop c.length = []
    · rw [hnil, List.append_nil, List.getLast?_append_of_ne_nil _ hc.ne_nil]
    · rw [List.getLast?_append_of_ne_nil _ hnil, List.getLast?_drop, if_neg,
        List.getLast?_append_of_ne_nil _ hc.ne_nil]
      rwa [← List.drop_eq_nil_iff]
  · rw [htext, List.length_append, List.length_append, hdrop, List.length_append, ← hsize,
      List.length_append]
    omega
  · intro d hd
    rcases List.mem_append.mp hd with hd | hd
    · exact h.names d hd
    · rw [List.mem_singleton.mp hd]
      exact ⟨hc, hdot, hdots⟩

/-- Where the rest of a path leads. -/
def onward (rooted : Bool) (p : Walks.Place (List Byte)) (rest : List Byte) : Walks.Place (List Byte) :=
  ((Walks.parts slash rest).map component).foldl (Walks.Place.go rooted) p

/-- **What a round does**: it reads something, and goes on by what it says. -/
theorem Reached.round {root : List Byte} (hroot : IsRoot root) (h : Reached root p done g rest s)
    (hne : rest ≠ []) (hzero : (0 : Byte) ∉ rest) :
    ∃ x r p' g', rest = x ++ r ∧ x ≠ [] ∧ Reached root p' (done ++ x) g' r (normalizeRound root.length s) ∧
      onward (root ≠ []) p rest = onward (root ≠ []) p' r := by
  obtain ⟨b, rest, rfl⟩ := List.exists_cons_of_ne_nil hne
  by_cases hb : b = slash
  · subst hb
    refine ⟨[slash], rest, p, g ++ [slash], rfl, List.cons_ne_nil _ _, ?_, ?_⟩
    · have hround : normalizeRound root.length s = { s with source := s.source + [slash].length } := by
        unfold normalizeRound
        simp only [h.next]
        exact if_pos rfl
      rw [hround]
      exact Reached.skip (x := [slash]) h (List.cons_ne_nil _ _)
    · rw [onward, onward, Walks.parts_cons_self]
  · -- a component, up to the next slash
    obtain ⟨c, r, hcr, hslash, hr, hcne⟩ : ∃ c r, b :: rest = c ++ r ∧ slash ∉ c ∧
        (∀ y ∈ r.head?, y = slash) ∧ c ≠ [] := by
      refine ⟨(b :: rest).takeWhile (· ≠ slash), (b :: rest).dropWhile (· ≠ slash),
        List.takeWhile_append_dropWhile.symm, fun hmem => ?_, fun y hy => ?_, ?_⟩
      · have hall := List.mem_takeWhile_imp hmem
        simp at hall
      · have hnot := List.head?_dropWhile_not (fun y : Byte => decide (y ≠ slash)) (b :: rest)
        rw [Option.mem_def.mp hy] at hnot
        simpa using hnot
      · rw [List.takeWhile_cons_of_pos (by simpa using hb)]
        exact List.cons_ne_nil _ _
    rw [hcr] at h hzero ⊢
    have hc : Plain c := ⟨hcne, hslash, fun hmem => hzero (List.mem_append_left _ hmem)⟩
    have hround := round_eq h hc hr root.length
    have honward : ∀ q : Walks.Place (List Byte), onward (root ≠ []) q (c ++ r) =
        onward (root ≠ []) (q.go (root ≠ []) (component c)) (r.drop 1) := by
      intro q
      rw [onward, Walks.parts_append hslash hcne hr, parts_behind hr]
      rfl
    have hsplit : c ++ r = (c ++ r.take 1) ++ r.drop 1 := by
      rw [List.append_assoc, List.take_append_drop]
    have hread : Reached root p (done ++ (c ++ r.take 1)) (g ++ (c ++ r.take 1)) (r.drop 1)
        { s with source := s.source + (c ++ r.take 1).length } := by
      rw [hsplit] at h
      exact h.skip (List.append_ne_nil_of_left_ne_nil hcne _)
    by_cases hdot : c = dot
    · rw [if_pos hdot] at hround
      refine ⟨c ++ r.take 1, r.drop 1, p, _, hsplit, List.append_ne_nil_of_left_ne_nil hcne _,
        hround ▸ hread, ?_⟩
      rw [honward, component, if_pos hdot]
      rfl
    · rw [if_neg hdot] at hround
      by_cases hdots : c = dots
      · rw [if_pos hdots] at hround
        have hup : ∃ g', Reached root (p.go (root ≠ []) .up) (done ++ (c ++ r.take 1)) g' (r.drop 1)
            (normalizeRound root.length s) := by
          rw [hround]
          subst hdots
          exact hread.up
        obtain ⟨g', hup⟩ := hup
        refine ⟨c ++ r.take 1, r.drop 1, _, g', hsplit, List.append_ne_nil_of_left_ne_nil hcne _,
          hup, ?_⟩
        rw [honward, component, if_neg hdot, if_pos hdots]
      · rw [if_neg hdots] at hround
        obtain ⟨g', hdown⟩ := h.down hroot hc hdot hdots hr
        refine ⟨c, r, _, g', rfl, hcne, hround ▸ hdown, ?_⟩
        rw [honward, component, if_neg hdot, if_neg hdots, onward, onward, parts_behind hr]
        rfl

/-! ## What is written in the end -/

/-- **The loop** reads the whole path. -/
theorem Reached.loop {root : List Byte} (hroot : IsRoot root) (h : Reached root p done g rest s)
    (hzero : (0 : Byte) ∉ rest) {f : Nat} (hf : rest.length < f) :
    ∃ g' s', normalizeLoop root.length f s = some s' ∧
      Reached root (onward (root ≠ []) p rest) (done ++ rest) g' [] s' := by
  induction f generalizing p done g rest s with
  | zero => omega
  | succ f ih =>
      have hat := h.next 0
      rw [Nat.add_zero] at hat
      rw [normalizeLoop, hat]
      by_cases hne : rest = []
      · subst hne
        refine ⟨g, s, if_neg (fun hzero => hzero rfl), ?_⟩
        rw [List.append_nil, onward, Walks.parts_nil]
        exact h
      · have hgo : pathAt rest 0 ≠ 0 := by
          obtain ⟨b, rest, rfl⟩ := List.exists_cons_of_ne_nil hne
          exact fun hb => hzero (List.mem_cons.mpr (.inl hb.symm))
        obtain ⟨x, r, p', g', rfl, hx, hround, honward⟩ := h.round hroot hne hzero
        have hlen := List.length_pos_iff.mpr hx
        rw [List.length_append] at hf
        obtain ⟨g'', s', hloop, hend⟩ := ih hround (fun hmem => hzero (List.mem_append_right _ hmem))
          (by omega)
        rw [if_pos hgo, honward]
        exact ⟨g'', s', hloop, by rw [← List.append_assoc]; exact hend⟩

theorem isRoot_pathRoot (path : List Byte) :
    IsRoot (pathRoot path) ∧ (pathRoot path).length = pathRootLength path := by
  match path with
  | [] => exact ⟨.inl rfl, rfl⟩
  | [b] =>
      by_cases hb : b = slash
      · subst hb
        exact ⟨.inr (.inl rfl), rfl⟩
      · have hlen : pathRootLength [b] = 0 := if_neg (by simpa [pathIsSeparator, pathAt] using hb)
        rw [pathRoot, hlen]
        exact ⟨.inl rfl, rfl⟩
  | b :: d :: path =>
      by_cases hb : b = slash
      · subst hb
        by_cases hd : d = slash
        · subst hd
          exact ⟨.inr (.inr rfl), rfl⟩
        · have hlen : pathRootLength (slash :: d :: path) = 1 := by
            refine (if_pos rfl).trans (if_neg ?_)
            simpa [pathIsSeparator, pathAt] using hd
          rw [pathRoot, hlen]
          exact ⟨.inr (.inl rfl), rfl⟩
      · have hlen : pathRootLength (b :: d :: path) = 0 :=
          if_neg (by simpa [pathIsSeparator, pathAt] using hb)
        rw [pathRoot, hlen]
        exact ⟨.inl rfl, rfl⟩

/-- What is written of a place in the end. -/
def written (root : List Byte) (p : Walks.Place (List Byte)) (trailing : Bool) : List Byte :=
  if root = [] ∧ componentsOf p = [] then dot
  else textOf root p ++ if trailing ∧ componentsOf p ≠ [] then [slash] else []

/-- The last byte. -/
theorem pathAt_getLast (hx : x ≠ []) : some (pathAt x (x.length - 1)) = x.getLast? := by
  have hpos := List.length_pos_iff.mpr hx
  rw [List.getLast?_eq_getElem?, pathAt, List.getD_eq_getElem?_getD,
    List.getElem?_eq_getElem (Nat.sub_lt hpos Nat.one_pos)]
  rfl

/-- **The end** of the work. -/
theorem Reached.finish {root : List Byte} (h : Reached root p done g [] s) (hne : done ≠ []) :
    s.finish root.length = written root (shorten p) (done.getLast? = some slash) ∧
      (written root (shorten p) (done.getLast? = some slash)).length ≤ done.length := by
  have hscan := h.scan
  have hlast := h.last
  have hsize := h.size
  have hpos := List.length_pos_iff.mpr hne
  rw [List.append_nil] at hscan
  by_cases hcs : componentsOf (shorten p) = []
  · have hwritten : written root (shorten p) (done.getLast? = some slash) =
        if root = [] then dot else root := by
      by_cases hroot : root = []
      · rw [written, if_pos ⟨hroot, hcs⟩, if_pos hroot]
      · rw [written, if_neg (fun hand => hroot hand.1), if_neg (fun hand => hand.2 hcs), if_neg hroot,
          List.append_nil, textOf_nil hcs]
    rw [textOf_nil hcs] at hscan hsize
    have hfirst : ¬ (s.source > 0 ∧ pathIsSeparator (pathAt s.path (s.source - 1)) = true ∧
        s.destination > root.length ∧ pathAt s.path (s.destination - 1) ≠ slash) := by
      rw [hscan]
      exact fun hand => Nat.lt_irrefl _ hand.2.2.1
    rw [hwritten, Scan.finish, if_neg hfirst]
    by_cases hroot : root = []
    · subst hroot
      have hg : g ≠ [] := by
        rintro rfl
        rw [← hsize] at hpos
        exact Nat.lt_irrefl _ hpos
      obtain ⟨b, g, rfl⟩ := List.exists_cons_of_ne_nil hg
      rw [hscan]
      exact ⟨rfl, hpos⟩
    · have hdest : s.destination ≠ 0 := by
        rw [hscan]
        exact fun hzero => hroot (List.length_eq_zero_iff.mp hzero)
      rw [if_neg hdest, if_neg hroot, hscan]
      refine ⟨List.take_left .., ?_⟩
      rw [← hsize, List.length_append]
      omega
  · obtain ⟨u, b, hjoined, hb⟩ := joined_last h.plain hcs
    have htext : textOf root (shorten p) = root ++ u ++ [b] := by
      rw [textOf, hjoined, List.append_assoc]
    have hwritten : written root (shorten p) (done.getLast? = some slash) =
        root ++ u ++ [b] ++ if done.getLast? = some slash then [slash] else [] := by
      rw [written, if_neg (fun hand => hcs hand.2), htext]
      refine congrArg _ (if_congr ?_ rfl rfl)
      rw [decide_eq_true_iff]
      exact and_iff_left hcs
    rw [htext] at hscan hlast hsize
    have hgt : s.destination > root.length := by
      rw [hscan]
      simp only [List.length_append, List.length_singleton]
      omega
    have hbehind : pathAt s.path (s.destination - 1) ≠ slash := by
      rw [hscan]
      exact fun heq => hb ((pathAt_last (root ++ u) g b).symm.trans heq)
    have hread : pathIsSeparator (pathAt s.path (s.source - 1)) = true ↔ done.getLast? = some slash := by
      have hat := pathAt_getLast (x := root ++ u ++ [b] ++ g) (by simp)
      rw [pathIsSeparator, decide_eq_true_iff, ← hlast, ← hat, Option.some_inj, hscan]
    have hsource : s.source > 0 := by
      rw [hscan]
      dsimp only
      rw [hsize]
      exact hpos
    have hdest : s.destination ≠ 0 := by omega
    rw [hwritten, Scan.finish]
    by_cases htrailing : done.getLast? = some slash
    · have hg : g ≠ [] := by
        rintro rfl
        rw [List.append_nil, List.getLast?_concat, htrailing] at hlast
        exact hb (Option.some.inj hlast)
      have hpath : s.path = root ++ u ++ [b] ++ g ++ [] := by rw [List.append_nil, hscan]
      have hput := put_eq hpath hg (congrArg Scan.destination hscan) slash
      have hgpos := List.length_pos_iff.mpr hg
      have hfirst : s.source > 0 ∧ pathIsSeparator (pathAt s.path (s.source - 1)) = true ∧
          s.destination > root.length ∧ pathAt s.path (s.destination - 1) ≠ slash :=
        ⟨hsource, hread.mpr htrailing, hgt, hbehind⟩
      rw [if_pos hfirst, if_pos htrailing, hput, if_neg (by simp)]
      refine ⟨?_, ?_⟩
      · rw [List.append_nil]
        exact List.take_left ..
      · rw [← hsize]
        simp only [List.length_append, List.length_singleton]
        omega
    · have hfirst : ¬ (s.source > 0 ∧ pathIsSeparator (pathAt s.path (s.source - 1)) = true ∧
          s.destination > root.length ∧ pathAt s.path (s.destination - 1) ≠ slash) :=
        fun hand => htrailing (hread.mp hand.2.1)
      rw [if_neg hfirst, if_neg htrailing, List.append_nil, if_neg hdest, hscan]
      refine ⟨List.take_left .., ?_⟩
      rw [← hsize]
      simp only [List.length_append]
      omega

/-- **What `path_normalize` leaves** of a path. -/
theorem pathNormalize_eq (hne : path ≠ []) (hzero : (0 : Byte) ∉ path) :
    pathNormalize path =
      some (written (pathRoot path) (shorten (place path)) (path.getLast? = some slash)) ∧
    (written (pathRoot path) (shorten (place path)) (path.getLast? = some slash)).length ≤
      path.length ∧
    ∀ c ∈ (place path).names, Plain c ∧ c ≠ dot ∧ c ≠ dots := by
  obtain ⟨hroot, hlen⟩ := isRoot_pathRoot path
  have hsplit : pathRoot path ++ path.drop (pathRootLength path) = path :=
    List.take_append_drop _ path
  have hstart : Reached (pathRoot path) .start (pathRoot path) [] (path.drop (pathRootLength path))
      ⟨path, pathRootLength path, pathRootLength path⟩ := by
    have htext : textOf (pathRoot path) (shorten .start) = pathRoot path := textOf_nil rfl _
    refine ⟨?_, ?_, ?_, fun h => absurd rfl h, (fun c hc => nomatch hc), fun _ => rfl⟩
    · rw [htext, List.append_nil, hsplit, hlen]
    · rw [htext, List.append_nil]
    · rw [htext, List.append_nil]
  have hle : (path.drop (pathRootLength path)).length < path.length + 1 := by
    rw [List.length_drop]
    omega
  obtain ⟨g, s, hloop, hend⟩ := hstart.loop hroot
    (fun hmem => hzero (List.mem_of_mem_drop hmem)) hle
  rw [hlen] at hloop
  rw [hsplit] at hend
  have hplace : onward (pathRoot path ≠ []) .start (path.drop (pathRootLength path)) = place path := by
    have hrooted : decide (pathRoot path ≠ []) = decide (pathRootLength path ≠ 0) := by
      rw [← hlen]
      exact decide_eq_decide.mpr (not_congr List.length_eq_zero_iff.symm)
    rw [hrooted]
    rfl
  rw [hplace] at hend
  obtain ⟨hfinish, hle'⟩ := hend.finish hne
  rw [hlen] at hfinish
  refine ⟨?_, hle', hend.names⟩
  rw [pathNormalize, if_neg hne]
  dsimp only
  rw [hloop]
  exact congrArg some hfinish

/-! ## What is written is read again -/

theorem pathRoot_append {root : List Byte} (hroot : IsRoot root) (hx : ∀ b ∈ x.head?, b ≠ slash) :
    pathRoot (root ++ x) = root ∧ pathRootLength (root ++ x) = root.length := by
  have hhead : pathIsSeparator (pathAt x 0) = false := by
    rw [pathIsSeparator, decide_eq_false_iff_not]
    cases x with
    | nil => exact fun h => absurd h (by decide)
    | cons b x => exact hx b rfl
  have hlen : pathRootLength (root ++ x) = root.length := by
    rcases hroot with rfl | rfl | rfl
    · exact if_neg (by rw [List.nil_append, hhead]; exact Bool.false_ne_true)
    · refine (if_pos rfl).trans (if_neg ?_)
      change ¬ pathIsSeparator (pathAt x 0) = true
      rw [hhead]
      exact Bool.false_ne_true
    · rfl
  refine ⟨?_, hlen⟩
  rw [pathRoot, hlen, List.take_left]

/-- Joined components start with a byte that is no slash. -/
theorem joined_head (hcs : ∀ c ∈ cs, Plain c) (x : List Byte) (h : cs ≠ []) :
    ∀ b ∈ ([slash].intercalate cs ++ x).head?, b ≠ slash := by
  obtain ⟨c, cs, rfl⟩ := List.exists_cons_of_ne_nil h
  have hc := hcs c List.mem_cons_self
  obtain ⟨b, c, rfl⟩ := List.exists_cons_of_ne_nil hc.ne_nil
  rw [List.intercalate_cons_cons_left]
  intro d hd
  obtain rfl : b = d := Option.some.inj hd
  rintro rfl
  exact hc.noslash List.mem_cons_self

theorem joined_zero (hcs : ∀ c ∈ cs, Plain c) : (0 : Byte) ∉ [slash].intercalate cs := by
  induction cs with
  | nil => exact List.not_mem_nil
  | cons c cs ih =>
      have hc := (hcs c List.mem_cons_self).nozero
      have hrest := ih fun d hd => hcs d (List.mem_cons_of_mem _ hd)
      cases cs with
      | nil =>
          rw [List.intercalate_singleton]
          exact hc
      | cons d cs =>
          rw [List.intercalate_cons_cons]
          simp only [List.mem_append, List.mem_singleton]
          rintro ((h | h) | h)
          · exact hc h
          · exact absurd h (by decide)
          · exact hrest h

/-- A place that can be written: its names are names, and nothing is above a root. -/
structure Spellable (root : List Byte) (p : Walks.Place (List Byte)) : Prop where
  isRoot : IsRoot root
  names : ∀ c ∈ p.names, Plain c ∧ c ≠ dot ∧ c ≠ dots
  rooted : root ≠ [] → p.above = 0

theorem Spellable.plain {root : List Byte} (h : Spellable root p) : ∀ c ∈ componentsOf p, Plain c := by
  intro c hc
  rcases List.mem_append.mp hc with hc | hc
  · rw [List.eq_of_mem_replicate hc]
    exact piece_dots
  · exact (h.names c hc).1

/-- The components of a place say where it is. -/
theorem walk_components {root : List Byte} (h : Spellable root p) :
    Walks.walk (root ≠ []) ((componentsOf p).map component) = p := by
  have hsteps : (componentsOf p).map component = p.steps := by
    rw [componentsOf, List.map_append, List.map_replicate]
    refine congrArg (_ ++ ·) (List.map_congr_left fun c hc => ?_)
    obtain ⟨-, hdot, hdots⟩ := h.names c hc
    rw [component, if_neg hdot, if_neg hdots]
  rw [hsteps]
  exact Walks.walk_steps fun hrooted => h.rooted (of_decide_eq_true hrooted)

/-- **What is written of a place** leads there. -/
theorem written_again {root : List Byte} (h : Spellable root p) (t : Bool) :
    pathRoot (written root p t) = root ∧ pathRootLength (written root p t) = root.length ∧
    Walks.parts slash ((written root p t).drop root.length) =
      (if root = [] ∧ componentsOf p = [] then [dot] else componentsOf p) ∧
    (written root p t ≠ [] ∧ (0 : Byte) ∉ written root p t) ∧
    place (written root p t) = p ∧
    written root p ((written root p t).getLast? = some slash) = written root p t := by
  by_cases hcs : componentsOf p = []
  · have habove : p = .start := by
      obtain ⟨hups, hnames⟩ := List.append_eq_nil_iff.mp hcs
      obtain ⟨above, names⟩ := p
      rw [List.replicate_eq_nil_iff] at hups
      exact congrArg₂ Walks.Place.mk hups hnames
    subst habove
    by_cases hroot : root = []
    · subst hroot
      have hdot : written [] .start t = dot := if_pos ⟨rfl, rfl⟩
      rw [hdot]
      exact ⟨rfl, rfl, by decide, by decide, by decide, rfl⟩
    · have hwritten : ∀ t, written root .start t = root := by
        intro t
        rw [written, if_neg (fun hand => hroot hand.1), if_neg (fun hand => hand.2 rfl),
          List.append_nil, textOf_nil rfl]
      rw [hwritten, hwritten, if_neg (fun hand => hroot hand.1)]
      rcases h.isRoot.resolve_left hroot with rfl | rfl
      · exact ⟨rfl, rfl, by decide, by decide, by decide, rfl⟩
      · exact ⟨rfl, rfl, by decide, by decide, by decide, rfl⟩
  · have hwritten : ∀ t : Bool, written root p t =
        root ++ ([slash].intercalate (componentsOf p) ++ if t then [slash] else []) := by
      intro t
      rw [written, if_neg (fun hand => hcs hand.2), textOf, List.append_assoc]
      refine congrArg (fun y => root ++ ([slash].intercalate (componentsOf p) ++ y)) ?_
      exact if_congr (and_iff_left hcs) rfl rfl
    have hhead := joined_head h.plain (if t then [slash] else []) hcs
    obtain ⟨hroot, hlen⟩ := pathRoot_append h.isRoot hhead
    have hparts : Walks.parts slash ([slash].intercalate (componentsOf p) ++ if t then [slash] else []) =
        componentsOf p := by
      have hjoined : Walks.parts slash ([slash].intercalate (componentsOf p)) = componentsOf p :=
        Walks.parts_intercalate fun c hc => ⟨(h.plain c hc).noslash, (h.plain c hc).ne_nil⟩
      cases t with
      | false =>
          rw [if_neg Bool.false_ne_true, List.append_nil]
          exact hjoined
      | true =>
          rw [if_pos rfl, Walks.parts_append_cons, hjoined, Walks.parts_nil, List.append_nil]
    have hresolved : (if root = [] ∧ componentsOf p = [] then [dot] else componentsOf p) =
        componentsOf p := if_neg fun hand => hcs hand.2
    obtain ⟨u, b, hjoined, hb⟩ := joined_last h.plain hcs
    rw [hresolved, hwritten t, hlen, List.drop_left, hparts]
    refine ⟨hroot, rfl, rfl, ⟨?_, ?_⟩, ?_, ?_⟩
    · rw [hjoined]
      simp
    · simp only [List.mem_append]
      rintro (hmem | hmem | hmem)
      · rcases h.isRoot with rfl | rfl | rfl
        · cases hmem
        · exact absurd hmem (by decide)
        · exact absurd hmem (by decide)
      · exact joined_zero h.plain hmem
      · cases t
        · cases hmem
        · exact absurd hmem (by decide)
    · rw [place, hlen, List.drop_left, hparts]
      have hrooted : decide (root.length ≠ 0) = decide (root ≠ []) :=
        decide_eq_decide.mpr (not_congr List.length_eq_zero_iff)
      rw [hrooted]
      exact walk_components h
    · rw [hwritten, hjoined]
      refine congrArg (fun y => root ++ (u ++ [b] ++ y)) (if_congr ?_ rfl rfl)
      rw [decide_eq_true_iff]
      cases t with
      | true =>
          rw [if_pos rfl, ← List.append_assoc, List.getLast?_concat]
          exact iff_of_true rfl rfl
      | false =>
          rw [if_neg Bool.false_ne_true, List.append_nil, ← List.append_assoc, List.getLast?_concat]
          exact iff_of_false (fun heq => hb (Option.some.inj heq)) Bool.false_ne_true

/-- A path resolves to one with the same place exactly if that has at most one `..` in front. -/
theorem shorten_eq_iff : shorten p = p ↔ p.above ≤ 1 := by
  obtain ⟨above, names⟩ := p
  rw [shorten, Walks.Place.mk.injEq, and_iff_left rfl]
  dsimp only
  omega

/-- Two places are written alike only if as many `..` are in front. -/
theorem shorten_components {root : List Byte}
    (h : (if root = [] ∧ componentsOf (shorten p) = [] then [dot] else componentsOf (shorten p)) =
      if root = [] ∧ componentsOf p = [] then [dot] else componentsOf p) : p.above ≤ 1 := by
  by_contra habove
  obtain ⟨k, hk⟩ : ∃ k, p.above = k + 2 := ⟨p.above - 2, by omega⟩
  have hcs : componentsOf p = dots :: dots :: (List.replicate k dots ++ p.names) := by
    rw [componentsOf, hk]
    rfl
  rw [if_neg (fun hand : root = [] ∧ componentsOf p = [] => by rw [hcs] at hand; cases hand.2)] at h
  split at h
  · rw [hcs] at h
    cases h
  · have hlen := congrArg List.length h
    rw [componentsOf, componentsOf, shorten, List.length_append, List.length_append,
      List.length_replicate, List.length_replicate] at hlen
    dsimp only at hlen
    omega

theorem resolution_eq (hlen : (pathRoot path).length = pathRootLength path) :
    resolution path = if pathRoot path = [] ∧ componentsOf (place path) = [] then [dot]
      else componentsOf (place path) := by
  rw [resolution]
  refine if_congr (and_congr_left fun _ => ?_) rfl rfl
  rw [← hlen, List.length_eq_zero_iff]

/-- **When `path_normalize` resolves a path**: exactly if the lexical resolution has at most
one `..` in front.  That it does not get longer and that normalising it again changes nothing
holds always. -/
theorem path_normalize_resolves_iff (hne : path ≠ []) (hzero : (0 : Byte) ∉ path) :
    (∃ result, pathNormalize path = some result ∧ Normalized path result) ↔
      (place path).above ≤ 1 := by
  obtain ⟨heq, hle, hnames⟩ := pathNormalize_eq hne hzero
  obtain ⟨hroot, hlen⟩ := isRoot_pathRoot path
  have hrooted : pathRoot path ≠ [] → (place path).above = 0 := by
    intro hroot
    rw [Ne, ← List.length_eq_zero_iff, hlen] at hroot
    rw [place, decide_eq_true hroot]
    exact Walks.above_eq_zero _
  have hspell : Spellable (pathRoot path) (shorten (place path)) :=
    ⟨hroot, hnames, fun h => by rw [shorten, hrooted h]⟩
  obtain ⟨hroot', -, hparts, ⟨hne', hzero'⟩, hplace, hagain⟩ :=
    written_again hspell (path.getLast? = some slash)
  generalize hresult : written (pathRoot path) (shorten (place path)) (path.getLast? = some slash) = result
    at *
  have hidem : pathNormalize result = some result := by
    obtain ⟨heq', -, -⟩ := pathNormalize_eq hne' hzero'
    have htwice : shorten (shorten (place path)) = shorten (place path) :=
      shorten_eq_iff.mpr (Nat.lt_succ_iff.mp (Nat.mod_lt _ Nat.two_pos))
    rw [hroot', hplace, htwice, hagain] at heq'
    exact heq'
  have hresolved : Walks.parts slash (result.drop (pathRootLength path)) = resolution path ↔
      (place path).above ≤ 1 := by
    rw [← hlen, hparts, resolution_eq hlen]
    exact ⟨shorten_components, fun habove => by rw [shorten_eq_iff.mpr habove]⟩
  constructor
  · rintro ⟨result', hsome, hnorm⟩
    rw [heq] at hsome
    obtain rfl := Option.some.inj hsome
    exact hresolved.mp hnorm.components
  · exact fun habove => ⟨result, heq, hroot', hresolved.mpr habove, hidem, hle⟩

instance (path result : List Byte) : Decidable (Normalized path result) :=
  decidable_of_iff (pathRoot result = pathRoot path ∧
      Walks.parts slash (result.drop (pathRootLength path)) = resolution path ∧
      pathNormalize result = some result ∧ result.length ≤ path.length)
    ⟨fun ⟨hroot, hcs, hagain, hle⟩ => ⟨hroot, hcs, hagain, hle⟩,
      fun h => ⟨h.root, h.components, h.again, h.length⟩⟩

/-- The path `/a/./b/../c/`. -/
theorem path_normalize_resolves_dots :
    ∃ result, pathNormalize [0x2f, 0x61, 0x2f, 0x2e, 0x2f, 0x62, 0x2f, 0x2e, 0x2e, 0x2f, 0x63, 0x2f] =
      some result ∧
      Normalized [0x2f, 0x61, 0x2f, 0x2e, 0x2f, 0x62, 0x2f, 0x2e, 0x2e, 0x2f, 0x63, 0x2f] result :=
  (path_normalize_resolves_iff (by decide) (by decide)).mpr (by decide)

/-- The path `../..` becomes a dot. -/
theorem path_normalize_loses_dots :
    ¬ ∃ result, pathNormalize [0x2e, 0x2e, 0x2f, 0x2e, 0x2e] = some result ∧
      Normalized [0x2e, 0x2e, 0x2f, 0x2e, 0x2e] result := by
  rintro ⟨result, hsome, hnorm⟩
  have hdot : pathNormalize [0x2e, 0x2e, 0x2f, 0x2e, 0x2e] = some dot := by decide
  rw [hdot] at hsome
  obtain rfl := Option.some.inj hsome
  exact absurd hnorm.components (by decide)

end Emacs.Paths
