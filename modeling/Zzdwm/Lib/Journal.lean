import Mathlib

/-!
# Journals of edits

A text with a cursor in it is edited at the cursor, and a journal keeps a record
of every edit.  Only a record that starts a *stretch* of edits says where in the
text it belongs; the others go on from where the one before left the cursor.  To
undo a journal its stretches are played last first, and the records within a
stretch first to last; to redo it all records are played in order.

Deletion never takes the last element of a text, and a deletion that is asked
to goes into the journal all the same (`Performs.past`).  Playing such a journal
back leaves that much more at the end of the text, which is why everything here
is stable under what is appended at the end (`Carries.frame`).

* `prefix_of_pos` — a position determines what is left of it;
* `Undoes.playBack`, `Redoes.play` — a device that can seek, insert and delete
  plays a journal back, and forth;
* `Writing.carries` — a journal that is kept while editing carries the old text
  to the new one and back;
* `Carries.merge` — an insertion where the last one ended may be added to its
  record.
-/

namespace Journal

variable {A R S : Type}

/-- A text, and the cursor between its two parts. -/
structure Zipper (A : Type) where
  left : List A
  right : List A
  deriving DecidableEq

namespace Zipper

def text (z : Zipper A) : List A := z.left ++ z.right

/-- The cursor ends up behind what is inserted. -/
def insert (w : List A) (z : Zipper A) : Zipper A := ⟨z.left ++ w, z.right⟩

/-- Delete `n` elements, or as many as there are before the last one. -/
def delete (n : Nat) (z : Zipper A) : Zipper A :=
  ⟨z.left, z.right.drop (min n (z.right.length - 1))⟩

theorem delete_of_lt {l x : List A} {n : Nat} (h : n < x.length) :
    delete n ⟨l, x⟩ = ⟨l, x.drop n⟩ := by
  have hmin : min n (x.length - 1) = n := by omega
  change (⟨l, x.drop (min n (x.length - 1))⟩ : Zipper A) = _
  rw [hmin]

theorem delete_zero (z : Zipper A) : z.delete 0 = z := by
  rw [delete, Nat.zero_min, List.drop_zero]

/-- Deleting twice is deleting so many at once. -/
theorem delete_delete (z : Zipper A) (m n : Nat) : (z.delete m).delete n = z.delete (m + n) := by
  have hlen : min m (z.right.length - 1) + min n (z.right.length - min m (z.right.length - 1) - 1) =
      min (m + n) (z.right.length - 1) := by omega
  unfold delete
  dsimp only
  rw [List.length_drop, List.drop_drop, hlen]

end Zipper

/-! ## Positions -/

section Position

variable (brk : A → Bool)

/-- The number of breaks in the text left of a cursor. -/
def row (l : List A) : Nat := l.countP brk

/-- The number of elements since the last break. -/
def col (l : List A) : Nat := (l.reverse.takeWhile fun a => !brk a).length

variable {brk}

theorem row_append (l v : List A) : row brk (l ++ v) = row brk l + row brk v :=
  List.countP_append

theorem col_append_of_row {l v : List A} (h : row brk v = 0) :
    col brk (l ++ v) = col brk l + v.length := by
  have hall : ∀ a ∈ v.reverse, (!brk a) = true := by
    intro a ha
    have := List.countP_eq_zero.mp h a (List.mem_reverse.mp ha)
    simpa using this
  rw [col, List.reverse_append, List.takeWhile_append_of_pos hall, List.length_append,
    List.length_reverse, Nat.add_comm]
  rfl

theorem row_eq_zero {l : List A} (h : ∀ a ∈ l, brk a = false) : row brk l = 0 :=
  List.countP_eq_zero.mpr fun a ha => by simp [h a ha]

theorem col_of_row {l : List A} (h : row brk l = 0) : col brk l = l.length := by
  have hcol := col_append_of_row (l := []) h
  rwa [List.nil_append, show col brk ([] : List A) = 0 from rfl, Nat.zero_add] at hcol

/-- Columns are counted from the last break. -/
theorem col_append_break {l v : List A} {b : A} (hb : brk b = true) :
    col brk (l ++ b :: v) = col brk v := by
  have hstop : (b :: l.reverse).takeWhile (fun a => !brk a) = [] := by
    rw [List.takeWhile_cons_of_neg (by simp [hb])]
  have hrev : (l ++ b :: v).reverse = v.reverse ++ b :: l.reverse := by simp
  rw [col, hrev]
  by_cases hall : ∀ a ∈ v.reverse, (!brk a) = true
  · rw [List.takeWhile_append_of_pos hall, hstop, List.append_nil, col,
      List.takeWhile_eq_self_iff.mpr hall]
  · rw [col, List.takeWhile_append, if_neg]
    intro hlen
    refine hall ?_
    have hself : v.reverse.takeWhile (fun a => !brk a) = v.reverse :=
      (List.takeWhile_prefix _).eq_of_length hlen
    exact List.takeWhile_eq_self_iff.mp hself

theorem row_break {l v : List A} {b : A} (hb : brk b = true) :
    row brk (l ++ b :: v) = row brk l + 1 + row brk v := by
  rw [row, List.countP_append, List.countP_cons, if_pos hb, row, row]
  omega

/-- **Positions.**  Two prefixes of one text that lie in one row are as far apart
as their columns are. -/
theorem prefix_of_pos {l x p y : List A} {n : Nat} (htext : p ++ y = l ++ x)
    (hrow : row brk p = row brk l) (hcol : col brk p = col brk l + n) :
    p = l ++ x.take n := by
  rcases List.append_eq_append_iff.mp htext with ⟨v, hl, hy⟩ | ⟨v, hp, hx⟩
  · rw [hl, row_append] at hrow
    have hv : row brk v = 0 := by omega
    rw [hl, col_append_of_row hv] at hcol
    have hnil : v = [] := List.eq_nil_of_length_eq_zero (by omega)
    have hn : n = 0 := by omega
    rw [hl, hn, hnil, List.append_nil, List.take_zero, List.append_nil]
  · rw [hp, row_append] at hrow
    have hv : row brk v = 0 := by omega
    rw [hp, col_append_of_row hv] at hcol
    have hn : n = v.length := by omega
    rw [hp, hx, hn, List.take_left]

end Position

/-! ## Records -/

/-- What a record says: nothing but where the cursor is, that `n` elements were
deleted and which, or that `n` elements were inserted and which. -/
inductive Act (A : Type)
  | move
  | del (n : Nat) (w : List A)
  | ins (n : Nat) (w : List A)

namespace Act

/-- Take the act back at the cursor: a deletion by its words, an insertion by its
number. -/
def undo : Act A → Zipper A → Zipper A
  | move, z => z
  | del _ w, z => z.insert w
  | ins n _, z => z.delete n

/-- The act that takes it back is done again as this one is taken back. -/
def flip : Act A → Act A
  | move => move
  | del n w => ins n w
  | ins n w => del n w

/-- Do the act again at the cursor. -/
def redo (a : Act A) : Zipper A → Zipper A := a.flip.undo

/-- The words of a deletion. -/
def dels : Act A → List A
  | del _ w => w
  | _ => []

/-- The number of an insertion. -/
def taken : Act A → Nat
  | ins n _ => n
  | _ => 0

/-- **One act**: its words come up left of the cursor, its number of elements goes
away right of it. -/
theorem undo_of_lt {a : Act A} {l x : List A} (h : a.taken < x.length) :
    a.undo ⟨l, x⟩ = ⟨l ++ a.dels, x.drop a.taken⟩ := by
  cases a with
  | move => simp [undo, dels, taken]
  | del n w => simp [undo, dels, taken, Zipper.insert]
  | ins n w =>
      have hn : n < x.length := h
      rw [undo, Zipper.delete_of_lt hn]
      simp [dels, taken]

/-- The number is that of the words. -/
def Sized : Act A → Prop
  | move => True
  | del n w | ins n w => n = w.length

end Act

/-- A record of the journal. -/
structure Rec (A : Type) where
  pos : Option (Nat × Nat)
  act : Act A

/-- All that is deleted by some acts. -/
def dels (as : List (Act A)) : List A := as.flatMap Act.dels
/-- The number of elements that are inserted by some acts. -/
def taken (as : List (Act A)) : Nat := (as.map Act.taken).sum
/-- All that is inserted by some acts. -/
def inss (as : List (Act A)) : List A := dels (as.map Act.flip)
/-- The number of elements that are deleted by some acts. -/
def removed (as : List (Act A)) : Nat := taken (as.map Act.flip)

@[simp] theorem dels_cons (a : Act A) (as : List (Act A)) : dels (a :: as) = a.dels ++ dels as :=
  List.flatMap_cons

@[simp] theorem taken_cons (a : Act A) (as : List (Act A)) :
    taken (a :: as) = a.taken + taken as := List.sum_cons

@[simp] theorem dels_nil : dels ([] : List (Act A)) = [] := rfl

@[simp] theorem taken_nil : taken ([] : List (Act A)) = 0 := rfl

@[simp] theorem dels_append (as bs : List (Act A)) : dels (as ++ bs) = dels as ++ dels bs :=
  List.flatMap_append

@[simp] theorem taken_append (as bs : List (Act A)) : taken (as ++ bs) = taken as + taken bs := by
  rw [taken, List.map_append, List.sum_append]
  rfl

@[simp] theorem inss_append (as bs : List (Act A)) : inss (as ++ bs) = inss as ++ inss bs := by
  rw [inss, List.map_append, dels_append]
  rfl

@[simp] theorem removed_append (as bs : List (Act A)) :
    removed (as ++ bs) = removed as + removed bs := by
  rw [removed, List.map_append, taken_append]
  rfl

/-- Taking back some acts in their order: the words of the deletions come up left
of the cursor, and the insertions go away right of it. -/
theorem foldl_undo (as : List (Act A)) (z : Zipper A) :
    as.foldl (fun z a => a.undo z) z = (z.delete (taken as)).insert (dels as) := by
  induction as generalizing z with
  | nil => rw [List.foldl_nil, taken_nil, dels_nil, Zipper.delete_zero, Zipper.insert, List.append_nil]
  | cons a as ih =>
      rw [List.foldl_cons, ih, taken_cons, dels_cons]
      cases a with
      | move => simp [Act.undo, Act.taken, Act.dels]
      | del n w => simp [Act.undo, Act.taken, Act.dels, Zipper.delete, Zipper.insert]
      | ins n w => simp [Act.undo, Act.taken, Act.dels, Zipper.delete_delete]

/-- Some records of which the first and no other has a position, that of a cursor. -/
def Stretch (brk : A → Bool) (l : List A) (rs : List (Rec A)) : Prop :=
  ∃ r rest, rs = r :: rest ∧ r.pos = some (row brk l, col brk l) ∧ ∀ x ∈ rest, x.pos = none

theorem Stretch.snoc {brk : A → Bool} {l : List A} {rs : List (Rec A)} {r : Rec A}
    (h : Stretch brk l rs) (hr : r.pos = none) : Stretch brk l (rs ++ [r]) := by
  obtain ⟨r₀, rest, rfl, hpos, hrest⟩ := h
  refine ⟨r₀, rest ++ [r], rfl, hpos, fun x hx => ?_⟩
  rcases List.mem_append.mp hx with hx | hx
  · exact hrest x hx
  · rw [List.mem_singleton.mp hx, hr]

theorem Stretch.singleton {brk : A → Bool} {l : List A} {r : Rec A}
    (h : r.pos = some (row brk l, col brk l)) : Stretch brk l [r] :=
  ⟨r, [], rfl, h, fun _ hx => absurd hx List.not_mem_nil⟩

/-! ## Playing a journal -/

theorem forall₂_split {P : R → Rec A → Prop} {vs : List R} {us rs : List (Rec A)}
    (h : List.Forall₂ P vs (us ++ rs)) :
    ∃ ws xs, List.Forall₂ P ws us ∧ List.Forall₂ P xs rs ∧ vs = ws ++ xs :=
  ⟨vs.take us.length, vs.drop us.length, List.forall₂_take_append vs us rs h,
    List.forall₂_drop_append vs us rs h, (List.take_append_drop _ vs).symm⟩

/-- Play the stretches of a journal last first.  `rev` is what is still to be
played, in reverse, and `later` the stretch that is being collected. -/
def playBack (starts : R → Bool) (step : R → S → S) : List R → List R → S → S
  | [], later, s => later.foldl (fun s u => step u s) s
  | u :: rev, later, s =>
      if starts u then playBack starts step rev [] ((u :: later).foldl (fun s u => step u s) s)
      else playBack starts step rev (u :: later) s

/-- A device plays a kind of records: `play` is what an act does to the text that
the device shows, for the acts that are `ok`. -/
structure Plays (brk : A → Bool) (shows : S → Zipper A → Prop) (reads : R → Rec A → Prop)
    (ok : Act A → Prop) (play : Act A → Zipper A → Zipper A) (step : R → S → S) : Prop where
  /-- A record with a position is played there. -/
  seek : ∀ {s z u r l x}, shows s z → reads u r → ok r.act →
    r.pos = some (row brk l, col brk l) → z.text = l ++ x → x ≠ [] →
    shows (step u s) (play r.act ⟨l, x⟩)
  /-- A record without one is played at the cursor. -/
  here : ∀ {s z u r}, shows s z → reads u r → ok r.act → r.pos = none → z.right ≠ [] →
    shows (step u s) (play r.act z)
  /-- A record that only moves the cursor changes no text, wherever it goes. -/
  idle : ∀ {s z u r}, shows s z → reads u r → r.act = .move →
    ∃ z', shows (step u s) z' ∧ z'.text = z.text

section Play

variable {brk : A → Bool} {shows : S → Zipper A → Prop} {reads : R → Rec A → Prop}
  {ok : Act A → Prop} {step : R → S → S} {starts : R → Bool} {s : S} {z : Zipper A}

/-- A stretch without its first record. -/
theorem Plays.rest {f : Act A → Act A} (h : Plays brk shows reads ok (fun a => (f a).undo) step)
    {us : List R} {rs : List (Rec A)} (hread : List.Forall₂ reads us rs)
    (hok : ∀ r ∈ rs, ok r.act) (hpos : ∀ r ∈ rs, r.pos = none) {l x : List A}
    (hx : taken (rs.map fun r => f r.act) < x.length) (hs : shows s ⟨l, x⟩) :
    shows (us.foldl (fun s u => step u s) s)
      ⟨l ++ dels (rs.map fun r => f r.act), x.drop (taken (rs.map fun r => f r.act))⟩ := by
  induction hread generalizing s l x with
  | nil => simpa using hs
  | @cons u r us rs hur _ ih =>
      rw [List.map_cons, taken_cons] at hx
      have hne : x ≠ [] := List.length_pos_iff.mp (by omega)
      have hstep := h.here hs hur (hok r List.mem_cons_self) (hpos r List.mem_cons_self) hne
      rw [Act.undo_of_lt (by omega)] at hstep
      have hlen : taken (rs.map fun r => f r.act) < (x.drop (f r.act).taken).length := by
        rw [List.length_drop]
        omega
      have hall := ih (fun r hr => hok r (List.mem_cons_of_mem _ hr))
        (fun r hr => hpos r (List.mem_cons_of_mem _ hr)) hlen hstep
      rw [List.foldl_cons, List.map_cons, dels_cons, taken_cons, ← List.append_assoc,
        ← List.drop_drop]
      exact hall

/-- **A stretch** is played at its position. -/
theorem Plays.stretch {f : Act A → Act A}
    (h : Plays brk shows reads ok (fun a => (f a).undo) step) {us : List R} {rs : List (Rec A)}
    (hread : List.Forall₂ reads us rs) (hok : ∀ r ∈ rs, ok r.act) {l x : List A}
    (hstretch : Stretch brk l rs) (hx : taken (rs.map fun r => f r.act) < x.length)
    (hs : shows s z) (htext : z.text = l ++ x) :
    shows (us.foldl (fun s u => step u s) s)
      ⟨l ++ dels (rs.map fun r => f r.act), x.drop (taken (rs.map fun r => f r.act))⟩ := by
  obtain ⟨r, rest, rfl, hpos, hrest⟩ := hstretch
  cases hread with
  | @cons u _ us _ hur hus =>
      rw [List.map_cons, taken_cons] at hx
      have hne : x ≠ [] := List.length_pos_iff.mp (by omega)
      have hfirst := h.seek hs hur (hok r List.mem_cons_self) hpos htext hne
      rw [Act.undo_of_lt (by omega)] at hfirst
      have hlen : taken (rest.map fun r => f r.act) < (x.drop (f r.act).taken).length := by
        rw [List.length_drop]
        omega
      have hall := h.rest hus (fun r hr => hok r (List.mem_cons_of_mem _ hr)) hrest hlen hfirst
      rw [List.foldl_cons, List.map_cons, dels_cons, taken_cons, ← List.append_assoc,
        ← List.drop_drop]
      exact hall

theorem playBack_append (step : R → S → S) {us : List R} {u : R} {rest : List R}
    (hu : starts u = true) (hrest : ∀ x ∈ rest, starts x = false) (s : S) :
    playBack starts step (us ++ u :: rest).reverse [] s =
      playBack starts step us.reverse [] ((u :: rest).foldl (fun s u => step u s) s) := by
  have hcollect : ∀ (rest later : List R), (∀ x ∈ rest, starts x = false) →
      playBack starts step (rest.reverse ++ u :: us.reverse) later s =
        playBack starts step us.reverse []
          ((u :: rest ++ later).foldl (fun s u => step u s) s) := by
    intro rest
    induction rest using List.reverseRecOn with
    | nil =>
        intro later _
        rw [List.reverse_nil, List.nil_append, playBack, if_pos hu]
        rfl
    | append_singleton rest x ih =>
        intro later hnone
        have hx : starts x = false := hnone x (by simp)
        rw [List.reverse_append, List.reverse_singleton, List.singleton_append, List.cons_append,
          playBack, if_neg (by simp [hx]), ih _ fun y hy => hnone y (by simp [hy])]
        simp
  have h := hcollect rest [] hrest
  rw [List.append_nil] at h
  rw [List.reverse_append, List.reverse_cons, List.append_assoc]
  exact h

end Play

/-! ## What a journal undoes and redoes -/

section Carry

variable {brk : A → Bool}

/-- Playing the journal back takes the text `t` to the text `b`. -/
inductive Undoes (brk : A → Bool) : List (Rec A) → List A → List A → Prop
  | nil (t : List A) : Undoes brk [] t t
  | idle {us : List (Rec A)} {t b : List A} {r : Rec A} (prev : Undoes brk us t b)
      (hpos : r.pos.isSome) (hact : r.act = .move) : Undoes brk (us ++ [r]) t b
  | stretch {us rs : List (Rec A)} {l x b : List A}
      (prev : Undoes brk us (l ++ dels (rs.map Rec.act) ++ x.drop (taken (rs.map Rec.act))) b)
      (hrs : Stretch brk l rs) (hx : taken (rs.map Rec.act) < x.length) :
      Undoes brk (us ++ rs) (l ++ x) b

/-- Playing the journal takes the text `b` to the text `t`. -/
inductive Redoes (brk : A → Bool) : List (Rec A) → List A → List A → Prop
  | nil (t : List A) : Redoes brk [] t t
  | idle {us : List (Rec A)} {b t : List A} {r : Rec A} (prev : Redoes brk us b t)
      (hact : r.act = .move) : Redoes brk (us ++ [r]) b t
  | stretch {us rs : List (Rec A)} {l x b : List A} (prev : Redoes brk us b (l ++ x))
      (hrs : Stretch brk l rs) (hx : removed (rs.map Rec.act) < x.length) :
      Redoes brk (us ++ rs) b
        (l ++ inss (rs.map Rec.act) ++ x.drop (removed (rs.map Rec.act)))

/-- What is appended at the end of a text stays there. -/
theorem Undoes.frame {us : List (Rec A)} {t b : List A} (h : Undoes brk us t b) (e : List A) :
    Undoes brk us (t ++ e) (b ++ e) := by
  induction h with
  | nil t => exact .nil _
  | idle _ hpos hact ih => exact .idle ih hpos hact
  | @stretch us rs l x b _ hrs hx ih =>
      rw [List.append_assoc, ← List.drop_append_of_le_length (by omega)] at ih
      rw [List.append_assoc]
      exact .stretch ih hrs (by rw [List.length_append]; omega)

theorem Redoes.frame {us : List (Rec A)} {b t : List A} (h : Redoes brk us b t) (e : List A) :
    Redoes brk us (b ++ e) (t ++ e) := by
  induction h with
  | nil t => exact .nil _
  | idle _ hact ih => exact .idle ih hact
  | @stretch us rs l x b _ hrs hx ih =>
      rw [List.append_assoc] at ih
      rw [List.append_assoc, ← List.drop_append_of_le_length (by omega)]
      exact .stretch ih hrs (by rw [List.length_append]; omega)

section Device

variable {shows : S → Zipper A → Prop} {reads : R → Rec A → Prop} {ok : Act A → Prop}
  {step : R → S → S} {starts : R → Bool} {s : S} {z : Zipper A}

/-- **Undo.**  A device that plays records back undoes what the journal undoes. -/
theorem Undoes.playBack {us : List (Rec A)} {vs : List R} {t b : List A}
    (h : Undoes brk us t b) (hplay : Plays brk shows reads ok Act.undo step)
    (hstarts : ∀ u r, reads u r → starts u = r.pos.isSome) (hread : List.Forall₂ reads vs us)
    (hok : ∀ r ∈ us, ok r.act) (hs : shows s z) (htext : z.text = t) :
    ∃ z', shows (playBack starts step vs.reverse [] s) z' ∧ z'.text = b := by
  induction h generalizing vs s z with
  | nil t =>
      cases hread
      exact ⟨z, hs, htext⟩
  | @idle us t b r _ hpos hact ih =>
      obtain ⟨vs, ws, hvs, hws, rfl⟩ := forall₂_split hread
      cases hws with
      | @cons u _ ws _ hur hnil =>
          cases hnil
          have hu : starts u = true := (hstarts u r hur).trans hpos
          obtain ⟨z', hs', htext'⟩ := hplay.idle hs hur hact
          rw [playBack_append step hu (by simp)]
          exact ih hvs (fun r hr => hok r (List.mem_append_left _ hr)) hs' (htext'.trans htext)
  | @stretch us rs l x b _ hrs hx ih =>
      obtain ⟨vs, ws, hvs, hws, rfl⟩ := forall₂_split hread
      have hstretch := Plays.stretch (f := id) hplay hws
        (fun r hr => hok r (List.mem_append_right _ hr)) hrs hx hs htext
      obtain ⟨r, rest, rfl, hpos, hrest⟩ := hrs
      cases hws with
      | @cons u _ ws _ hur hws =>
          have hu : starts u = true := by rw [hstarts u r hur, hpos]; rfl
          have hnone : ∀ w ∈ ws, starts w = false := by
            intro w hw
            obtain ⟨i, hi, rfl⟩ := List.getElem_of_mem hw
            have hi' : i < rest.length := hws.length_eq ▸ hi
            have hread' : reads ws[i] rest[i] := hws.get hi hi'
            rw [hstarts _ _ hread', hrest _ (List.getElem_mem hi')]
            rfl
          rw [playBack_append step hu hnone]
          exact ih hvs (fun r hr => hok r (List.mem_append_left _ hr)) hstretch rfl

/-- **Redo.**  A device that plays records redoes what the journal redoes. -/
theorem Redoes.play {us : List (Rec A)} {vs : List R} {b t : List A}
    (h : Redoes brk us b t) (hplay : Plays brk shows reads ok Act.redo step)
    (hread : List.Forall₂ reads vs us) (hok : ∀ r ∈ us, ok r.act) (hs : shows s z)
    (htext : z.text = b) :
    ∃ z', shows (vs.foldl (fun s u => step u s) s) z' ∧ z'.text = t := by
  induction h generalizing vs with
  | nil t =>
      cases hread
      exact ⟨z, hs, htext⟩
  | @idle us b t r _ hact ih =>
      obtain ⟨vs, ws, hvs, hws, rfl⟩ := forall₂_split hread
      cases hws with
      | @cons u _ ws _ hur hnil =>
          cases hnil
          obtain ⟨z₁, hs₁, htext₁⟩ := ih hvs (fun r hr => hok r (List.mem_append_left _ hr)) htext
          obtain ⟨z₂, hs₂, htext₂⟩ := hplay.idle hs₁ hur hact
          rw [List.foldl_append]
          exact ⟨z₂, hs₂, htext₂.trans htext₁⟩
  | @stretch us rs l x b _ hrs hx ih =>
      obtain ⟨vs, ws, hvs, hws, rfl⟩ := forall₂_split hread
      obtain ⟨z₁, hs₁, htext₁⟩ := ih hvs (fun r hr => hok r (List.mem_append_left _ hr)) htext
      rw [removed, List.map_map] at hx ⊢
      rw [inss, List.map_map]
      rw [List.foldl_append]
      exact ⟨_, hplay.stretch (f := Act.flip) hws (fun r hr => hok r (List.mem_append_right _ hr))
        hrs hx hs₁ htext₁, rfl⟩

end Device

/-- A journal carries the text `b` to the text `t` and back. -/
structure Carries (brk : A → Bool) (us : List (Rec A)) (b t : List A) : Prop where
  undoes : Undoes brk us t b
  redoes : Redoes brk us b t
  sized : ∀ r ∈ us, r.act.Sized

theorem Carries.nil (t : List A) : Carries brk [] t t :=
  ⟨.nil t, .nil t, fun _ hr => absurd hr List.not_mem_nil⟩

theorem Carries.frame {us : List (Rec A)} {b t : List A} (h : Carries brk us b t) (e : List A) :
    Carries brk us (b ++ e) (t ++ e) :=
  ⟨h.undoes.frame e, h.redoes.frame e, h.sized⟩

theorem Carries.idle {us : List (Rec A)} {b t : List A} {r : Rec A} (h : Carries brk us b t)
    (hpos : r.pos.isSome) (hact : r.act = .move) : Carries brk (us ++ [r]) b t := by
  refine ⟨.idle h.undoes hpos hact, .idle h.redoes hact, fun x hx => ?_⟩
  rcases List.mem_append.mp hx with hx | hx
  · exact h.sized x hx
  · rw [List.mem_singleton.mp hx, hact]
    trivial

/-- An act as the edit at the cursor that its record is of.  The deletion that
runs past the end leaves the text as it is, and `e` is what playing its record
back puts at the end. -/
inductive Performs : Act A → Zipper A → Zipper A → List A → Prop
  | move (z : Zipper A) : Performs .move z z []
  | ins (w : List A) (z : Zipper A) : Performs (.ins w.length w) z (z.insert w) []
  | del (w l : List A) {x : List A} (hx : x ≠ []) :
      Performs (.del w.length w) ⟨l, w ++ x⟩ ⟨l, x⟩ []
  | past (l : List A) (a : A) : Performs (.del 1 [a]) ⟨l, [a]⟩ ⟨l, [a]⟩ [a]

theorem Performs.sized {a : Act A} {z z' : Zipper A} {e : List A} (h : Performs a z z' e) :
    a.Sized := by
  cases h with
  | move => trivial
  | ins => rfl
  | del => rfl
  | past => rfl

theorem Performs.right_ne {a : Act A} {z z' : Zipper A} {e : List A} (h : Performs a z z' e)
    (hz : z.right ≠ []) : z'.right ≠ [] := by
  cases h with
  | move => exact hz
  | ins => exact hz
  | del w l hx => exact hx
  | past l a => exact hz

/-- Edits at the cursor, from the zipper `l`, `x` to the zipper `z`. -/
structure Edits (as : List (Act A)) (l x : List A) (z : Zipper A) : Prop where
  left : z.left = l ++ inss as
  right : x = dels as ++ z.right
  taken : taken as = (inss as).length
  removed : removed as = (dels as).length

theorem Edits.nil (z : Zipper A) : Edits [] z.left z.right z :=
  ⟨(List.append_nil _).symm, rfl, rfl, rfl⟩

theorem Edits.snoc {as : List (Act A)} {a : Act A} {l x : List A} {z z' : Zipper A} {e : List A}
    (h : Edits as l x z) (ha : Performs a z z' e) : Edits (as ++ [a]) l (x ++ e) z' := by
  obtain ⟨hl, hr, ht, hd⟩ := h
  cases ha with
  | move => constructor <;> simp_all [inss, Journal.removed, Act.flip, Act.dels, Act.taken]
  | ins w =>
      constructor <;>
        simp_all [inss, Journal.removed, Act.flip, Act.dels, Act.taken, Zipper.insert]
  | del w l' hx =>
      constructor <;> simp_all [inss, Journal.removed, Act.flip, Act.dels, Act.taken]
  | past l' b => constructor <;> simp_all [inss, Journal.removed, Act.flip, Act.dels, Act.taken]

/-- A journal that is being written: its last stretch has been performed where the
cursor is. -/
structure Writing (brk : A → Bool) (us : List (Rec A)) (b : List A) (z : Zipper A) : Prop where
  stretch : ∃ prev rs l x, us = prev ++ rs ∧ Stretch brk l rs ∧
    Edits (rs.map Rec.act) l x z ∧ Carries brk prev b (l ++ x)
  sized : ∀ r ∈ us, r.act.Sized
  right : z.right ≠ []

/-- **A journal** that is written while editing carries the old text to the new
one and back. -/
theorem Writing.carries {us : List (Rec A)} {b : List A} {z : Zipper A} (h : Writing brk us b z) :
    Carries brk us b z.text := by
  obtain ⟨prev, rs, l, x, rfl, hrs, hed, hprev⟩ := h.stretch
  have hpos : 0 < z.right.length := List.length_pos_iff.mpr h.right
  have htext : z.text = l ++ (inss (rs.map Rec.act) ++ z.right) := by
    rw [Zipper.text, hed.left, List.append_assoc]
  refine ⟨?_, ?_, h.sized⟩
  · rw [htext]
    refine .stretch ?_ hrs ?_
    · rw [hed.taken, List.drop_left, List.append_assoc, ← hed.right]
      exact hprev.undoes
    · rw [hed.taken, List.length_append]
      omega
  · have hdrop : x.drop (removed (rs.map Rec.act)) = z.right := by
      rw [hed.removed, hed.right, List.drop_left]
    have hlen : removed (rs.map Rec.act) < x.length := by
      rw [hed.removed, hed.right, List.length_append]
      omega
    have hredo := Redoes.stretch hprev.redoes hrs hlen
    rw [hdrop, ← hed.left] at hredo
    exact hredo

/-- The first record of a stretch. -/
theorem Carries.begin {us : List (Rec A)} {b : List A} {z z' : Zipper A} {e : List A} {r : Rec A}
    (h : Carries brk us b z.text) (hz : z.right ≠ [])
    (hpos : r.pos = some (row brk z.left, col brk z.left)) (hact : Performs r.act z z' e) :
    Writing brk (us ++ [r]) (b ++ e) z' := by
  refine ⟨⟨us, [r], z.left, z.right ++ e, rfl, .singleton hpos, ?_, ?_⟩, fun x hx => ?_,
    hact.right_ne hz⟩
  · exact (Edits.nil z).snoc hact
  · rw [← List.append_assoc]
    exact h.frame e
  · rcases List.mem_append.mp hx with hx | hx
    · exact h.sized x hx
    · rw [List.mem_singleton.mp hx]
      exact hact.sized

/-- The next record of the stretch. -/
theorem Writing.next {us : List (Rec A)} {b : List A} {z z' : Zipper A} {e : List A} {r : Rec A}
    (h : Writing brk us b z) (hpos : r.pos = none) (hact : Performs r.act z z' e) :
    Writing brk (us ++ [r]) (b ++ e) z' := by
  obtain ⟨prev, rs, l, x, rfl, hrs, hed, hprev⟩ := h.stretch
  refine ⟨⟨prev, rs ++ [r], l, x ++ e, List.append_assoc _ _ _, hrs.snoc hpos, ?_, ?_⟩,
    fun y hy => ?_, hact.right_ne h.right⟩
  · rw [List.map_append]
    exact hed.snoc hact
  · rw [← List.append_assoc]
    exact hprev.frame e
  · rcases List.mem_append.mp hy with hy | hy
    · exact h.sized y hy
    · rw [List.mem_singleton.mp hy]
      exact hact.sized

/-- A stretch at the end of a journal whose last record has a position is that
record. -/
theorem Stretch.last {us us' rs : List (Rec A)} {r : Rec A} {l : List A} (hrs : Stretch brk l rs)
    (hr : r.pos.isSome) (heq : us' ++ rs = us ++ [r]) : us' = us ∧ rs = [r] := by
  obtain ⟨r₀, rest, rfl, -, hrest⟩ := hrs
  rcases List.eq_nil_or_concat rest with rfl | ⟨rest', y, rfl⟩
  · exact List.append_inj' heq rfl
  · have heq' : (us' ++ r₀ :: rest') ++ [y] = us ++ [r] := by simpa using heq
    obtain ⟨-, hy⟩ := List.append_inj' heq' rfl
    have hnone : y.pos = none := hrest y (by simp)
    rw [List.singleton_inj.mp hy] at hnone
    rw [hnone] at hr
    cases hr

theorem Undoes.of_last {us : List (Rec A)} {t b w : List A} {p : Nat × Nat} {n : Nat}
    (h : Undoes brk (us ++ [⟨some p, .ins n w⟩]) t b) :
    ∃ l x, t = l ++ x ∧ p = (row brk l, col brk l) ∧ n < x.length ∧
      Undoes brk us (l ++ x.drop n) b := by
  generalize hvs : us ++ [⟨some p, .ins n w⟩] = vs at h
  cases h with
  | nil t => simp at hvs
  | @idle us' _ _ r prev hpos hact =>
      obtain ⟨-, hr⟩ := List.append_inj' hvs rfl
      rw [← List.singleton_inj.mp hr] at hact
      cases hact
  | @stretch us' rs l x _ prev hrs hx =>
      obtain ⟨rfl, rfl⟩ := hrs.last rfl hvs.symm
      obtain ⟨r₀, rest, heq, hpos, -⟩ := hrs
      cases heq
      refine ⟨l, x, rfl, Option.some.inj hpos, by simpa [Act.taken] using hx, ?_⟩
      simpa [Act.dels, Act.taken] using prev

theorem Redoes.of_last {us : List (Rec A)} {t b w : List A} {p : Nat × Nat} {n : Nat}
    (h : Redoes brk (us ++ [⟨some p, .ins n w⟩]) b t) :
    ∃ l x, t = l ++ w ++ x ∧ p = (row brk l, col brk l) ∧ Redoes brk us b (l ++ x) := by
  generalize hvs : us ++ [⟨some p, .ins n w⟩] = vs at h
  cases h with
  | nil t => simp at hvs
  | @idle us' _ _ r prev hact =>
      obtain ⟨-, hr⟩ := List.append_inj' hvs rfl
      rw [← List.singleton_inj.mp hr] at hact
      cases hact
  | @stretch us' rs l x _ prev hrs hx =>
      obtain ⟨rfl, rfl⟩ := hrs.last rfl hvs.symm
      obtain ⟨r₀, rest, heq, hpos, -⟩ := hrs
      cases heq
      refine ⟨l, x, ?_, Option.some.inj hpos, prev⟩
      simp [inss, removed, Act.flip, Act.dels, Act.taken]

/-- A journal whose last record is an insertion with a position: the inserted
words are there, and without them is the text that the journal before carries to. -/
theorem Carries.of_last {us : List (Rec A)} {t b w : List A} {p : Nat × Nat} {n : Nat}
    (h : Carries brk (us ++ [⟨some p, .ins n w⟩]) b t) :
    ∃ l x, t = l ++ w ++ x ∧ p = (row brk l, col brk l) ∧ n = w.length ∧
      Carries brk us b (l ++ x) := by
  obtain ⟨l, x, ht, hp, -, hundo⟩ := h.undoes.of_last
  obtain ⟨l', x', ht', hp', hredo⟩ := h.redoes.of_last
  have hn : n = w.length := h.sized ⟨some p, .ins n w⟩ (by simp)
  have htext : l' ++ (w ++ x') = l ++ x := by rw [← List.append_assoc, ← ht', ht]
  have hrow : row brk l' = row brk l := congrArg Prod.fst (hp'.symm.trans hp)
  have hcol : col brk l' = col brk l := congrArg Prod.snd (hp'.symm.trans hp)
  have hl : l' = l := by simpa using prefix_of_pos htext hrow (n := 0) hcol
  subst hl
  have hx : x = w ++ x' := (List.append_cancel_left htext).symm
  rw [hx, hn, List.drop_left] at hundo
  exact ⟨l', x', ht', hp', hn, hundo, hredo, fun r hr => h.sized r (List.mem_append_left _ hr)⟩

/-- **Merging.**  An insertion at the place where the last one ended, if that has a
position, may be added to its record. -/
theorem Carries.merge {us : List (Rec A)} {b w : List A} {z : Zipper A} {p : Nat × Nat} {n : Nat}
    (h : Carries brk (us ++ [⟨some p, .ins n w⟩]) b z.text) (hz : z.right ≠ [])
    (hrow : row brk z.left = p.1) (hcol : col brk z.left = p.2 + n) (w' : List A) :
    Writing brk (us ++ [⟨some p, .ins (n + w'.length) (w ++ w')⟩]) b (z.insert w') := by
  obtain ⟨l, x, htext, hp, hn, hprev⟩ := h.of_last
  subst hp
  have htext' : z.left ++ z.right = l ++ (w ++ x) := htext.trans (List.append_assoc _ _ _)
  have hleft : z.left = l ++ w := by
    rw [prefix_of_pos htext' hrow hcol, hn, List.take_left]
  have hright : z.right = x := by
    rw [hleft, List.append_assoc] at htext'
    exact List.append_cancel_left (List.append_cancel_left htext')
  refine ⟨⟨us, _, l, x, rfl, .singleton rfl, ?_, hprev⟩, fun r hr => ?_, hz⟩
  · constructor
    · simp [Zipper.insert, hleft, inss, Act.flip, Act.dels]
    · simp [Zipper.insert, hright, Act.dels]
    · simp [inss, Act.flip, Act.dels, Act.taken, hn]
    · simp [removed, Act.flip, Act.dels, Act.taken]
  · rcases List.mem_append.mp hr with hr | hr
    · exact hprev.sized r hr
    · rw [List.mem_singleton.mp hr]
      simp [Act.Sized, hn]

end Carry

end Journal
