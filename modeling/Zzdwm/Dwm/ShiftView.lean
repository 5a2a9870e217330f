import Zzdwm.Lib.Residues
import Zzdwm.Dwm.TagSets

/-!
# Shifting the view to the next occupied tag

`shiftviewclients` and `rotatetags` with any number `L` of tags that the source
can be compiled with, from 1 to 31.  The loop of `shiftviewclients` never masks
its word, so bits from `L` on pile up in it.

* `Tags.shiftviewclients`, `Tags.rotated`, … — the routines with `L` tags; with
  `LENGTH(tags)` they are those of the window manager;
* `Tags.circular` — the tag set turned by `k` tags, as a rotation of `L` bits;
* `Tags.shiftviewclients_rotates` — the view that the loop finds.
-/

namespace Dwm

open Machine

namespace Tags

variable (L : Nat)

/-- `TAGMASK`. -/
def mask : TagSet := 1#32 <<< L - 1#32

/-- One round of the loop of `shiftviewclients`. -/
def shiftStep (i : Int) (t : TagSet) : TagSet :=
  let n := i.natAbs
  if i > 0 then t <<< n ||| t >>> (L - n) else t >>> n ||| t <<< (L - n)

/-- The loop of `shiftviewclients`, for at most so many rounds. -/
def shiftLoop (i : Int) (occupied : TagSet) : Nat → TagSet → Option TagSet
  | 0, _ => none
  | n + 1, t =>
      let t := shiftStep L i t
      if occupied ≠ 0#32 ∧ t &&& occupied = 0#32 then shiftLoop i occupied n t else some t

/-- The tags that clients with these tag sets occupy. -/
def occupied (clients : List TagSet) : TagSet := clients.foldl (fun t c => t ||| c) 0#32

/-- `view` on the settings of the selected monitor. -/
def view (arg : TagSet) (m : Settings) : Settings :=
  if arg &&& mask L = m.tags then m
  else
    let m := { m with seltags := !m.seltags }
    let p := m.pertag
    if arg &&& mask L ≠ 0#32 then
      Settings.loadPertag { m with
        tagset := Function.update m.tagset m.seltags (arg &&& mask L)
        pertag := { p with
          prevtag := p.curtag
          curtag := if arg = BitVec.allOnes 32 then 0 else lowestTag arg + 1 } }
    else
      Settings.loadPertag { m with
        pertag := { p with prevtag := p.curtag, curtag := p.prevtag } }

/-- `shiftviewclients` on the settings of the selected monitor, whose clients
have these tag sets. -/
def shiftviewclients (i : Int) (clients : List TagSet) (m : Settings) : Option Settings :=
  (shiftLoop L i (occupied clients) (2 ^ 32) m.tags).map fun t => view L t m

/-- The tag set `rotatetags` turns to. -/
def rotated (i : Int) (tagset : TagSet) : TagSet :=
  let rot := i.natAbs
  (if i < 0 then tagset >>> rot ||| tagset <<< (L - rot)
   else tagset <<< rot ||| tagset >>> (L - rot)) &&& mask L

/-- The tags turned by `k`, upwards or downwards. -/
def circular (i : Int) (k : Nat) (t : TagSet) : TagSet :=
  (if i > 0 then (t.setWidth L).rotateLeft k else (t.setWidth L).rotateRight k).setWidth 32

/-! ## The window manager has `LENGTH(tags)` tags -/

theorem mask_ntags : mask ntags = tagmask := rfl

theorem shiftLoop_ntags (i : Int) (o : TagSet) (n : Nat) (t : TagSet) :
    Dwm.shiftLoop i o n t = shiftLoop ntags i o n t := by
  induction n generalizing t with
  | zero => rfl
  | succ n ih =>
      rw [Dwm.shiftLoop, shiftLoop, ih]
      rfl

theorem rotated_ntags (i : Int) (t : TagSet) : Dwm.rotated i t = rotated ntags i t := rfl

theorem settings_view (a : TagSet) (s : State) :
    (Dwm.view a s).settings =
      Function.update s.settings s.selmon (view ntags a (s.settings s.selmon)) := by
  unfold Dwm.view view
  change (if a &&& tagmask = (s.settings s.selmon).tags then _ else _ : State).settings = _
  rw [mask_ntags]
  split
  · rw [Function.update_eq_self]
  · rw [settings_refocus]
    rfl

/-- `shiftviewclients` in terms of the routine with any number of tags. -/
theorem shiftviewclients_ntags (i : Int) (s : State) :
    (shiftviewclients ntags i (s.selM.clients.map s.tagsOf) (s.settings s.selmon)).elim
      (Dwm.shiftviewclients i s = .error .hang) fun m =>
        ∃ t, Dwm.shiftviewclients i s = .ok t ∧ t.settings = Function.update s.settings s.selmon m := by
  have hocc : occupied (s.selM.clients.map s.tagsOf) =
      s.selM.clients.foldl (fun t c => t ||| (s.client c).tags) 0#32 := List.foldl_map
  unfold shiftviewclients Dwm.shiftviewclients shifted
  rw [hocc, shiftLoop_ntags]
  cases hloop : shiftLoop ntags i (s.selM.clients.foldl (fun t c => t ||| (s.client c).tags) 0#32)
      (2 ^ 32) s.selM.tags with
  | none =>
      have hloop' := hloop
      change shiftLoop ntags i _ _ (s.settings s.selmon).tags = none at hloop'
      rw [hloop']
      rfl
  | some t =>
      have hloop' := hloop
      change shiftLoop ntags i _ _ (s.settings s.selmon).tags = some t at hloop'
      rw [hloop']
      exact ⟨Dwm.view t s, rfl, settings_view t s⟩

/-! ## One round -/

open Residues

variable {L} {i : Int} {t o : TagSet} {A : Set (ZMod L)} {m : Settings}

theorem getLsbD_mask (hL : L ≤ 31) (p : Nat) : (mask L).getLsbD p = decide (p < L) := by
  by_cases hp : p < 32
  · have hall : ∀ L < 32, ∀ p < 32, (mask L).getLsbD p = decide (p < L) := by decide
    exact hall L (Nat.lt_succ_of_le hL) p hp
  · rw [BitVec.getLsbD_of_ge _ _ (Nat.le_of_not_lt hp), decide_eq_false (by omega)]

/-- A set of the tags there are. -/
theorem lt_of_masked (hL : L ≤ 31) (ht : t &&& mask L = t) {p : Nat} (hp : t.getLsbD p = true) :
    p < L := by
  rw [← ht, BitVec.getLsbD_and, getLsbD_mask hL, Bool.and_eq_true] at hp
  exact of_decide_eq_true hp.2

theorem and_mask (hL : L ≤ 31) (t : TagSet) : t &&& mask L = (t.setWidth L).setWidth 32 := by
  refine BitVec.eq_of_getLsbD_eq fun p hp => ?_
  rw [BitVec.getLsbD_and, getLsbD_mask hL, BitVec.getLsbD_setWidth, BitVec.getLsbD_setWidth,
    decide_eq_true hp, Bool.true_and, Bool.and_comm]

/-- The step is one to the left or one to the right. -/
def OneStep (i : Int) : Prop := i = 1 ∨ i = -1

/-- The invariant of the loop: one round turns what the word holds by one tag. -/
theorem holds_shiftStep (h : Holds A t) (hL : 1 ≤ L) (hL' : L ≤ 31) (hi : OneStep i) :
    Holds (turn (i : ZMod L) A) (shiftStep L i t) := by
  rcases hi with rfl | rfl
  · rw [Int.cast_one]
    exact h.left hL (by omega)
  · rw [Int.cast_neg, Int.cast_one]
    exact h.right hL (by omega)

theorem holds_iterate (h : Holds A t) (hL : 1 ≤ L) (hL' : L ≤ 31) (hi : OneStep i) (k : Nat) :
    Holds (turn (k * i : ZMod L) A) ((shiftStep L i)^[k] t) := by
  induction k with
  | zero =>
      rw [Nat.cast_zero, zero_mul, turn_zero]
      exact h
  | succ k ih =>
      have hstep := holds_shiftStep ih hL hL' hi
      rw [turn_turn] at hstep
      rw [Function.iterate_succ_apply', Nat.cast_succ, add_mul, one_mul]
      exact hstep

/-- What the lowest bits of the word are after `k` rounds. -/
theorem iterate_masked (ht : t &&& mask L = t) (hL : 1 ≤ L) (hL' : L ≤ 31) (hi : OneStep i) (k : Nat) :
    (shiftStep L i)^[k] t &&& mask L = circular L i k t := by
  have hword := holds_residues (L := L) fun p hp => lt_of_masked hL' ht hp
  have hleft := (holds_iterate hword hL hL' hi k).setWidth
  rw [and_mask hL', circular]
  congr 1
  rcases hi with rfl | rfl
  · rw [Int.cast_one, mul_one] at hleft
    exact hleft.unique (hword.setWidth.rotateLeft k)
  · rw [Int.cast_neg, Int.cast_one, mul_neg, mul_one] at hleft
    exact hleft.unique (hword.setWidth.rotateRight k)

/-- A set of tags sees nothing of the bits from `L` on. -/
theorem and_of_masked (ho : o &&& mask L = o) (t : TagSet) : t &&& o = t &&& mask L &&& o := by
  rw [BitVec.and_assoc, BitVec.and_comm (mask L), ho]

/-! ## The loop -/

/-- The loop stops in the first round that shows an occupied tag. -/
theorem shiftLoop_eq (ho : o ≠ 0#32) {k : Nat} (hk : 1 ≤ k)
    (hfound : (shiftStep L i)^[k] t &&& o ≠ 0#32)
    (hbefore : ∀ j, 1 ≤ j → j < k → (shiftStep L i)^[j] t &&& o = 0#32) {n : Nat} (hn : k ≤ n) :
    shiftLoop L i o n t = some ((shiftStep L i)^[k] t) := by
  induction k generalizing t n with
  | zero => exact absurd hk (by decide)
  | succ k ih =>
      obtain ⟨n, rfl⟩ := Nat.exists_eq_succ_of_ne_zero (show n ≠ 0 by omega)
      rw [shiftLoop]
      by_cases hk0 : k = 0
      · subst hk0
        exact if_neg fun h => hfound h.2
      · have hmiss := hbefore 1 (Nat.le_refl 1) (by omega)
        rw [if_pos ⟨ho, hmiss⟩]
        exact ih (by omega) hfound (fun j hj hjk => hbefore (j + 1) (by omega) (by omega)) (by omega)

/-- Some round of the first `L` shows a given tag. -/
theorem exists_round (ht : t &&& mask L = t) (ht0 : t ≠ 0#32) (ho : o &&& mask L = o)
    (ho0 : o ≠ 0#32) (hL : 1 ≤ L) (hL' : L ≤ 31) (hi : OneStep i) :
    ∃ k, 1 ≤ k ∧ k ≤ L ∧ (shiftStep L i)^[k] t &&& o ≠ 0#32 := by
  obtain ⟨a, ha⟩ := exists_bit ht0
  obtain ⟨b, hb⟩ := exists_bit ho0
  have hword := holds_residues (L := L) fun p hp => lt_of_masked hL' ht hp
  obtain ⟨k, hk, hkL, hcast⟩ := exists_turn hL (((b : ZMod L) - a) * i)
  refine ⟨k, hk, hkL, ?_⟩
  refine ((holds_iterate hword hL hL' hi k).meets_iff fun p => lt_of_masked hL' ho).mpr ⟨b, hb, ?_⟩
  have hsquare : (i : ZMod L) * i = 1 := by
    rcases hi with rfl | rfl <;> norm_num
  rw [mem_turn, hcast, mul_assoc, hsquare, mul_one, sub_sub_cancel]
  exact ⟨a, ha, rfl⟩

/-! ## The view -/

/-- Masking does not change which tag is the lowest, if one is left. -/
theorem lowestTag_masked (hL : L ≤ 31) (h : t &&& mask L ≠ 0#32) :
    lowestTag (t &&& mask L) = lowestTag t := by
  obtain ⟨hlow, hleast⟩ := lowestTag_spec h
  have hbits : ∀ p, (t &&& mask L).getLsbD p = (t.getLsbD p && decide (p < L)) := fun p => by
    rw [BitVec.getLsbD_and, getLsbD_mask hL]
  rw [hbits, Bool.and_eq_true, decide_eq_true_eq] at hlow
  obtain ⟨hlow', hleast'⟩ := lowestTag_spec (ne_zero_of_tag hlow.1)
  refine Nat.le_antisymm (hleast _ ?_) (hleast' _ hlow.1)
  rw [hbits, hlow', decide_eq_true (Nat.lt_of_le_of_lt (hleast' _ hlow.1) hlow.2)]
  rfl

/-- Only a view of all tags can fill the word up. -/
theorem full_of_iterate (ht : t &&& mask L = t) (hL : 1 ≤ L) (hL' : L ≤ 31) (hi : OneStep i) {k : Nat}
    (hall : (shiftStep L i)^[k] t = BitVec.allOnes 32) : t = mask L := by
  have hword := holds_residues (L := L) fun p hp => lt_of_masked hL' ht hp
  have hturned := holds_iterate hword hL hL' hi k
  rw [hall] at hturned
  refine BitVec.eq_of_getLsbD_eq fun p hp => ?_
  rw [getLsbD_mask hL']
  by_cases hpL : p < L
  · obtain ⟨q, -, hq, hcast⟩ := exists_turn hL ((p : ZMod L) + k * i)
    have hmem := hturned.sound q (by
      rw [BitVec.getLsbD_allOnes]
      exact decide_eq_true (by omega))
    rw [mem_turn, hcast, add_sub_cancel_right] at hmem
    rw [hword.full p hpL hmem, decide_eq_true hpL]
  · rw [decide_eq_false hpL]
    exact Bool.eq_false_iff.mpr fun hbit => hpL (lt_of_masked hL' ht hbit)

/-- The bits from `L` on make no difference to `view`. -/
theorem view_masked (hL : L ≤ 31) {x : TagSet} (hne : x &&& mask L ≠ 0#32)
    (hall : x = BitVec.allOnes 32 → m.tags = mask L) : view L x m = view L (x &&& mask L) m := by
  have hmm : x &&& mask L &&& mask L = x &&& mask L := by
    rw [BitVec.and_assoc, BitVec.and_self]
  unfold view
  rw [hmm]
  by_cases hsame : x &&& mask L = m.tags
  · rw [if_pos hsame, if_pos hsame]
  · have hx : x ≠ BitVec.allOnes 32 := by
      intro heq
      refine hsame ?_
      rw [hall heq, heq, BitVec.allOnes_and]
    have hxm : x &&& mask L ≠ BitVec.allOnes 32 := by
      intro heq
      have hbit : (x &&& mask L).getLsbD 31 = true := by
        rw [heq]
        rfl
      rw [BitVec.getLsbD_and, getLsbD_mask hL, Bool.and_eq_true, decide_eq_true_eq] at hbit
      omega
    simp only [if_neg hsame, if_pos hne, if_neg hx, if_neg hxm, lowestTag_masked hL hne]

theorem tags_view {x : TagSet} (hx : x &&& mask L = x) (hne : x ≠ 0#32) : (view L x m).tags = x := by
  unfold view
  rw [hx]
  split
  · exact Eq.symm ‹_›
  · exact Function.update_self ..

/-! ## The command -/

theorem getLsbD_foldl_or (clients : List TagSet) (t : TagSet) (p : Nat) :
    (clients.foldl (fun t c => t ||| c) t).getLsbD p =
      (t.getLsbD p || clients.any fun c => c.getLsbD p) := by
  induction clients generalizing t with
  | nil => simp
  | cons c cs ih => rw [List.foldl_cons, ih, BitVec.getLsbD_or, List.any_cons, Bool.or_assoc]

theorem getLsbD_occupied (clients : List TagSet) (p : Nat) :
    (occupied clients).getLsbD p = clients.any fun c => c.getLsbD p := by
  rw [occupied, getLsbD_foldl_or, BitVec.getLsbD_zero, Bool.false_or]

/-- `shiftviewclients` turns the view by `k` tags, where it first shows a tag that
a client has, and it does so within `L` rounds. -/
structure Shifts (L : Nat) (i : Int) (clients : List TagSet) (m : Settings) (k : Nat) : Prop where
  within : 1 ≤ k ∧ k ≤ L
  found : circular L i k m.tags &&& occupied clients ≠ 0#32
  least : ∀ j, 1 ≤ j → j < k → circular L i j m.tags &&& occupied clients = 0#32
  ends : ∃ t, ∀ n, L ≤ n → shiftLoop L i (occupied clients) n m.tags = some t
  outcome : shiftviewclients L i clients m = some (view L (circular L i k m.tags) m)
  selects : (view L (circular L i k m.tags) m).tags = circular L i k m.tags

/-- The clients of a list have tags, and only tags that there are. -/
def AllTagged (L : Nat) (clients : List TagSet) : Prop := ∀ c ∈ clients, c ≠ 0#32 ∧ c &&& mask L = c

theorem AllTagged.occupied_masked {clients : List TagSet} (h : AllTagged L clients) (hL : L ≤ 31) :
    occupied clients &&& mask L = occupied clients := by
  refine BitVec.eq_of_getLsbD_eq fun p _ => ?_
  rw [BitVec.getLsbD_and, getLsbD_mask hL, getLsbD_occupied]
  cases hany : clients.any fun c => c.getLsbD p with
  | false => rfl
  | true =>
      obtain ⟨c, hc, hbit⟩ := List.any_eq_true.mp hany
      rw [decide_eq_true (lt_of_masked hL (h c hc).2 hbit)]
      rfl

theorem AllTagged.occupied_ne_zero {clients : List TagSet} (h : AllTagged L clients)
    (hne : clients ≠ []) : occupied clients ≠ 0#32 := by
  obtain ⟨c, hc⟩ := List.exists_mem_of_ne_nil _ hne
  obtain ⟨p, hp⟩ := exists_bit (h c hc).1
  refine ne_zero_of_tag (i := p) ?_
  rw [getLsbD_occupied, List.any_eq_true]
  exact ⟨c, hc, hp⟩

theorem circular_masked (hL : L ≤ 31) (i : Int) (k : Nat) (t : TagSet) :
    circular L i k t &&& mask L = circular L i k t := by
  refine BitVec.eq_of_getLsbD_eq fun p hp => ?_
  rw [BitVec.getLsbD_and, getLsbD_mask hL]
  by_cases hpL : p < L
  · rw [decide_eq_true hpL, Bool.and_true]
  · rw [decide_eq_false hpL, Bool.and_false, circular, BitVec.getLsbD_setWidth,
      BitVec.getLsbD_of_ge _ _ (Nat.le_of_not_lt hpL), Bool.and_false]

/-- **Shifting the view.**  With 1 to 31 tags, a view that shows a tag, and some
client, a step of `shiftviewclients` in either direction ends within `L` rounds
and turns the view by the least number of tags that shows an occupied one; and
one round of it turns the tags by one, as `rotatetags` does. -/
theorem shiftviewclients_rotates (hL : 1 ≤ L) (hL' : L ≤ 31) (hi : i = 1 ∨ i = -1)
    (hview : m.tags ≠ 0#32 ∧ m.tags &&& mask L = m.tags) {clients : List TagSet}
    (hclients : AllTagged L clients) (hne : clients ≠ []) :
    (∃ k, Shifts L i clients m k) ∧ shiftStep L i m.tags &&& mask L = circular L i 1 m.tags ∧
      rotated L i m.tags = circular L i 1 m.tags := by
  obtain ⟨hne0, hmask⟩ := hview
  have hocc := hclients.occupied_masked hL'
  have hocc0 := hclients.occupied_ne_zero hne
  have hsee : ∀ k, (shiftStep L i)^[k] m.tags &&& occupied clients =
      circular L i k m.tags &&& occupied clients := fun k => by
    rw [and_of_masked hocc, iterate_masked hmask hL hL' hi]
  constructor
  · -- the first of the rounds that show an occupied tag
    obtain ⟨k₀, hk₀, hk₀L, hfound₀⟩ := exists_round hmask hne0 hocc hocc0 hL hL' hi
    have hex : ∃ k, 1 ≤ k ∧ circular L i k m.tags &&& occupied clients ≠ 0#32 :=
      ⟨k₀, hk₀, hsee k₀ ▸ hfound₀⟩
    obtain ⟨hk, hfound⟩ := Nat.find_spec hex
    have hkL : Nat.find hex ≤ L := (Nat.find_le ⟨hk₀, hsee k₀ ▸ hfound₀⟩).trans hk₀L
    have hleast : ∀ j, 1 ≤ j → j < Nat.find hex →
        circular L i j m.tags &&& occupied clients = 0#32 := fun j hj hjk => by
      by_contra hshow
      exact Nat.find_min hex hjk ⟨hj, hshow⟩
    generalize Nat.find hex = k at hk hfound hkL hleast
    have hloop : ∀ n, L ≤ n →
        shiftLoop L i (occupied clients) n m.tags = some ((shiftStep L i)^[k] m.tags) := by
      intro n hn
      refine shiftLoop_eq hocc0 hk (by rw [hsee]; exact hfound) (fun j hj hjk => ?_) (hkL.trans hn)
      rw [hsee]
      exact hleast j hj hjk
    have hcirc := iterate_masked hmask hL hL' hi k
    have hturned : circular L i k m.tags ≠ 0#32 := by
      intro hzero
      rw [hzero, BitVec.zero_and] at hfound
      exact hfound rfl
    refine ⟨k, ⟨hk, hkL⟩, hfound, hleast, ⟨_, hloop⟩, ?_, tags_view (circular_masked hL' i k _) hturned⟩
    have hmasked := view_masked hL' (m := m) (hcirc.symm ▸ hturned)
      (full_of_iterate hmask hL hL' hi)
    rw [hcirc] at hmasked
    rw [shiftviewclients, hloop _ (hL'.trans (by decide)), Option.map_some, hmasked]
  · have hone := iterate_masked hmask hL hL' hi 1
    rw [Function.iterate_one] at hone
    refine ⟨hone, ?_⟩
    rw [← hone]
    rcases hi with rfl | rfl <;> rfl

/-- With nine tags and tag 1 in view, the next occupied tag of a client on tag 3
and one on tag 9 is two tags up. -/
theorem shiftviewclients_rotates_nine :
    ∃ k, Shifts 9 1 [tagBit 2, tagBit 8] createmon.toSettings k :=
  (shiftviewclients_rotates (by decide) (by decide) (Or.inl rfl) (by decide)
    (fun c hc => by
      simp only [List.mem_cons, List.not_mem_nil, or_false] at hc
      rcases hc with rfl | rfl <;> decide) (by decide)).1

end Tags

end Dwm
