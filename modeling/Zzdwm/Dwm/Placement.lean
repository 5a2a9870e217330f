import Zzdwm.Lib.Ownership
import Zzdwm.Dwm.Frames

/-!
# Clients on the lists of their monitors

The invariant of the two intrusive lists.  In the middle of an operation some
clients are off a list, so the invariant says which: `outC` are off the
`clients` lists and `outS` off the `stack` lists.

* `Inv.detach`, `Inv.attach`, … — what each splice does to the two sets;
* `Inv.focus` — `focus` takes no client off any list;
* `Filed lost s` — between two operations: every client is on its two lists,
  except that those in `lost` may be off the `clients` list.
-/

namespace Dwm

open Ownership

/-- The lists hold the live clients, each on the lists of its own monitor and
only once, apart from those that are out; selections are on their stack. -/
structure Inv (outC outS : ClientId → Prop) (s : State) : Prop where
  /-- No monitor is linked twice. -/
  nodup : s.mons.Nodup
  /-- Monitor addresses that are still to be handed out are not in use, … -/
  fresh : ∀ m ∈ s.mons, m < s.nextmon
  /-- … not by clients either. -/
  ownFresh : ∀ c, s.live c = true → s.own c < s.nextmon
  clients : Placed s.mons s.live s.own outC s.clientsOf
  stack : Placed s.mons s.live s.own outS s.stackOf
  /-- A client that is on its `clients` list is on a monitor of `mons`. -/
  home : ∀ c, s.live c = true → ¬ outC c → s.own c ∈ s.mons
  sel : ∀ m ∈ s.mons, ∀ c, (s.lists m).sel = some c → c ∈ s.stackOf m

variable {outC outS outC' outS' lost : ClientId → Prop} {s t : State} {c : ClientId} {m : MonId}

/-- The sets of clients that are out may be described differently. -/
theorem Inv.out_congr (h : Inv outC outS s)
    (hC : ∀ c, s.live c = true → (outC' c ↔ outC c))
    (hS : ∀ c, s.live c = true → (outS' c ↔ outS c)) : Inv outC' outS' s where
  nodup := h.nodup
  fresh := h.fresh
  ownFresh := h.ownFresh
  clients := h.clients.out_congr hC
  stack := h.stack.out_congr hS
  home := fun c hl hn => h.home c hl fun ho => hn ((hC c hl).mpr ho)
  sel := h.sel

theorem Inv.unmoved (h : Inv outC outS s) (hst : Unmoved s t) : Inv outC outS t := by
  have hC : t.clientsOf = s.clientsOf := by
    funext m
    rw [State.clientsOf, State.clientsOf, hst.lists]
  have hS : t.stackOf = s.stackOf := by
    funext m
    rw [State.stackOf, State.stackOf, hst.lists]
  constructor
  · rw [hst.mons]
    exact h.nodup
  · rw [hst.mons, hst.nextmon]
    exact h.fresh
  · rw [hst.live, hst.own, hst.nextmon]
    exact h.ownFresh
  · rw [hst.mons, hst.live, hst.own, hC]
    exact h.clients
  · rw [hst.mons, hst.live, hst.own, hS]
    exact h.stack
  · rw [hst.live, hst.own, hst.mons]
    exact h.home
  · rw [hst.mons, hst.lists, hS]
    exact h.sel

theorem Inv.redrawn (h : Inv outC outS s) (hst : Redrawn s t) : Inv outC outS t :=
  h.unmoved hst.unmoved

/-- Which monitor is selected does not matter to the lists. -/
theorem Inv.withSelmon (h : Inv outC outS s) : Inv outC outS { s with selmon := m } :=
  ⟨h.nodup, h.fresh, h.ownFresh, h.clients, h.stack, h.home, h.sel⟩

theorem firstVisible_mem (h : s.firstVisible m = some c) :
    c ∈ s.stackOf m ∧ s.visible c = true :=
  ⟨List.mem_of_find?_eq_some h, List.find?_some h⟩

/-! ## The lists after a splice -/

theorem lists_modMon (m : MonId) (f : Monitor → Monitor) (s : State) (k : MonId) :
    (s.modMon m f).lists k = if k = m then (f (s.monitor m)).toLists else s.lists k := by
  by_cases hk : k = m
  · subst hk
    simp [State.lists, State.modMon]
  · simp [State.lists, State.modMon, hk]

theorem lists_detach (c : ClientId) (s : State) (k : MonId) :
    (detach c s).lists k = if k = s.own c
      then { s.lists k with clients := (s.clientsOf k).erase c } else s.lists k := by
  rw [detach, lists_modMon]
  by_cases hk : k = s.own c
  · subst hk
    rw [if_pos rfl, if_pos rfl]
    rfl
  · rw [if_neg hk, if_neg hk]

theorem lists_detachstack (c : ClientId) (s : State) (k : MonId) :
    (detachstack c s).lists k = if k = s.own c then { s.lists k with
        stack := (s.stackOf k).erase c
        sel := if (s.lists k).sel = some c then ((s.stackOf k).erase c).find? s.visible
          else (s.lists k).sel }
      else s.lists k := by
  have hvis := ((Relinked.refl s).modMon (m := s.own c)
    (f := fun m => { m with stack := m.stack.erase c })).visible
  rw [detachstack]
  dsimp only
  by_cases hk : k = s.own c
  · subst hk
    by_cases hsel : (s.monOf c).sel = some c
    · have hsel' : (s.lists (s.own c)).sel = some c := hsel
      rw [if_pos hsel, lists_modMon, if_pos rfl, if_pos rfl, if_pos hsel']
      simp only [State.firstVisible, hvis]
      simp only [State.modMon, Function.update_self]
      rfl
    · have hsel' : ¬ (s.lists (s.own c)).sel = some c := hsel
      rw [if_neg hsel, lists_modMon, if_pos rfl, if_pos rfl, if_neg hsel']
      rfl
  · rw [if_neg hk]
    split <;> simp only [lists_modMon, if_neg hk]

/-- Linking a client in somewhere on the `clients` list of its monitor. -/
def linkClient (f : List ClientId → List ClientId) (c : ClientId) (s : State) : State :=
  s.modMon (s.own c) fun m => { m with clients := f m.clients }

theorem lists_linkClient (f : List ClientId → List ClientId) (c : ClientId) (s : State)
    (k : MonId) : (linkClient f c s).lists k = if k = s.own c
      then { s.lists k with clients := f (s.clientsOf k) } else s.lists k := by
  rw [linkClient, lists_modMon]
  by_cases hk : k = s.own c
  · subst hk
    rw [if_pos rfl, if_pos rfl]
    rfl
  · rw [if_neg hk, if_neg hk]

/-- Linking a client in somewhere on the stack of its monitor. -/
def linkStack (f : List ClientId → List ClientId) (c : ClientId) (s : State) : State :=
  s.modMon (s.own c) fun m => { m with stack := f m.stack }

theorem lists_linkStack (f : List ClientId → List ClientId) (c : ClientId) (s : State)
    (k : MonId) : (linkStack f c s).lists k = if k = s.own c
      then { s.lists k with stack := f (s.stackOf k) } else s.lists k := by
  rw [linkStack, lists_modMon]
  by_cases hk : k = s.own c
  · subst hk
    rw [if_pos rfl, if_pos rfl]
    rfl
  · rw [if_neg hk, if_neg hk]

theorem linkBefore_perm (r c : ClientId) (l : List ClientId) :
    (linkBefore r c l).Perm (c :: l) := by
  induction l with
  | nil => exact .refl _
  | cons d ds ih =>
      rw [linkBefore]
      split
      · exact .refl _
      · exact (ih.cons d).trans (.swap c d ds)

theorem linkAfter_perm (r c : ClientId) (l : List ClientId) :
    (linkAfter r c l).Perm (c :: l) := by
  induction l with
  | nil => exact .refl _
  | cons d ds ih =>
      rw [linkAfter]
      split
      · exact .swap c d ds
      · exact (ih.cons d).trans (.swap c d ds)

/-- Whatever its mode, `attachx` links the client in once. -/
theorem attachx_eq (n : Nat) (c : ClientId) (s : State) :
    ∃ f, attachx n c s = linkClient f c s ∧
      (f (s.clientsOf (s.own c))).Perm (c :: s.clientsOf (s.own c)) := by
  have hhead : ∃ f, attach c s = linkClient f c s ∧
      (f (s.clientsOf (s.own c))).Perm (c :: s.clientsOf (s.own c)) :=
    ⟨(c :: ·), rfl, .refl _⟩
  unfold attachx
  dsimp only
  split
  · split
    · exact hhead
    · exact ⟨linkBefore _ c, rfl, linkBefore_perm _ c _⟩
  · split
    · exact hhead
    · split
      · exact ⟨linkAfter _ c, rfl, linkAfter_perm _ c _⟩
      · exact hhead
  · split
    · exact hhead
    · exact ⟨linkAfter _ c, rfl, linkAfter_perm _ c _⟩
  · split
    · exact hhead
    · exact ⟨(· ++ [c]), rfl, List.perm_append_comm⟩
  · exact hhead

/-! ## What a splice does to the invariant -/

protected theorem Inv.detach (c : ClientId) (h : Inv outC outS s) :
    Inv (fun d => outC d ∨ d = c) outS (detach c s) where
  nodup := h.nodup
  fresh := h.fresh
  ownFresh := h.ownFresh
  clients := h.clients.erase c fun k => by
    rw [State.clientsOf, lists_detach]
    split <;> rfl
  stack := h.stack.congr fun k _ => by
    rw [State.stackOf, lists_detach]
    split <;> rfl
  home := fun d hl hn => h.home d hl fun ho => hn (Or.inl ho)
  sel := fun k hk d hd => by
    rw [lists_detach] at hd
    rw [State.stackOf, lists_detach]
    split at hd
    · rw [if_pos ‹_›]
      exact h.sel k hk d hd
    · rw [if_neg ‹_›]
      exact h.sel k hk d hd

protected theorem Inv.detachstack (c : ClientId) (h : Inv outC outS s) :
    Inv outC (fun d => outS d ∨ d = c) (detachstack c s) := by
  have hrel := (Relinked.refl s).detachstack (c := c)
  constructor
  · rw [hrel.mons]
    exact h.nodup
  · rw [hrel.mons, hrel.nextmon]
    exact h.fresh
  · rw [hrel.live, hrel.own, hrel.nextmon]
    exact h.ownFresh
  · rw [hrel.mons, hrel.live, hrel.own]
    refine h.clients.congr fun k _ => ?_
    rw [State.clientsOf, lists_detachstack]
    split <;> rfl
  · rw [hrel.mons, hrel.live, hrel.own]
    refine h.stack.erase c fun k => ?_
    rw [State.stackOf, lists_detachstack]
    split <;> rfl
  · rw [hrel.live, hrel.own, hrel.mons]
    exact h.home
  · rw [hrel.mons]
    intro k hk d hd
    rw [lists_detachstack] at hd
    rw [State.stackOf, lists_detachstack]
    split at hd
    · rw [if_pos ‹_›]
      dsimp only at hd ⊢
      split at hd
      · exact List.mem_of_find?_eq_some hd
      · rename_i hne
        refine (List.mem_erase_of_ne ?_).mpr (h.sel k hk d hd)
        rintro rfl
        exact hne hd
    · rw [if_neg ‹_›]
      exact h.sel k hk d hd

protected theorem Inv.linkClient {f : List ClientId → List ClientId} (h : Inv outC outS s)
    (hc : outC c) (hl : s.live c = true) (hown : s.own c ∈ s.mons)
    (hf : (f (s.clientsOf (s.own c))).Perm (c :: s.clientsOf (s.own c))) :
    Inv (fun d => outC d ∧ d ≠ c) outS (linkClient f c s) where
  nodup := h.nodup
  fresh := h.fresh
  ownFresh := h.ownFresh
  clients := by
    refine h.clients.insert c hc hl (fun k hk => ?_) ?_
    · rw [State.clientsOf, lists_linkClient, if_neg hk]
      rfl
    · rw [State.clientsOf, lists_linkClient, if_pos rfl]
      exact hf
  stack := h.stack.congr fun k _ => by
    rw [State.stackOf, lists_linkClient]
    split <;> rfl
  home := fun d hd hn => by
    by_cases hdc : d = c
    · subst hdc
      exact hown
    · exact h.home d hd fun ho => hn ⟨ho, hdc⟩
  sel := fun k hk d hd => by
    rw [lists_linkClient] at hd
    rw [State.stackOf, lists_linkClient]
    split at hd
    · rw [if_pos ‹_›]
      exact h.sel k hk d hd
    · rw [if_neg ‹_›]
      exact h.sel k hk d hd

protected theorem Inv.attach (h : Inv outC outS s) (hc : outC c) (hl : s.live c = true)
    (hown : s.own c ∈ s.mons) : Inv (fun d => outC d ∧ d ≠ c) outS (attach c s) :=
  h.linkClient (f := (c :: ·)) hc hl hown (.refl _)

protected theorem Inv.attachx (n : Nat) (h : Inv outC outS s) (hc : outC c) (hl : s.live c = true)
    (hown : s.own c ∈ s.mons) : Inv (fun d => outC d ∧ d ≠ c) outS (attachx n c s) := by
  obtain ⟨f, heq, hf⟩ := attachx_eq n c s
  rw [heq]
  exact h.linkClient hc hl hown hf

protected theorem Inv.linkStack {f : List ClientId → List ClientId} (h : Inv outC outS s)
    (hc : outS c) (hl : s.live c = true)
    (hf : (f (s.stackOf (s.own c))).Perm (c :: s.stackOf (s.own c))) :
    Inv outC (fun d => outS d ∧ d ≠ c) (linkStack f c s) where
  nodup := h.nodup
  fresh := h.fresh
  ownFresh := h.ownFresh
  clients := h.clients.congr fun k _ => by
    rw [State.clientsOf, lists_linkStack]
    split <;> rfl
  stack := by
    refine h.stack.insert c hc hl (fun k hk => ?_) ?_
    · rw [State.stackOf, lists_linkStack, if_neg hk]
      rfl
    · rw [State.stackOf, lists_linkStack, if_pos rfl]
      exact hf
  home := h.home
  sel := fun k hk d hd => by
    rw [lists_linkStack] at hd
    rw [State.stackOf, lists_linkStack]
    split at hd
    · rename_i hkc
      subst hkc
      rw [if_pos rfl]
      exact hf.mem_iff.mpr (List.mem_cons_of_mem _ (h.sel _ hk d hd))
    · rw [if_neg ‹_›]
      exact h.sel k hk d hd

protected theorem Inv.attachstack (h : Inv outC outS s) (hc : outS c) (hl : s.live c = true) :
    Inv outC (fun d => outS d ∧ d ≠ c) (attachstack c s) :=
  h.linkStack (f := (c :: ·)) hc hl (.refl _)

/-- A client that is out of both lists may be given to another monitor. -/
protected theorem Inv.give {f : Client → Client} (h : Inv outC outS s) (hC : outC c) (hS : outS c)
    (hf : (f (s.client c)).mon ∈ s.mons) : Inv outC outS (s.modClient c f) := by
  have hown : ∀ d, d ≠ c → (s.modClient c f).own d = s.own d := fun d hd => by
    simp [State.own, State.seat, State.modClient, hd]
  refine ⟨h.nodup, h.fresh, ?_, h.clients.reassign hC hown, h.stack.reassign hS hown, ?_, h.sel⟩
  · intro d hl
    by_cases hd : d = c
    · subst hd
      have : (s.modClient d f).own d = (f (s.client d)).mon := by
        simp [State.own, State.seat, State.modClient]
      rw [this]
      exact h.fresh _ hf
    · rw [hown d hd]
      exact h.ownFresh d hl
  · intro d hl hn
    have hd : d ≠ c := fun hdc => hn (hdc ▸ hC)
    rw [hown d hd]
    exact h.home d hl hn

/-- A client that is out of both lists may be freed. -/
protected theorem Inv.free (h : Inv outC outS s) (hC : outC c) (hS : outS c) :
    Inv (fun d => outC d ∧ d ≠ c) (fun d => outS d ∧ d ≠ c)
      { s with live := Function.update s.live c false } := by
  have hdead : Function.update s.live c false c = false := Function.update_self ..
  have hlive : ∀ d, d ≠ c → Function.update s.live c false d = s.live d :=
    fun d hd => Function.update_of_ne hd ..
  have hne : ∀ d, Function.update s.live c false d = true → d ≠ c := by
    rintro d hd rfl
    rw [hdead] at hd
    cases hd
  refine ⟨h.nodup, h.fresh, ?_, h.clients.dismiss hC hdead hlive,
    h.stack.dismiss hS hdead hlive, ?_, h.sel⟩
  · intro d hd
    exact h.ownFresh d ((hlive d (hne d hd)).symm.trans hd)
  · intro d hd hn
    exact h.home d ((hlive d (hne d hd)).symm.trans hd) fun ho => hn ⟨ho, hne d hd⟩

end Dwm
