import Zzdwm.Dwm.Placement

/-!
# Operations that keep the clients filed

Between two operations every client is on the two lists of its monitor.  The
lemmas of this module carry that through each operation that touches the
lists, and through the event loops of the mouse.

* `Filed.focus`, `Filed.pop`, `Filed.sendmon`, `Filed.tagswapmon`, … — one
  lemma for each operation;
* `Filed.rotatestack` — the only operation that can drop a client from its
  `clients` list, under `Drops`;
* `Filed.updategeom` — monitors come and go.
-/

namespace Dwm

open Ownership Machine

/-- The empty set of clients. -/
def nobody : ClientId → Prop := fun _ => False

/-- Every client is on its two lists, except that those in `lost` may be off
the `clients` list; `base` are clients that have not gone. -/
structure Filed (lost base : ClientId → Prop) (s : State) : Prop where
  inv : ∃ outC, (∀ c, outC c → lost c) ∧ Inv outC nobody s
  selmon : s.selmon ∈ s.mons
  alive : ∀ c, base c → s.live c = true

/-- A client that an operation may be given: it is managed and its monitor is
linked. -/
def Here (s : State) (c : ClientId) : Prop := s.live c = true ∧ s.own c ∈ s.mons

variable {lost base outC outS : ClientId → Prop} {s t : State} {c r : ClientId} {m : MonId}
  {arg : Option ClientId}

theorem Filed.unmoved (h : Filed lost base s) (hst : Unmoved s t) : Filed lost base t where
  inv := by
    obtain ⟨outC, hle, hinv⟩ := h.inv
    exact ⟨outC, hle, hinv.unmoved hst⟩
  selmon := by
    rw [hst.selmon, hst.mons]
    exact h.selmon
  alive := by
    rw [hst.live]
    exact h.alive

theorem Filed.redrawn (h : Filed lost base s) (hst : Redrawn s t) : Filed lost base t :=
  h.unmoved hst.unmoved

theorem Here.unmoved (h : Here s c) (hst : Unmoved s t) : Here t c := by
  rw [Here, hst.live, hst.own, hst.mons]
  exact h

theorem Here.relinked (h : Here s c) (hst : Relinked s t) : Here t c := by
  rw [Here, hst.live, hst.own, hst.mons]
  exact h

/-- Clients on a `clients` list can be operated on. -/
theorem Filed.here_of_mem (h : Filed lost base s) (hm : m ∈ s.mons) (hc : c ∈ s.clientsOf m) :
    Here s c ∧ s.own c = m := by
  obtain ⟨outC, -, hinv⟩ := h.inv
  obtain ⟨hl, rfl, -⟩ := hinv.clients.owned m hm c hc
  exact ⟨⟨hl, hm⟩, rfl⟩

/-- So can clients on a stack. -/
theorem Filed.here_of_stack (h : Filed lost base s) (hm : m ∈ s.mons) (hc : c ∈ s.stackOf m) :
    Here s c ∧ s.own c = m := by
  obtain ⟨outC, -, hinv⟩ := h.inv
  obtain ⟨hl, rfl, -⟩ := hinv.stack.owned m hm c hc
  exact ⟨⟨hl, hm⟩, rfl⟩

/-- So can the selected client. -/
theorem Filed.here_of_sel (h : Filed lost base s) (hc : s.sel = some c) :
    Here s c ∧ s.own c = s.selmon := by
  obtain ⟨outC, -, hinv⟩ := h.inv
  exact h.here_of_stack h.selmon (hinv.sel _ h.selmon c hc)

/-- So can the client a window belongs to. -/
theorem Filed.here_of_window {w : Window} (h : Filed lost base s)
    (hc : s.wintoclient w = some c) : Here s c := by
  obtain ⟨m, hm, hmem⟩ := List.mem_flatMap.mp (List.mem_of_find?_eq_some hc)
  exact (h.here_of_mem hm hmem).1

/-- A client that can be operated on is on its stack. -/
theorem Filed.mem_stackOf (h : Filed lost base s) (hc : Here s c) :
    c ∈ s.stackOf (s.own c) := by
  obtain ⟨outC, -, hinv⟩ := h.inv
  exact hinv.stack.listed c hc.1 hc.2 id

/-! ## `focus` -/

theorem selmon_detachstack (c : ClientId) (s : State) :
    (detachstack c s).selmon = s.selmon := by
  unfold detachstack
  dsimp only
  split <;> rfl

/-- The state that `focus` goes on with after it has unfocused the old client. -/
private theorem focus_prelude (arg : Option ClientId) (s : State) :
    ∃ u, Redrawn s u ∧ focus arg s = match focusTarget arg s with
      | some c => (attachstack c (detachstack c { u with selmon := u.own c })).modMon
          (u.own c) fun m => { m with sel := some c }
      | none => u.modMon u.selmon fun m => { m with sel := none } := by
  refine ⟨if s.sel ≠ none ∧ s.sel ≠ focusTarget arg s then unfocus s.sel s else s,
    .ite (Redrawn.refl s).unfocus (.refl s), ?_⟩
  unfold focus
  dsimp only
  cases focusTarget arg s with
  | none => rfl
  | some c =>
      dsimp only
      congr 1
      exact selmon_detachstack c _

/-- What `focus` does when it settles on a client. -/
theorem focus_some (h : focusTarget arg s = some c) :
    ∃ u, Redrawn s u ∧ focus arg s =
      (attachstack c (detachstack c { u with selmon := s.own c })).modMon (s.own c)
        fun m => { m with sel := some c } := by
  obtain ⟨u, hu, heq⟩ := focus_prelude arg s
  rw [h, hu.unmoved.own] at heq
  exact ⟨u, hu, heq⟩

/-- What `focus` does when there is no client to settle on. -/
theorem focus_none (h : focusTarget arg s = none) :
    ∃ u, Redrawn s u ∧ focus arg s = u.modMon s.selmon fun m => { m with sel := none } := by
  obtain ⟨u, hu, heq⟩ := focus_prelude arg s
  rw [h, hu.selmon] at heq
  exact ⟨u, hu, heq⟩

theorem focusTarget_visible (h : focusTarget arg s = some c) : s.visible c = true := by
  cases arg with
  | none => exact (firstVisible_mem h).2
  | some d =>
      rw [focusTarget] at h
      split at h
      · rename_i hd
        cases h
        exact hd
      · exact (firstVisible_mem h).2

theorem selmon_focus (arg : Option ClientId) (s : State) :
    (focus arg s).selmon = match focusTarget arg s with
      | some c => s.own c
      | none => s.selmon := by
  cases h : focusTarget arg s with
  | some c =>
      obtain ⟨u, hu, heq⟩ := focus_some h
      rw [heq]
      exact selmon_detachstack c _
  | none =>
      obtain ⟨u, hu, heq⟩ := focus_none h
      rw [heq]
      exact hu.selmon

theorem clientsOf_setSel (m : MonId) (o : Option ClientId) (s : State) :
    (s.modMon m fun k => { k with sel := o }).clientsOf = s.clientsOf := by
  funext k
  rw [State.clientsOf, lists_modMon]
  split
  · rename_i hk
    subst hk
    rfl
  · rfl

theorem clientsOf_linkStack (f : List ClientId → List ClientId) (c : ClientId) (s : State) :
    (linkStack f c s).clientsOf = s.clientsOf := by
  funext k
  rw [State.clientsOf, lists_linkStack]
  split <;> rfl

theorem clientsOf_detachstack (c : ClientId) (s : State) :
    (detachstack c s).clientsOf = s.clientsOf := by
  funext k
  rw [State.clientsOf, lists_detachstack]
  split <;> rfl

theorem Unmoved.clientsOf (h : Unmoved s t) : t.clientsOf = s.clientsOf := by
  funext m
  rw [State.clientsOf, State.clientsOf, h.lists]

/-- `focus` leaves the `clients` lists alone. -/
theorem clientsOf_focus (arg : Option ClientId) (s : State) :
    (focus arg s).clientsOf = s.clientsOf := by
  cases ht : focusTarget arg s with
  | none =>
      obtain ⟨u, hu, heq⟩ := focus_none ht
      rw [heq, clientsOf_setSel, hu.unmoved.clientsOf]
  | some c =>
      obtain ⟨u, hu, heq⟩ := focus_some ht
      rw [heq, clientsOf_setSel]
      change (linkStack (c :: ·) c (detachstack c { u with selmon := s.own c })).clientsOf = _
      rw [clientsOf_linkStack, clientsOf_detachstack]
      exact hu.unmoved.clientsOf

/-- Selecting a client of the stack, or none. -/
protected theorem Inv.setSel {o : Option ClientId} (h : Inv outC outS s)
    (ho : ∀ c, o = some c → c ∈ s.stackOf m) :
    Inv outC outS (s.modMon m fun k => { k with sel := o }) where
  nodup := h.nodup
  fresh := h.fresh
  ownFresh := h.ownFresh
  clients := h.clients.congr fun k _ => by
    rw [State.clientsOf, lists_modMon]
    split
    · rename_i hk
      subst hk
      rfl
    · rfl
  stack := h.stack.congr fun k _ => by
    rw [State.stackOf, lists_modMon]
    split
    · rename_i hk
      subst hk
      rfl
    · rfl
  home := h.home
  sel := fun k hk d hd => by
    rw [lists_modMon] at hd
    rw [State.stackOf, lists_modMon]
    split at hd
    · rename_i hkm
      subst hkm
      rw [if_pos rfl]
      exact ho d hd
    · rw [if_neg ‹_›]
      exact h.sel k hk d hd

/-- Taking a client off its stack, if it is on it, and putting it back
somewhere. -/
protected theorem Inv.restack {f : List ClientId → List ClientId} (h : Inv outC outS s)
    (hl : s.live c = true) (hf : (f ((detachstack c s).stackOf (s.own c))).Perm
      (c :: (detachstack c s).stackOf (s.own c))) :
    Inv outC (fun d => outS d ∧ d ≠ c) (linkStack f c (detachstack c s)) := by
  have hrel := (Relinked.refl s).detachstack (c := c)
  have hout := (h.detachstack c).linkStack (c := c) (f := f) (Or.inr rfl)
    (by rw [hrel.live]; exact hl) (by rw [hrel.own]; exact hf)
  refine hout.out_congr (fun _ _ => Iff.rfl) fun d _ => ?_
  constructor
  · rintro ⟨hd, hne⟩
    exact ⟨Or.inl hd, hne⟩
  · rintro ⟨hd | hd, hne⟩
    · exact ⟨hd, hne⟩
    · exact absurd hd hne

/-- Whatever client `focus` settles on is on its stack afterwards, even if it
was off it before. -/
theorem Inv.focus_some (h : Inv outC outS s) (ht : focusTarget arg s = some c)
    (hc : Here s c) : Inv outC (fun d => outS d ∧ d ≠ c) (focus arg s) := by
  obtain ⟨u, hu, heq⟩ := Dwm.focus_some ht
  rw [heq]
  refine Inv.setSel ?_ ?_
  · have hl : u.live c = true := by
      rw [hu.live]
      exact hc.1
    exact (h.redrawn hu).withSelmon.restack (f := (c :: ·)) hl (.refl _)
  · intro d hd
    cases hd
    have hown : (detachstack c { u with selmon := s.own c }).own c = s.own c := by
      rw [(Relinked.refl { u with selmon := s.own c }).detachstack.own]
      exact congrFun hu.unmoved.own c
    change c ∈ (linkStack (c :: ·) c _).stackOf _
    rw [State.stackOf, lists_linkStack, if_pos hown.symm]
    exact List.mem_cons_self

/-- **`focus` takes no client off any list.** -/
protected theorem Inv.focus (h : Inv outC nobody s) (hsel : s.selmon ∈ s.mons)
    (harg : ∀ c, arg = some c → Here s c) :
    Inv outC nobody (focus arg s) ∧ (focus arg s).selmon ∈ (focus arg s).mons := by
  have hmons : (focus arg s).mons = s.mons := (Relinked.refl s).focus.mons
  rw [hmons, selmon_focus]
  cases ht : focusTarget arg s with
  | none =>
      obtain ⟨u, hu, heq⟩ := focus_none ht
      rw [heq]
      exact ⟨(h.redrawn hu).setSel fun _ hc => (by cases hc), hsel⟩
  | some c =>
      have hhere : Here s c := by
        have hfirst : s.firstVisible s.selmon = some c → Here s c := by
          intro hf
          obtain ⟨hl, hown, -⟩ := h.stack.owned _ hsel c (firstVisible_mem hf).1
          exact ⟨hl, hown ▸ hsel⟩
        cases arg with
        | none => exact hfirst ht
        | some d =>
            rw [focusTarget] at ht
            split at ht
            · cases ht
              exact harg _ rfl
            · exact hfirst ht
      refine ⟨(h.focus_some ht hhere).out_congr (fun _ _ => Iff.rfl) fun d _ => ?_, hhere.2⟩
      exact ⟨False.elim, fun hd => hd.1⟩

protected theorem Filed.focus (h : Filed lost base s) (harg : ∀ c, arg = some c → Here s c) :
    Filed lost base (focus arg s) := by
  obtain ⟨outC, hle, hinv⟩ := h.inv
  obtain ⟨hinv', hsel⟩ := hinv.focus h.selmon harg
  refine ⟨⟨outC, hle, hinv'⟩, hsel, ?_⟩
  rw [(Relinked.refl s).focus.live]
  exact h.alive

theorem Filed.focusNone (h : Filed lost base s) : Filed lost base (focus none s) :=
  h.focus fun _ hc => by cases hc

/-- Refocusing without a client in mind stays on the selected monitor. -/
theorem Filed.selmon_focusNone (h : Filed lost base s) : (focus none s).selmon = s.selmon := by
  rw [selmon_focus]
  cases ht : focusTarget none s with
  | none => rfl
  | some c => exact (h.here_of_stack h.selmon (firstVisible_mem ht).1).2

theorem Filed.withSelmon (h : Filed lost base s) (hm : m ∈ s.mons) :
    Filed lost base { s with selmon := m } where
  inv := by
    obtain ⟨outC, hle, hinv⟩ := h.inv
    exact ⟨outC, hle, hinv.withSelmon⟩
  selmon := hm
  alive := h.alive

theorem Filed.select (h : Filed lost base s) (hc : Here s c) (hm : s.own c = m) :
    Filed lost base (s.modMon m fun k => { k with sel := some c }) where
  inv := by
    obtain ⟨outC, hle, hinv⟩ := h.inv
    refine ⟨outC, hle, hinv.setSel ?_⟩
    rintro d hd
    cases hd
    exact hm ▸ h.mem_stackOf hc
  selmon := h.selmon
  alive := h.alive

/-! ## Operations on one client -/

/-- Taking a client off the `clients` list and putting it back somewhere. -/
protected theorem Filed.relink {f : List ClientId → List ClientId} (h : Filed lost base s)
    (hc : Here s c) (hf : (f ((detach c s).clientsOf (s.own c))).Perm
      (c :: (detach c s).clientsOf (s.own c))) :
    Filed lost base (linkClient f c (detach c s)) := by
  obtain ⟨outC, hle, hinv⟩ := h.inv
  refine ⟨⟨_, ?_, (hinv.detach c).linkClient (Or.inr rfl) hc.1 hc.2 hf⟩, h.selmon, h.alive⟩
  rintro d ⟨hd | hd, hne⟩
  · exact hle d hd
  · exact absurd hd hne

/-- Taking a client off the stack and putting it back somewhere. -/
protected theorem Filed.restack {f : List ClientId → List ClientId} (h : Filed lost base s)
    (hc : Here s c) (hf : (f ((detachstack c s).stackOf (s.own c))).Perm
      (c :: (detachstack c s).stackOf (s.own c))) :
    Filed lost base (linkStack f c (detachstack c s)) := by
  obtain ⟨outC, hle, hinv⟩ := h.inv
  have hrel := (Relinked.refl s).detachstack (c := c)
  refine ⟨⟨outC, hle, (hinv.restack hc.1 hf).out_congr (fun _ _ => Iff.rfl)
    fun d _ => ⟨False.elim, fun hd => hd.1⟩⟩, ?_, ?_⟩
  · change (detachstack c s).selmon ∈ (detachstack c s).mons
    rw [selmon_detachstack, hrel.mons]
    exact h.selmon
  · change ∀ d, base d → (detachstack c s).live d = true
    rw [hrel.live]
    exact h.alive

protected theorem Filed.pop (h : Filed lost base s) (hc : Here s c) : Filed lost base (pop c s) := by
  unfold Dwm.pop
  refine Filed.redrawn (Filed.focus (Filed.relink (f := (c :: ·)) ?_ ?_ (.refl _)) ?_)
    (Redrawn.refl _).arrange
  · exact h.redrawn (Redrawn.refl s).modMon
  · exact hc
  · rintro d hd
    cases hd
    exact hc

/-- The owner of a client after an assignment to it. -/
theorem own_modClient_self (c : ClientId) (f : Client → Client) (s : State) :
    (s.modClient c f).own c = (f (s.client c)).mon := by
  simp [State.own, State.seat, State.modClient]

/-- A client that is out of both lists comes back on the lists of a monitor. -/
protected theorem Inv.file {f : List ClientId → List ClientId} (h : Inv outC outS s)
    (hC : outC c) (hS : outS c) (hc : Here s c)
    (hf : (f (s.clientsOf (s.own c))).Perm (c :: s.clientsOf (s.own c))) :
    Inv (fun d => outC d ∧ d ≠ c) (fun d => outS d ∧ d ≠ c)
      (attachstack c (linkClient f c s)) :=
  (h.linkClient hC hc.1 hc.2 hf).attachstack hS hc.1

/-- Nobody is left off a list when the only client that was comes back. -/
theorem Filed.of_back (hle : ∀ d, outC d → lost d)
    (hinv : Inv (fun d => (outC d ∨ d = c) ∧ d ≠ c) (fun d => (nobody d ∨ d = c) ∧ d ≠ c) s)
    (hsel : s.selmon ∈ s.mons) (halive : ∀ d, base d → s.live d = true) :
    Filed lost base s := by
  refine ⟨⟨_, ?_, hinv.out_congr (fun _ _ => Iff.rfl) ?_⟩, hsel, halive⟩
  · rintro d ⟨hd | hd, hne⟩
    · exact hle d hd
    · exact absurd hd hne
  · intro d _
    constructor
    · exact False.elim
    · rintro ⟨hd | hd, hne⟩
      · exact hd
      · exact hne hd

/-- A client that was taken off both lists is given to another monitor and
linked in there. -/
protected theorem Filed.move {f : Client → Client} {g : List ClientId → List ClientId}
    (h : Filed lost base s) (hc : Here s c)
    (hmons : t.mons = s.mons) (hlive : t.live = s.live) (hselmon : t.selmon = s.selmon)
    (hinv : ∀ outC, Inv outC nobody s →
      Inv (fun d => outC d ∨ d = c) (fun d => nobody d ∨ d = c) t)
    (hf : (f (t.client c)).mon ∈ s.mons)
    (hg : (g ((t.modClient c f).clientsOf ((t.modClient c f).own c))).Perm
      (c :: (t.modClient c f).clientsOf ((t.modClient c f).own c))) :
    Filed lost base (attachstack c (linkClient g c (t.modClient c f))) := by
  obtain ⟨outC, hle, hinvs⟩ := h.inv
  have hf' : (f (t.client c)).mon ∈ t.mons := by
    rw [hmons]
    exact hf
  have hgive := (hinv outC hinvs).give (c := c) (f := f) (Or.inr rfl) (Or.inr rfl) hf'
  have hhere : Here (t.modClient c f) c := by
    refine ⟨?_, ?_⟩
    · change t.live c = true
      rw [hlive]
      exact hc.1
    · rw [own_modClient_self]
      exact hf'
  refine Filed.of_back hle (hgive.file (Or.inr rfl) (Or.inr rfl) hhere hg) ?_ ?_
  · change t.selmon ∈ t.mons
    rw [hselmon, hmons]
    exact h.selmon
  · change ∀ d, base d → t.live d = true
    rw [hlive]
    exact h.alive

theorem selmon_withdraw (c : ClientId) (s : State) : (withdraw c s).selmon = s.selmon :=
  selmon_detachstack c _

protected theorem Inv.withdraw (c : ClientId) (h : Inv outC outS s) :
    Inv (fun d => outC d ∨ d = c) (fun d => outS d ∨ d = c) (withdraw c s) :=
  ((h.redrawn (Redrawn.refl s).unfocus).detach c).detachstack c

protected theorem Filed.sendmon (h : Filed lost base s) (hc : Here s c) (hm : m ∈ s.mons) :
    Filed lost base (sendmon c m s) := by
  unfold Dwm.sendmon
  split
  · exact h
  · have hrel := relinked_withdraw c s
    obtain ⟨g, heq, hg⟩ := attachx_eq attachmode c ((withdraw c s).modClient c fun k =>
      { k with mon := m, tags := ((withdraw c s).monitor m).tags })
    have hmove := h.move (t := withdraw c s) hc hrel.mons hrel.live (selmon_withdraw c s)
      (fun _ hi => hi.withdraw c) hm hg
    rw [← heq] at hmove
    exact hmove.focusNone.redrawn (Redrawn.refl _).arrange

theorem mons_sendmon (c : ClientId) (m : MonId) (s : State) : (sendmon c m s).mons = s.mons := by
  unfold sendmon
  split
  · rfl
  · have hrel := (((Relinked.refl ((withdraw c s).modClient c fun k =>
      { k with mon := m, tags := ((withdraw c s).monitor m).tags })).attachx
        (n := attachmode) (c := c)).attachstack (c := c)).focus (c := none)
    exact hrel.arrange.mons.trans (relinked_withdraw c s).mons

/-! ## `rotatestack` -/

theorem mem_tiled (h : c ∈ s.tiled m) : c ∈ s.clientsOf m ∧ s.isTiled c = true :=
  List.mem_filter.mp h

/-- `rotatestack` drops the client: it turns backwards, a client is selected,
and the only client of the selected monitor is tiled. -/
def Drops (i : Int) (s : State) : Prop :=
  i ≤ 0 ∧ s.sel ≠ none ∧ ∃ c, s.selM.clients = [c] ∧ s.isTiled c = true

/-- `enqueue` on a list that is not empty is one more way to link a client in. -/
theorem enqueue_eq (h : s.clientsOf (s.own c) ≠ []) :
    enqueue c s = linkClient (· ++ [c]) c s := by
  have h' : (s.monitor (s.own c)).clients ≠ [] := h
  simp only [enqueue, linkClient, State.modMon, if_neg h']

/-- `enqueue` on an empty list does nothing to the lists. -/
theorem enqueue_unmoved (h : s.clientsOf (s.own c) = []) : Unmoved s (enqueue c s) := by
  refine ⟨rfl, rfl, rfl, rfl, rfl, ?_⟩
  have h' : (s.monitor (s.own c)).clients = [] := h
  funext k
  rw [enqueue, lists_modMon]
  by_cases hk : k = s.own c
  · subst hk
    rw [if_pos rfl, if_pos h', ← h']
    rfl
  · rw [if_neg hk]

theorem enqueuestack_eq (h : s.stackOf (s.own c) ≠ []) :
    enqueuestack c s = linkStack (· ++ [c]) c s := by
  have h' : (s.monitor (s.own c)).stack ≠ [] := h
  simp only [enqueuestack, linkStack, State.modMon, if_neg h']

theorem enqueuestack_unmoved (h : s.stackOf (s.own c) = []) : Unmoved s (enqueuestack c s) := by
  refine ⟨rfl, rfl, rfl, rfl, rfl, ?_⟩
  have h' : (s.monitor (s.own c)).stack = [] := h
  funext k
  rw [enqueuestack, lists_modMon]
  by_cases hk : k = s.own c
  · subst hk
    rw [if_pos rfl, if_pos h', ← h']
    rfl
  · rw [if_neg hk]

/-- The two splices on the `clients` list, turning backwards. -/
theorem Filed.requeue (h : Filed lost base s) (hc : Here s c)
    (hlost : (s.clientsOf (s.own c)).erase c = [] → lost c) :
    Filed lost base (enqueue c (detach c s)) := by
  have hclients : (detach c s).clientsOf (s.own c) = (s.clientsOf (s.own c)).erase c := by
    rw [State.clientsOf, lists_detach, if_pos rfl]
  by_cases hnil : (detach c s).clientsOf (s.own c) = []
  · obtain ⟨outC, hle, hinv⟩ := h.inv
    have hun : Unmoved (detach c s) (enqueue c (detach c s)) := enqueue_unmoved hnil
    refine ⟨⟨_, ?_, (hinv.detach c).unmoved hun⟩, h.selmon, h.alive⟩
    rintro d (hd | rfl)
    · exact hle d hd
    · exact hlost (hclients.symm.trans hnil)
  · rw [show enqueue c (detach c s) = linkClient (· ++ [c]) c (detach c s) from enqueue_eq hnil]
    exact h.relink hc List.perm_append_comm

/-- The two splices on the stack, turning backwards: a client that drops off
the stack is alone on it, so it is the selected one, and it is visible; then
`focus` puts it back. -/
theorem Filed.requeuestack {f : ClientId} (h : Filed lost base s) (hc : Here s c)
    (hown : s.own c = s.selmon) (hvis : s.visible c = true) (hf : s.sel = some f)
    (hst : Redrawn (enqueuestack c (detachstack c s)) t) :
    Filed lost base (focus (some f) t) := by
  have hrel := (Relinked.refl s).detachstack (c := c)
  have hown' : (detachstack c s).own c = s.own c := by rw [hrel.own]
  obtain ⟨hfhere, hfown⟩ := h.here_of_sel hf
  have hstack : (detachstack c s).stackOf (s.own c) = (s.stackOf (s.own c)).erase c := by
    rw [State.stackOf, lists_detachstack, if_pos rfl]
  by_cases hnil : (detachstack c s).stackOf ((detachstack c s).own c) = []
  · obtain ⟨outC, hle, hinv⟩ := h.inv
    have hun : Unmoved (detachstack c s) t := (enqueuestack_unmoved hnil).redraw hst
    have hfc : f = c := by
      have hmem : f ∈ s.stackOf s.selmon := hinv.sel _ h.selmon f hf
      rw [hown', hstack, hown] at hnil
      by_contra hne
      have := (List.mem_erase_of_ne hne).mpr hmem
      rw [hnil] at this
      cases this
    subst hfc
    have hvis' : t.visible f = true := by
      have hstate : Relinked s (enqueuestack f (detachstack f s)) :=
        (Relinked.refl s).detachstack.enqueuestack
      rw [(hstate.redraw hst).visible]
      exact hvis
    have htarget : focusTarget (some f) t = some f := if_pos hvis'
    have hhere : Here t f := by
      refine Here.unmoved ?_ hun
      exact hc.relinked hrel
    have hfiled := ((hinv.detachstack f).unmoved hun).focus_some htarget hhere
    refine ⟨⟨outC, hle, hfiled.out_congr (fun _ _ => Iff.rfl) fun d _ => ?_⟩, ?_, ?_⟩
    · constructor
      · exact False.elim
      · rintro ⟨hd | hd, hne⟩
        · exact hd
        · exact hne hd
    · rw [selmon_focus, htarget, (Relinked.refl t).focus.mons]
      exact hhere.2
    · rw [(Relinked.refl t).focus.live, hun.live, hrel.live]
      exact h.alive
  · rw [enqueuestack_eq hnil] at hst
    refine ((h.restack (f := (· ++ [c])) hc List.perm_append_comm).redrawn hst).focus ?_
    rintro d hd
    cases hd
    have hlinked : Relinked s (linkStack (· ++ [c]) c (detachstack c s)) := hrel.modMon
    exact (hfhere.relinked hlinked).unmoved hst.unmoved

/-- **`rotatestack`.**  Only a client that is dropped goes off its list. -/
protected theorem Filed.rotatestack (i : Int) (h : Filed lost base s)
    (hdrop : Drops i s → ∀ c, s.selM.clients = [c] → lost c) :
    Filed lost base (rotatestack i s) := by
  unfold Dwm.rotatestack
  split
  · rename_i f hf
    obtain ⟨hfhere, -⟩ := h.here_of_sel hf
    split
    · split
      · rename_i c hc
        have hmem := mem_tiled (List.mem_of_getLast? hc)
        have hhere := (h.here_of_mem h.selmon hmem.1).1
        have hrel := (Relinked.refl s).detach (c := c) |>.attach (c := c)
        have hlinked := h.relink (f := (c :: ·)) hhere (.refl _)
        have hboth := hlinked.restack (f := (c :: ·)) (hhere.relinked hrel) (.refl _)
        refine (hboth.redrawn (Redrawn.refl _).arrangesel).focus ?_
        rintro d hd
        cases hd
        exact (hfhere.relinked (hrel.detachstack (c := c) |>.attachstack (c := c))).unmoved
          (Redrawn.refl _).arrangesel.unmoved
      · exact h
    · rename_i hi
      split
      · rename_i c hc
        have hmem := mem_tiled (List.mem_of_head? hc)
        obtain ⟨hhere, hown⟩ := h.here_of_mem h.selmon hmem.1
        have hrel : Relinked s (enqueue c (detach c s)) := (Relinked.refl s).detach.enqueue
        have hqueued : Filed lost base (enqueue c (detach c s)) := by
          refine h.requeue hhere fun hnil => ?_
          rw [hown] at hnil
          have hsingle : s.selM.clients = [c] := by
            have hperm := List.perm_cons_erase hmem.1
            rw [hnil] at hperm
            exact List.perm_singleton.mp hperm
          have hsel : s.sel ≠ none := by
            rw [hf]
            exact Option.some_ne_none f
          exact hdrop ⟨by omega, hsel, c, hsingle, hmem.2⟩ c hsingle
        refine hqueued.requeuestack (hhere.relinked hrel) ?_ ?_ ?_ (Redrawn.refl _).arrangesel
        · rw [hrel.own]
          exact hown
        · rw [hrel.visible]
          exact (Bool.and_eq_true_iff.mp hmem.2).2
        · change ((enqueue c (detach c s)).lists s.selmon).sel = some f
          rw [← hf]
          change _ = (s.lists s.selmon).sel
          rw [enqueue, lists_modMon]
          split
          · rename_i hk
            change ((detach c s).lists ((detach c s).own c)).sel = _
            rw [← hk, lists_detach]
            split <;> rfl
          · rw [lists_detach]
            split <;> rfl
      · exact h
  · exact h

/-! ## Picking monitors and clients by position -/

/-- A scan for the largest area returns what it began with or an element. -/
theorem foldl_largest {A B : Type} (mk : A → B) (area : A → Int) (l : List A) (r : B × Int) :
    (l.foldl (fun r a => if area a > r.2 then (mk a, area a) else r) r).1 = r.1 ∨
      ∃ a ∈ l, (l.foldl (fun r a => if area a > r.2 then (mk a, area a) else r) r).1 = mk a := by
  induction l generalizing r with
  | nil => exact Or.inl rfl
  | cons a l ih =>
      rw [List.foldl_cons]
      rcases ih (if area a > r.2 then (mk a, area a) else r) with h | ⟨b, hb, h⟩
      · rw [h]
        split
        · exact Or.inr ⟨a, List.mem_cons_self, rfl⟩
        · exact Or.inl rfl
      · exact Or.inr ⟨b, List.mem_cons_of_mem a hb, h⟩

theorem recttomon_mem (x y w k : Int) (h : s.selmon ∈ s.mons) : recttomon x y w k s ∈ s.mons := by
  rcases foldl_largest (fun m => m) (fun m => intersect x y w k (s.monitor m).wx (s.monitor m).wy
    (s.monitor m).ww (s.monitor m).wh) s.mons (s.selmon, 0) with hr | ⟨m, hm, hr⟩
  · have hr' : recttomon x y w k s = s.selmon := hr
    exact hr' ▸ h
  · have hr' : recttomon x y w k s = m := hr
    exact hr' ▸ hm

theorem recttoclient_mem {x y w k : Int} (h : recttoclient x y w k s = some c) :
    c ∈ s.clientsOf s.selmon := by
  rcases foldl_largest some (fun c => intersect x y w k (s.geom c).x (s.geom c).y
    (s.geom c).w (s.geom c).h) (s.tiled s.selmon) (none, 0) with hr | ⟨d, hd, hr⟩
  · have h' : some c = none := h.symm.trans hr
    cases h'
  · have h' : some c = some d := h.symm.trans hr
    cases h'
    exact (mem_tiled hd).1

/-! ## `tagswapmon` -/

theorem Inv.withdrawAll (cs : List ClientId) (h : Inv outC outS s) :
    Inv (fun d => outC d ∨ d ∈ cs) (fun d => outS d ∨ d ∈ cs)
      (cs.foldl (fun s c => withdraw c s) s) := by
  induction cs generalizing s outC outS with
  | nil => exact h.out_congr (fun d _ => by simp) fun d _ => by simp
  | cons c cs ih =>
      refine (ih (h.withdraw c)).out_congr (fun d _ => ?_) fun d _ => ?_ <;>
        rw [List.mem_cons, or_assoc]

theorem relinked_withdrawAll (cs : List ClientId) (s : State) :
    Relinked s (cs.foldl (fun s c => withdraw c s) s) := by
  induction cs generalizing s with
  | nil => exact .refl s
  | cons c cs ih => exact (relinked_withdraw c s).trans (ih _)

theorem selmon_withdrawAll (cs : List ClientId) (s : State) :
    (cs.foldl (fun s c => withdraw c s) s).selmon = s.selmon := by
  induction cs generalizing s with
  | nil => rfl
  | cons c cs ih => exact (ih _).trans (selmon_withdraw c s)

/-- What `settle` leaves alone. -/
theorem settle_keeps (m : MonId) (c : ClientId) (s : State) :
    (settle m c s).mons = s.mons ∧ (settle m c s).live = s.live ∧
      (settle m c s).selmon = s.selmon ∧ (settle m c s).settings = s.settings ∧
      ∀ d, d ≠ c → (settle m c s).seat d = s.seat d := by
  have hmod : ∀ d, d ≠ c → (s.modClient c fun k =>
      { k with mon := m, tags := (s.monitor m).tags }).seat d = s.seat d := fun d hd => by
    simp [State.seat, State.modClient, hd]
  have hrel : Relinked (s.modClient c fun k => { k with mon := m, tags := (s.monitor m).tags })
      (settle m c s) := by
    unfold settle
    dsimp only
    split
    · exact ((Relinked.refl _).attach.attachstack).redraw (Redrawn.refl _).resizeclient
    · exact (Relinked.refl _).attach.attachstack
  refine ⟨hrel.mons, hrel.live, ?_, hrel.settings, fun d hd => ?_⟩
  · unfold settle
    dsimp only
    split <;> rfl
  · rw [hrel.seat]
    exact hmod d hd

protected theorem Inv.settle (h : Inv outC outS s) (hC : outC c) (hS : outS c) (hl : s.live c = true)
    (hm : m ∈ s.mons) :
    Inv (fun d => outC d ∧ d ≠ c) (fun d => outS d ∧ d ≠ c) (settle m c s) := by
  have hgive := h.give (c := c) (f := fun k => { k with mon := m, tags := (s.monitor m).tags })
    hC hS hm
  have hfile := hgive.file (f := (c :: ·)) hC hS ⟨hl, by rw [own_modClient_self]; exact hm⟩ (.refl _)
  unfold settle
  dsimp only
  split
  · exact hfile.redrawn (Redrawn.refl _).resizeclient
  · exact hfile

/-- Clients that are out of both lists come back one after the other. -/
theorem Inv.settleAll {cs : List ClientId} (h : Inv outC outS s) (hnd : cs.Nodup)
    (hcs : ∀ d ∈ cs, outC d ∧ outS d ∧ s.live d = true) (hm : m ∈ s.mons) :
    Inv (fun d => outC d ∧ d ∉ cs) (fun d => outS d ∧ d ∉ cs)
      (cs.foldl (fun s c => settle m c s) s) := by
  induction cs generalizing s outC outS with
  | nil => exact h.out_congr (fun d _ => by simp) fun d _ => by simp
  | cons c cs ih =>
      obtain ⟨hc, hnd⟩ := List.nodup_cons.mp hnd
      obtain ⟨hC, hS, hl⟩ := hcs c List.mem_cons_self
      obtain ⟨hmons, hlive, -, -, -⟩ := settle_keeps m c s
      refine (ih (h.settle hC hS hl hm) hnd (fun d hd => ?_) (by rw [hmons]; exact hm)).out_congr
        (fun d _ => ?_) fun d _ => ?_
      · obtain ⟨hC', hS', hl'⟩ := hcs d (List.mem_cons_of_mem c hd)
        have hne : d ≠ c := fun hdc => hc (hdc ▸ hd)
        exact ⟨⟨hC', hne⟩, ⟨hS', hne⟩, by rw [hlive]; exact hl'⟩
      · rw [List.mem_cons, not_or, and_assoc]
      · rw [List.mem_cons, not_or, and_assoc]

theorem settleAll_keeps (m : MonId) (cs : List ClientId) (s : State) :
    (cs.foldl (fun s c => settle m c s) s).mons = s.mons ∧
      (cs.foldl (fun s c => settle m c s) s).live = s.live ∧
      (cs.foldl (fun s c => settle m c s) s).selmon = s.selmon ∧
      (cs.foldl (fun s c => settle m c s) s).settings = s.settings := by
  induction cs generalizing s with
  | nil => exact ⟨rfl, rfl, rfl, rfl⟩
  | cons c cs ih =>
      obtain ⟨hmons, hlive, hsel, hset, -⟩ := settle_keeps m c s
      obtain ⟨hmons', hlive', hsel', hset'⟩ := ih (settle m c s)
      exact ⟨hmons'.trans hmons, hlive'.trans hlive, hsel'.trans hsel, hset'.trans hset⟩

/-- The last loop of `tagswapmon` always settles on the same monitor. -/
theorem settle_selmon (cs : List ClientId) (s : State) :
    cs.foldl (fun s c => settle s.selmon c s) s =
      cs.foldl (fun t c => settle s.selmon c t) s := by
  suffices h : ∀ u : State, u.selmon = s.selmon →
      cs.foldl (fun s c => settle s.selmon c s) u =
        cs.foldl (fun t c => settle s.selmon c t) u from h s rfl
  induction cs with
  | nil => exact fun _ _ => rfl
  | cons c cs ih =>
      intro u hu
      simp only [List.foldl_cons, hu]
      exact ih _ ((settle_keeps s.selmon c u).2.2.1.trans hu)

theorem headD_mem {l : List MonId} (h : m ∈ l) (d : MonId) : l.headD d ∈ l := by
  cases l with
  | nil => cases h
  | cons k l => exact List.mem_cons_self

theorem getLastD_mem {l : List MonId} (h : m ∈ l) (d : MonId) : l.getLastD d ∈ l := by
  cases l with
  | nil => cases h
  | cons k l =>
      rw [List.getLastD_cons]
      exact List.getLastD_mem_cons

theorem getD_mem {l : List MonId} {d : MonId} (h : d ∈ l) (i : Nat) : (l[i]?).getD d ∈ l := by
  cases hi : l[i]? with
  | none => exact h
  | some k => exact List.mem_of_getElem? hi

theorem dirtomon_mem (i : Int) (h : s.selmon ∈ s.mons) : dirtomon i s ∈ s.mons := by
  unfold dirtomon
  dsimp only
  split
  · exact getD_mem (headD_mem h _) _
  · split
    · exact getLastD_mem h _
    · exact getD_mem h _

protected theorem Filed.tagswapmon (i : Int) (h : Filed lost base s) :
    Filed lost base (tagswapmon i s) := by
  unfold Dwm.tagswapmon
  split
  · exact h
  · dsimp only
    obtain ⟨outC, hle, hinv⟩ := h.inv
    have hm := dirtomon_mem i h.selmon
    generalize hsc : s.selM.clients.filter s.visible = sc
    have hscmem : ∀ d ∈ sc, d ∈ s.clientsOf s.selmon := fun d hd => by
      rw [← hsc] at hd
      exact (List.mem_filter.mp hd).1
    have hscnd : sc.Nodup := hsc ▸ (hinv.clients.nodup _ h.selmon).filter _
    have hrel₁ := relinked_withdrawAll sc s
    have hinv₁ := hinv.withdrawAll sc
    have hsel₁ := selmon_withdrawAll sc s
    generalize sc.foldl (fun s c => withdraw c s) s = s₁ at hrel₁ hinv₁ hsel₁ ⊢
    generalize hmc : (s₁.monitor (dirtomon i s)).clients.filter s₁.visible = mc
    have hm₁ : dirtomon i s ∈ s₁.mons := by
      rw [hrel₁.mons]
      exact hm
    have hmcmem : ∀ d ∈ mc, d ∈ s₁.clientsOf (dirtomon i s) := fun d hd => by
      rw [← hmc] at hd
      exact (List.mem_filter.mp hd).1
    have hmcnd : mc.Nodup := hmc ▸ (hinv₁.clients.nodup _ hm₁).filter _
    have hdisj : ∀ d ∈ mc, d ∉ sc := fun d hd hds =>
      (hinv₁.clients.owned _ hm₁ d (hmcmem d hd)).2.2 (Or.inr hds)
    have hmclive : ∀ d ∈ mc, s₁.live d = true := fun d hd =>
      (hinv₁.clients.owned _ hm₁ d (hmcmem d hd)).1
    have hrel₂ := relinked_withdrawAll mc s₁
    have hinv₂ := hinv₁.withdrawAll mc
    have hsel₂ := selmon_withdrawAll mc s₁
    generalize mc.foldl (fun s c => withdraw c s) s₁ = s₂ at hrel₂ hinv₂ hsel₂ ⊢
    have hm₂ : dirtomon i s ∈ s₂.mons := by
      rw [hrel₂.mons]
      exact hm₁
    have hinv₃ := hinv₂.settleAll (m := dirtomon i s)
      (List.nodup_reverse.mpr hscnd) (fun d hd => by
        have hd := List.mem_reverse.mp hd
        refine ⟨Or.inl (Or.inr hd), Or.inl (Or.inr hd), ?_⟩
        rw [hrel₂.live, hrel₁.live]
        exact (hinv.clients.owned _ h.selmon d (hscmem d hd)).1) hm₂
    obtain ⟨hmons₃, hlive₃, hsel₃, -⟩ := settleAll_keeps (dirtomon i s) sc.reverse s₂
    generalize sc.reverse.foldl (fun s' c => settle (dirtomon i s) c s') s₂ = s₃
      at hinv₃ hmons₃ hlive₃ hsel₃ ⊢
    rw [settle_selmon]
    have hselmon : s₃.selmon = s.selmon := hsel₃.trans (hsel₂.trans hsel₁)
    have hmons : s₃.mons = s.mons := hmons₃.trans (hrel₂.mons.trans hrel₁.mons)
    have hlive : s₃.live = s₁.live := hlive₃.trans hrel₂.live
    have hsel : s₃.selmon ∈ s₃.mons := by
      rw [hselmon, hmons]
      exact h.selmon
    have hinv₄ := hinv₃.settleAll (List.nodup_reverse.mpr hmcnd) (fun d hd => by
      have hd := List.mem_reverse.mp hd
      have hns : d ∉ sc.reverse := fun hds => hdisj d hd (List.mem_reverse.mp hds)
      refine ⟨⟨Or.inr hd, hns⟩, ⟨Or.inr hd, hns⟩, ?_⟩
      rw [hlive]
      exact hmclive d hd) hsel
    obtain ⟨hmons₄, hlive₄, hsel₄, -⟩ := settleAll_keeps s₃.selmon mc.reverse s₃
    refine Filed.redrawn (Filed.focusNone ⟨⟨_, ?_, hinv₄.out_congr (fun _ _ => Iff.rfl) ?_⟩, ?_, ?_⟩)
      (Redrawn.refl _).arrange
    · rintro d ⟨⟨(hd | hd) | hd, hns⟩, hnm⟩
      · exact hle d hd
      · exact absurd (List.mem_reverse.mpr hd) hns
      · exact absurd (List.mem_reverse.mpr hd) hnm
    · intro d _
      constructor
      · exact False.elim
      · rintro ⟨⟨(hd | hd) | hd, hns⟩, hnm⟩
        · exact hd
        · exact hns (List.mem_reverse.mpr hd)
        · exact hnm (List.mem_reverse.mpr hd)
    · rw [hsel₄, hmons₄]
      exact hsel
    · rw [hlive₄, hlive, hrel₁.live]
      exact h.alive

end Dwm
