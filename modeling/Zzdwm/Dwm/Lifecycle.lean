import Zzdwm.Dwm.Filing

/-!
# Clients and monitors that come and go

`manage` and `unmanage` for clients, `updategeom` for monitors, and `setup`,
each with the lemma that it leaves every client filed.

* `Filed.manage`, `Filed.unmanage` — a client comes and goes;
* `Filed.updategeom` — no client is left behind on a monitor that goes;
* `filed_setup` — the event loop starts with nothing to file.
-/

namespace Dwm

open Ownership Machine

variable {lost base outC outS : ClientId → Prop} {s t : State} {c : ClientId} {m : MonId}

/-! ## `manage` -/

/-- The new client of `manage` is on no list yet. -/
protected theorem Inv.newclient (w : Window) (i : WinInfo) (h : Inv outC outS s)
    (hsel : s.selmon ∈ s.mons) (hfresh : s.live c = false) :
    Inv (fun d => outC d ∨ d = c) (fun d => outS d ∨ d = c) (newclient c w i s) ∧
      Here (newclient c w i s) c := by
  have hown : ∀ d, d ≠ c → (newclient c w i s).own d = s.own d := fun d hd => by
    simp [State.own, State.seat, newclient, hd]
  have hownc : (newclient c w i s).own c = s.selmon := by
    simp [State.own, State.seat, newclient]
  have hlive : ∀ d, d ≠ c → (newclient c w i s).live d = s.live d :=
    fun d hd => Function.update_of_ne hd ..
  have hlivec : (newclient c w i s).live c = true := Function.update_self ..
  refine ⟨⟨h.nodup, h.fresh, ?_, h.clients.admit hfresh hlive hown,
    h.stack.admit hfresh hlive hown, ?_, h.sel⟩, hlivec, ?_⟩
  · intro d hd
    by_cases hdc : d = c
    · subst hdc
      rw [hownc]
      exact h.fresh _ hsel
    · rw [hown d hdc]
      exact h.ownFresh d ((hlive d hdc).symm.trans hd)
  · intro d hd hn
    have hdc : d ≠ c := fun hdc => hn (Or.inr hdc)
    rw [hown d hdc]
    exact h.home d ((hlive d hdc).symm.trans hd) fun ho => hn (Or.inl ho)
  · rw [hownc]
    exact hsel

/-- An assignment to a client that is out, which leaves it on a linked monitor. -/
theorem Inv.assign {f : Client → Client} (h : Inv outC outS s) (hC : outC c) (hS : outS c)
    (hc : Here s c) (hf : (f (s.client c)).mon ∈ s.mons) :
    Inv outC outS (s.modClient c f) ∧ Here (s.modClient c f) c :=
  ⟨h.give hC hS hf, hc.1, by rw [own_modClient_self]; exact hf⟩

protected theorem Inv.applyrules (i : WinInfo) (h : Inv outC outS s) (hC : outC c) (hS : outS c)
    (hc : Here s c) : Inv outC outS (applyrules c i s) ∧ Here (applyrules c i s) c := by
  have hfold : ∀ (rs : List Rule) (u : State), Inv outC outS u ∧ Here u c →
      Inv outC outS (rs.foldl (fun s r =>
        let m := s.mons.find? fun m => (s.monitor m).num = r.monitor
        s.modClient c fun k => { k with
          isfloating := r.isfloating, tags := k.tags ||| r.tags, mon := m.getD k.mon }) u) ∧
      Here (rs.foldl (fun s r =>
        let m := s.mons.find? fun m => (s.monitor m).num = r.monitor
        s.modClient c fun k => { k with
          isfloating := r.isfloating, tags := k.tags ||| r.tags, mon := m.getD k.mon }) u) c := by
    intro rs
    induction rs with
    | nil => exact fun _ hu => hu
    | cons r rs ih =>
        intro u hu
        refine ih _ (hu.1.assign hC hS hu.2 ?_)
        dsimp only
        cases hm : u.mons.find? fun m => (u.monitor m).num = r.monitor with
        | none => exact hu.2.2
        | some m => exact List.mem_of_find?_eq_some hm
  unfold applyrules
  obtain ⟨hinv, hhere⟩ := hfold (rules.filter fun r => r.applies i) _
    (h.assign (f := fun k => { k with isfloating := false, tags := 0#32 }) hC hS hc hc.2)
  exact hinv.assign hC hS hhere hhere.2

protected theorem Inv.adopt {o : Option ClientId} (i : WinInfo) (h : Inv outC outS s)
    (hC : outC c) (hS : outS c) (hc : Here s c) (ho : ∀ d, o = some d → s.own d ∈ s.mons) :
    Inv outC outS (adopt c o i s) ∧ Here (adopt c o i s) c := by
  cases o with
  | none => exact h.applyrules i hC hS hc
  | some d => exact h.assign (f := fun k => { k with
      mon := (s.client d).mon, tags := (s.client d).tags }) hC hS hc (ho d rfl)

/-- `manage` files the new client. -/
protected theorem Filed.enlist (hle : ∀ d, outC d → lost d)
    (hinv : Inv (fun d => outC d ∨ d = c) (fun d => nobody d ∨ d = c) s) (hc : Here s c)
    (hsel : s.selmon ∈ s.mons) (halive : ∀ d, base d → s.live d = true) :
    Filed lost base (enlist c s) ∧ (enlist c s).selmon = s.selmon := by
  obtain ⟨g, heq, hg⟩ := attachx_eq attachmode c s
  have hfile := hinv.file (Or.inr rfl) (Or.inr rfl) hc hg
  rw [← heq] at hfile
  have hselmon : (attachstack c (attachx attachmode c s)).selmon = s.selmon := by
    rw [heq]
    rfl
  have hrel : Relinked s (attachstack c (attachx attachmode c s)) :=
    (Relinked.refl s).attachx.attachstack
  have hfiled : Filed lost base (attachstack c (attachx attachmode c s)) :=
    Filed.of_back hle hfile (by rw [hselmon, hrel.mons]; exact hsel) (hrel.live ▸ halive)
  unfold enlist
  generalize attachstack c (attachx attachmode c s) = u at hselmon hrel hfiled ⊢
  have hun := Redrawn.ite (p := u.own c = u.selmon) ((Redrawn.refl u).unfocus (c := u.sel))
    (.refl u)
  refine ⟨((hfiled.redrawn hun).select ((hc.relinked hrel).unmoved hun.unmoved) rfl).redrawn
    (Redrawn.refl _).arrange, ?_⟩
  exact hun.selmon.trans hselmon

/-- Nothing but one client, out of all lists, differs. -/
structure Assigned (c : ClientId) (s t : State) : Prop where
  seat : ∀ d, d ≠ c → t.seat d = s.seat d
  live : t.live = s.live
  mons : t.mons = s.mons
  selmon : t.selmon = s.selmon
  nextmon : t.nextmon = s.nextmon
  lists : t.lists = s.lists
  settings : t.settings = s.settings

theorem Assigned.refl (c : ClientId) (s : State) : Assigned c s s :=
  ⟨fun _ _ => rfl, rfl, rfl, rfl, rfl, rfl, rfl⟩

protected theorem Assigned.modClient {f : Client → Client} (h : Assigned c s t) :
    Assigned c s (t.modClient c f) :=
  ⟨fun d hd => by
    rw [← h.seat d hd]
    simp [State.seat, State.modClient, hd], h.live, h.mons, h.selmon, h.nextmon, h.lists, h.settings⟩

protected theorem Assigned.redraw {u : State} (h : Assigned c s t) (h' : Redrawn t u) : Assigned c s u :=
  ⟨fun d hd => by rw [h'.seat, h.seat d hd], h'.live.trans h.live, h'.mons.trans h.mons,
    h'.selmon.trans h.selmon, h'.nextmon.trans h.nextmon, h'.lists.trans h.lists,
    h'.settings.trans h.settings⟩

protected theorem Assigned.applyrules (i : WinInfo) (h : Assigned c s t) :
    Assigned c s (applyrules c i t) := by
  unfold applyrules
  refine Assigned.modClient ?_
  have hstart := h.modClient (f := fun k => { k with isfloating := false, tags := 0#32 })
  generalize (t.modClient c fun k => { k with isfloating := false, tags := 0#32 }) = u at hstart ⊢
  generalize rules.filter (fun r => r.applies i) = rs
  induction rs generalizing u with
  | nil => exact hstart
  | cons r rs ih => exact ih _ hstart.modClient

protected theorem Assigned.adopt (o : Option ClientId) (i : WinInfo) (h : Assigned c s t) :
    Assigned c s (adopt c o i t) := by
  cases o with
  | none => exact h.applyrules i
  | some d => exact h.modClient (f := fun k => { k with
      mon := (t.client d).mon, tags := (t.client d).tags })

protected theorem Assigned.setsticky {b : Bool} (h : Assigned c s t) : Assigned c s (setsticky c b t) := by
  unfold setsticky
  split
  · exact h.modClient
  · split
    · exact h.modClient.redraw (Redrawn.refl _).arrange
    · exact h

protected theorem Assigned.updatewindowtype (n : NetState) (b : Bool) (h : Assigned c s t) :
    Assigned c s (updatewindowtype c n b t) := by
  have hdialog : ∀ {u : State}, Assigned c s u → Assigned c s (if b then
      u.modClient c fun k => { k with isfloating := true } else u) := by
    intro u hu
    split
    · exact hu.modClient
    · exact hu
  cases n with
  | fullscreen => exact hdialog (h.redraw (redrawn_setfullscreen c true t))
  | sticky => exact hdialog h.setsticky
  | other => exact hdialog h

protected theorem Assigned.dress (i : WinInfo) (h : Assigned c s t) : Assigned c s (dress c i t) := by
  unfold dress
  refine Assigned.modClient (Assigned.redraw (Assigned.redraw (Assigned.modClient
    (Assigned.updatewindowtype _ _ ?_)) (redrawn_updatemotifhints _ _ _)) (Redrawn.refl _).modGeom)
  exact h.redraw (Redrawn.refl t).modGeom

theorem relinked_enroll (c : ClientId) (s : State) : Relinked s (enroll c s) := by
  have hrel : Relinked s (attachstack c (attachx attachmode c s)) :=
    (Relinked.refl s).attachx.attachstack
  unfold enroll enlist
  generalize attachstack c (attachx attachmode c s) = u at hrel ⊢
  have hun := Redrawn.ite (p := u.own c = u.selmon) ((Redrawn.refl u).unfocus (c := u.sel))
    (.refl u)
  exact (hrel.redraw hun).modMon.arrange.focus

/-- What `manage` leaves alone. -/
theorem manage_keeps (c : ClientId) (w : Window) (i : WinInfo) (s : State) :
    (∀ d, d ≠ c → (manage c w i s).seat d = s.seat d) ∧ (manage c w i s).mons = s.mons ∧
      (manage c w i s).settings = s.settings := by
  unfold manage
  split
  · exact ⟨fun _ _ => rfl, rfl, rfl⟩
  · have hassigned := ((Assigned.refl c (newclient c w i s)).adopt
      (i.transient.bind s.wintoclient) i).dress i
    have hrel := relinked_enroll c
      (dress c i (adopt c (i.transient.bind s.wintoclient) i (newclient c w i s)))
    refine ⟨fun d hd => ?_, hrel.mons.trans hassigned.mons, hrel.settings.trans hassigned.settings⟩
    rw [hrel.seat, hassigned.seat d hd]
    simp [State.seat, newclient, hd]

protected theorem Filed.manage (w : Window) (i : WinInfo) (h : Filed lost base s)
    (hfresh : s.live c = false) :
    Filed lost base (manage c w i s) ∧ (manage c w i s).selmon = s.selmon := by
  unfold manage
  split
  · exact ⟨h, rfl⟩
  · obtain ⟨outC, hle, hinv⟩ := h.inv
    obtain ⟨hinv₁, hhere₁⟩ := hinv.newclient w i h.selmon hfresh
    obtain ⟨hinv₂, hhere₂⟩ := hinv₁.adopt (o := i.transient.bind s.wintoclient) i (Or.inr rfl)
      (Or.inr rfl) hhere₁ fun d hd => by
        obtain ⟨w', -, hw'⟩ := Option.bind_eq_some_iff.mp hd
        have hd' := h.here_of_window hw'
        have hdc : d ≠ c := by
          rintro rfl
          exact Bool.noConfusion (hfresh.symm.trans hd'.1)
        have hown : (newclient c w i s).own d = s.own d := by
          simp [State.own, State.seat, newclient, hdc]
        rw [hown]
        exact hd'.2
    have hassigned := (Assigned.refl c (newclient c w i s)).adopt (i.transient.bind s.wintoclient) i
    have hdress := hassigned.dress i
    have halive : ∀ d, base d → (dress c i (adopt c (i.transient.bind s.wintoclient) i
        (newclient c w i s))).live d = true := by
      rw [hdress.live]
      intro d hd
      by_cases hdc : d = c
      · subst hdc
        exact hhere₁.1
      · exact (Function.update_of_ne hdc ..).trans (h.alive d hd)
    obtain ⟨hfiled, hselmon⟩ := Filed.enlist hle
      (hinv₂.unmoved (unmoved_dress c i _)) (hhere₂.unmoved (unmoved_dress c i _))
      (by rw [hdress.selmon, hdress.mons]; exact h.selmon) halive
    exact ⟨hfiled.focusNone, hfiled.selmon_focusNone.trans (hselmon.trans hdress.selmon)⟩

/-! ## `unmanage` -/

protected theorem Filed.unmanage (h : Filed lost base s) (hbase : ¬ base c) :
    Filed lost base (unmanage c s) := by
  obtain ⟨outC, hle, hinv⟩ := h.inv
  have hrel : Relinked s (detachstack c (detach c s)) := (Relinked.refl s).detach.detachstack
  have hout := ((hinv.detach c).detachstack c).free (c := c) (Or.inr rfl) (Or.inr rfl)
  refine Filed.redrawn (Filed.focusNone (Filed.of_back hle hout ?_ ?_)) (Redrawn.refl _).arrange
  · change (detachstack c (detach c s)).selmon ∈ (detachstack c (detach c s)).mons
    rw [selmon_detachstack, hrel.mons]
    exact h.selmon
  · intro d hd
    have hdc : d ≠ c := by
      rintro rfl
      exact hbase hd
    change Function.update (detachstack c (detach c s)).live c false d = true
    rw [Function.update_of_ne hdc, hrel.live]
    exact h.alive d hd

/-! ## `updategeom` -/

theorem lists_addmon (s : State) (k : MonId) :
    (addmon s).lists k = if k = s.nextmon then ⟨[], [], none⟩ else s.lists k := by
  by_cases hk : k = s.nextmon
  · subst hk
    rw [if_pos rfl]
    simp [State.lists, addmon, createmon]
  · simp [State.lists, addmon, hk]

protected theorem Inv.addmon (h : Inv outC outS s) : Inv outC outS (addmon s) := by
  have howners : ∀ k, k ∈ (addmon s).mons ↔ k ∈ s.mons ∨ k = s.nextmon := fun k => by
    simp [addmon]
  have hne : ∀ k, k ∈ s.mons → k ≠ s.nextmon := fun k hk => Nat.ne_of_lt (h.fresh k hk)
  have hown : ∀ d, s.live d = true → s.own d = s.nextmon → False := fun d hd =>
    Nat.ne_of_lt (h.ownFresh d hd)
  refine ⟨?_, ?_, ?_, ?_, ?_, ?_, ?_⟩
  · refine List.nodup_append.mpr ⟨h.nodup, List.nodup_singleton _, ?_⟩
    rintro k hk d hd rfl
    exact hne k hk (List.mem_singleton.mp hd)
  · intro k hk
    change k < s.nextmon + 1
    rcases (howners k).mp hk with hk | rfl
    · exact Nat.lt_succ_of_lt (h.fresh k hk)
    · exact Nat.lt_succ_self _
  · exact fun d hd => Nat.lt_succ_of_lt (h.ownFresh d hd)
  · refine h.clients.addOwner howners (fun d hd ho => (hown d hd ho).elim) ?_ fun k hk => ?_
    · rw [State.clientsOf, lists_addmon, if_pos rfl]
    · rw [State.clientsOf, lists_addmon, if_neg (hne k hk)]
      rfl
  · refine h.stack.addOwner howners (fun d hd ho => (hown d hd ho).elim) ?_ fun k hk => ?_
    · rw [State.stackOf, lists_addmon, if_pos rfl]
    · rw [State.stackOf, lists_addmon, if_neg (hne k hk)]
      rfl
  · intro d hd hn
    exact (howners _).mpr (Or.inl (h.home d hd hn))
  · intro k hk d hd
    rw [lists_addmon] at hd
    rw [State.stackOf, lists_addmon]
    split at hd
    · cases hd
    · rw [if_neg ‹_›]
      rcases (howners k).mp hk with hk | hk
      · exact h.sel k hk d hd
      · contradiction

/-- What `updategeom` never touches. -/
structure Refitted (s t : State) : Prop where
  live : t.live = s.live
  tags : ∀ d, t.tagsOf d = s.tagsOf d

theorem Refitted.trans {u : State} (h : Refitted s t) (h' : Refitted t u) : Refitted s u :=
  ⟨h'.live.trans h.live, fun d => (h'.tags d).trans (h.tags d)⟩

theorem length_addmons {A : Type} (l : List A) (s : State) :
    (l.foldl (fun s _ => addmon s) s).mons.length = s.mons.length + l.length := by
  induction l generalizing s with
  | nil => rfl
  | cons a l ih =>
      rw [List.foldl_cons, ih, List.length_cons]
      change (s.mons ++ [s.nextmon]).length + l.length = _
      rw [List.length_append, List.length_singleton]
      omega

/-- Appending new monitors. -/
theorem addmons_spec {A : Type} (l : List A) (h : Inv outC outS s) :
    Inv outC outS (l.foldl (fun s _ => addmon s) s) ∧
      Refitted s (l.foldl (fun s _ => addmon s) s) ∧
      (l.foldl (fun s _ => addmon s) s).selmon = s.selmon ∧
      ∀ k ∈ s.mons, k ∈ (l.foldl (fun s _ => addmon s) s).mons := by
  induction l generalizing s with
  | nil => exact ⟨h, ⟨rfl, fun _ => rfl⟩, rfl, fun _ hk => hk⟩
  | cons a l ih =>
      obtain ⟨hinv, hfit, hsel, hmem⟩ := ih h.addmon
      exact ⟨hinv, ⟨hfit.live, hfit.tags⟩, hsel, fun k hk => hmem k (List.mem_append_left _ hk)⟩

/-- Fitting the monitors to the screens moves no client. -/
theorem fitAll_spec (n i : Nat) (ms : List MonId) (rs : List Screen) (s : State) (b : Bool) :
    Unmoved s (fitAll n i ms rs (s, b)).1 ∧ (fitAll n i ms rs (s, b)).1.seat = s.seat := by
  induction ms generalizing i rs s b with
  | nil => cases rs <;> exact ⟨.refl s, rfl⟩
  | cons m ms ih =>
      cases rs with
      | nil => exact ⟨.refl s, rfl⟩
      | cons r rs =>
          rw [fitAll]
          split
          · obtain ⟨hun, hseat⟩ := ih (i + 1) rs (s.modSettings m (Settings.fit s.bh i r)) true
            exact ⟨(unmoved_modSettings m _ s).trans hun, hseat⟩
          · exact ih (i + 1) rs s b

/-- `rehome` moves the first client of a monitor to the first monitor. -/
protected theorem Inv.rehome {cs : List ClientId} (h : Inv outC nobody s) (hm : m ∈ s.mons)
    (hc : s.clientsOf m = c :: cs) (hne : s.mons.headD m ≠ m) :
    Inv outC nobody (rehome m c s) ∧ (rehome m c s).clientsOf m = cs := by
  obtain ⟨hl, hown, hn⟩ := h.clients.owned m hm c (hc ▸ List.mem_cons_self)
  have hun : Unmoved (detach c s) (s.modMon m fun k => { k with clients := k.clients.tail }) := by
    refine ⟨rfl, rfl, rfl, rfl, rfl, ?_⟩
    funext k
    rw [lists_modMon, lists_detach, hown]
    by_cases hk : k = m
    · subst hk
      have hc' : (s.monitor k).clients = c :: cs := hc
      rw [if_pos rfl, if_pos rfl, hc]
      simp only [hc', List.tail_cons, List.erase_cons_head]
      rfl
    · rw [if_neg hk, if_neg hk]
  generalize hu : (s.modMon m fun k => { k with clients := k.clients.tail }) = u at hun
  have hclients : u.clientsOf m = cs := by
    rw [State.clientsOf, ← hu, lists_modMon, if_pos rfl]
    change (s.clientsOf m).tail = cs
    rw [hc, List.tail_cons]
  have hinv := ((h.detach c).unmoved hun).detachstack c
  have hrel := (Relinked.refl u).detachstack (c := c)
  have hhead : s.mons.headD m ∈ (detachstack c u).mons := by
    rw [hrel.mons, hun.mons]
    exact headD_mem hm m
  have hgive := hinv.give (c := c) (f := fun k => { k with mon := s.mons.headD m })
    (Or.inr rfl) (Or.inr rfl) hhead
  have hhere : Here ((detachstack c u).modClient c fun k => { k with mon := s.mons.headD m }) c := by
    refine ⟨?_, by rw [own_modClient_self]; exact hhead⟩
    change (detachstack c u).live c = true
    rw [hrel.live, hun.live]
    exact hl
  have hfile := hgive.file (f := (c :: ·)) (Or.inr rfl) (Or.inr rfl) hhere (.refl _)
  have heq : rehome m c s = attachstack c (attach c
      ((detachstack c u).modClient c fun k => { k with mon := s.mons.headD m })) := by
    have hmons : (detachstack c u).mons = s.mons := hrel.mons.trans hun.mons
    rw [rehome, hu, hmons]
  rw [heq]
  refine ⟨hfile.out_congr (fun d _ => ?_) fun d _ => ?_, ?_⟩
  · constructor
    · intro hd
      exact ⟨Or.inl hd, fun hdc => hn (hdc ▸ hd)⟩
    · rintro ⟨hd | hd, hdc⟩
      · exact hd
      · exact absurd hd hdc
  · constructor
    · exact False.elim
    · rintro ⟨hd | hd, hdc⟩
      · exact hd
      · exact hdc hd
  · generalize hv : ((detachstack c u).modClient c fun k => { k with mon := s.mons.headD m }) = v
    have hother : m ≠ v.own c := by
      rw [← hv, own_modClient_self]
      exact fun h' => hne h'.symm
    have hstack : (linkStack (c :: ·) c (linkClient (c :: ·) c v)).lists m =
        (linkClient (c :: ·) c v).lists m := (lists_linkStack _ _ _ _).trans (if_neg hother)
    have hclient : (linkClient (c :: ·) c v).lists m = v.lists m :=
      (lists_linkClient _ _ _ _).trans (if_neg hother)
    change ((linkStack (c :: ·) c (linkClient (c :: ·) c v)).lists m).clients = cs
    rw [hstack, hclient, ← hv]
    change (detachstack c u).clientsOf m = cs
    rw [State.clientsOf, lists_detachstack, ← hclients]
    split <;> rfl

theorem Relinked.refitted (h : Relinked s t) : Refitted s t :=
  ⟨h.live, fun d => by rw [State.tagsOf, State.tagsOf, h.seat]⟩

theorem rehome_keeps (m : MonId) (c : ClientId) (s : State) :
    Refitted s (rehome m c s) ∧ (rehome m c s).mons = s.mons ∧
      (rehome m c s).selmon = s.selmon ∧ (rehome m c s).settings = s.settings := by
  have hrel : Relinked s (detachstack c (s.modMon m fun k =>
      { k with clients := k.clients.tail })) := (Relinked.refl s).modMon.detachstack
  have hsel : (detachstack c (s.modMon m fun k => { k with clients := k.clients.tail })).selmon
      = s.selmon := selmon_detachstack c _
  unfold rehome
  dsimp only
  generalize detachstack c (s.modMon m fun k => { k with clients := k.clients.tail }) = u
    at hrel hsel ⊢
  have hback := (Relinked.refl (u.modClient c fun k => { k with mon := u.mons.headD m })).attach
    (c := c) |>.attachstack (c := c)
  have hmod : Refitted u (u.modClient c fun k => { k with mon := u.mons.headD m }) := by
    refine ⟨rfl, fun d => ?_⟩
    by_cases hd : d = c
    · subst hd
      simp [State.tagsOf, State.seat, State.modClient]
    · simp [State.tagsOf, State.seat, State.modClient, hd]
  exact ⟨(hrel.refitted.trans hmod).trans hback.refitted, hback.mons.trans hrel.mons, hsel,
    hback.settings.trans hrel.settings⟩

/-- The inner loop over a removed monitor takes all its clients away. -/
theorem rehomeAll_spec (cs : List ClientId) (h : Inv outC nobody s) (hm : m ∈ s.mons)
    (hc : s.clientsOf m = cs) (hne : s.mons.headD m ≠ m) :
    Inv outC nobody (cs.foldl (fun s c => rehome m c s) s) ∧
      Refitted s (cs.foldl (fun s c => rehome m c s) s) ∧
      (cs.foldl (fun s c => rehome m c s) s).mons = s.mons ∧
      (cs.foldl (fun s c => rehome m c s) s).selmon = s.selmon ∧
      (cs.foldl (fun s c => rehome m c s) s).settings = s.settings ∧
      (cs.foldl (fun s c => rehome m c s) s).clientsOf m = [] := by
  induction cs generalizing s with
  | nil => exact ⟨h, ⟨rfl, fun _ => rfl⟩, rfl, rfl, rfl, hc⟩
  | cons c cs ih =>
      obtain ⟨hinv, hcs⟩ := h.rehome hm hc hne
      obtain ⟨hfit, hmons, hsel, hset⟩ := rehome_keeps m c s
      obtain ⟨hinv', hfit', hmons', hsel', hset', hnil⟩ := ih hinv (by rw [hmons]; exact hm) hcs
        (by rw [hmons]; exact hne)
      exact ⟨hinv', hfit.trans hfit', hmons'.trans hmons, hsel'.trans hsel, hset'.trans hset, hnil⟩

/-- A monitor without clients may go. -/
theorem Inv.cleanupmon (h : Inv outC nobody s) (hnil : s.clientsOf m = []) :
    Inv outC nobody (cleanupmon m s) where
  nodup := h.nodup.erase m
  fresh := fun k hk => h.fresh k (List.mem_of_mem_erase hk)
  ownFresh := h.ownFresh
  clients := h.clients.dropOwner fun _ hk => List.mem_of_mem_erase hk
  stack := h.stack.dropOwner fun _ hk => List.mem_of_mem_erase hk
  home := fun d hd hn => by
    have hown : s.own d ∈ s.mons := h.home d hd hn
    have hmem : d ∈ s.clientsOf (s.own d) := h.clients.listed d hd hown hn
    refine (List.mem_erase_of_ne fun hdm : s.own d = m => ?_).mpr hown
    rw [hdm, hnil] at hmem
    cases hmem
  sel := fun k hk => h.sel k (List.mem_of_mem_erase hk)

/-- In a list without repetitions the last of several elements is not the first. -/
theorem headD_ne_getLastD {l : List MonId} (hnd : l.Nodup) (hlen : 2 ≤ l.length) (d d' : MonId) :
    l.headD d ≠ l.getLastD d' := by
  cases l with
  | nil => simp at hlen
  | cons a l =>
      cases l with
      | nil => simp at hlen
      | cons b l =>
          intro h
          have hlast : (a :: b :: l).getLastD d' ∈ b :: l := by
            rw [List.getLastD_cons, List.getLastD_cons]
            exact List.getLastD_mem_cons
          rw [← h] at hlast
          exact (List.nodup_cons.mp hnd).1 hlast

/-- **Removing a monitor.**  Its clients go to the first monitor, which stays. -/
theorem removemon_spec (h : Inv outC nobody s) (hm : m ∈ s.mons)
    (hne : ∀ d, s.mons.headD d ≠ m) :
    Inv outC nobody (removemon m s) ∧ Refitted s (removemon m s) ∧
      (removemon m s).mons = s.mons.erase m ∧
      (s.selmon ∈ s.mons → (removemon m s).selmon ∈ s.mons.erase m) ∧
      (removemon m s).settings = s.settings := by
  obtain ⟨hinv, hfit, hmons, hsel, hset, hnil⟩ :=
    rehomeAll_spec (s.monitor m).clients h hm rfl (hne m)
  unfold removemon
  generalize (s.monitor m).clients.foldl (fun s c => rehome m c s) s = t
    at hinv hfit hmons hsel hset hnil ⊢
  dsimp only
  -- whichever monitor is selected afterwards, it is not the one that goes
  split
  · refine ⟨hinv.withSelmon.cleanupmon hnil, ⟨hfit.live, hfit.tags⟩, ?_, fun _ => ?_, hset⟩
    · exact congrArg (List.erase · m) hmons
    · change t.mons.headD t.selmon ∈ s.mons.erase m
      rw [hmons]
      exact (List.mem_erase_of_ne (hne _)).mpr (headD_mem hm _)
  · rename_i hms
    refine ⟨hinv.cleanupmon hnil, ⟨hfit.live, hfit.tags⟩, ?_, fun hs => ?_, hset⟩
    · exact congrArg (List.erase · m) hmons
    · refine (List.mem_erase_of_ne fun h' => hms h'.symm).mpr ?_
      rw [hsel]
      exact hs

/-- **Removing monitors.**  As long as one stays, no client is left behind. -/
theorem removemons_spec (n : Nat) (b : Bool) (h : Inv outC nobody s) (hn : n < s.mons.length) :
    Inv outC nobody (removemons n (s, b)).1 ∧ Refitted s (removemons n (s, b)).1 ∧
      (removemons n (s, b)).1.mons ≠ [] ∧
      (s.selmon ∈ s.mons → (removemons n (s, b)).1.selmon ∈ (removemons n (s, b)).1.mons) ∧
      (removemons n (s, b)).1.settings = s.settings ∧
      ((removemons n (s, b)).2 = false → b = false) := by
  induction n generalizing s b with
  | zero =>
      refine ⟨h, ⟨rfl, fun _ => rfl⟩, ?_, id, rfl, id⟩
      intro hnil
      change s.mons = [] at hnil
      rw [hnil] at hn
      exact Nat.lt_irrefl 0 hn
  | succ n ih =>
      have hm : s.mons.getLastD s.selmon ∈ s.mons := by
        cases hl : s.mons with
        | nil =>
            rw [hl] at hn
            exact absurd hn (Nat.not_lt_zero _)
        | cons k l =>
            rw [List.getLastD_cons]
            exact List.getLastD_mem_cons
      have hne : ∀ d, s.mons.headD d ≠ s.mons.getLastD s.selmon := fun d =>
        headD_ne_getLastD h.nodup (by omega) d s.selmon
      rw [removemons]
      generalize s.mons.getLastD s.selmon = m at hm hne ⊢
      obtain ⟨hinv₁, hfit₁, hmons₁, hsel₁, hset₁⟩ := removemon_spec h hm hne
      have hlen : n < (removemon m s).mons.length := by
        rw [hmons₁, List.length_erase_of_mem hm]
        omega
      obtain ⟨hinv₂, hfit₂, hne₂, hsel₂, hset₂, hb₂⟩ :=
        ih (b || !(s.monitor m).clients.isEmpty) hinv₁ hlen
      refine ⟨hinv₂, hfit₁.trans hfit₂, hne₂, fun hs => hsel₂ ?_, hset₂.trans hset₁, fun hb => ?_⟩
      · rw [hmons₁]
        exact hsel₁ hs
      · exact (Bool.or_eq_false_iff.mp (hb₂ hb)).1

theorem rootmon_mem (p : Option (Int × Int)) (h : s.selmon ∈ s.mons) :
    rootmon p s ∈ s.mons := by
  cases p with
  | none => exact h
  | some xy => exact recttomon_mem _ _ _ _ h

theorem uniqueScreens_ne_nil {info : List Screen} (h : info ≠ []) : uniqueScreens info ≠ [] := by
  have hgrow : ∀ (rs u : List Screen), u ≠ [] →
      rs.foldl (fun u r => if r ∈ u then u else u ++ [r]) u ≠ [] := by
    intro rs
    induction rs with
    | nil => exact fun _ hu => hu
    | cons r rs ih =>
        intro u hu
        refine ih _ ?_
        dsimp only
        split
        · exact hu
        · exact List.append_ne_nil_of_left_ne_nil hu _
  cases info with
  | nil => exact absurd rfl h
  | cons r rs => exact hgrow rs [r] (List.cons_ne_nil r [])

/-- Once dirty, always dirty. -/
theorem fitAll_dirty (n i : Nat) (ms : List MonId) (rs : List Screen) (s : State) :
    (fitAll n i ms rs (s, true)).2 = true := by
  induction ms generalizing i rs s with
  | nil => cases rs <;> rfl
  | cons m ms ih =>
      cases rs with
      | nil => rfl
      | cons r rs =>
          rw [fitAll]
          split <;> exact ih _ _ _

/-- The first monitor there ever was is fitted to its screen. -/
theorem fitAll_first {ms : List MonId} {rs : List Screen} (hms : ms ≠ []) (hrs : rs ≠ [])
    (s : State) : (fitAll 0 0 ms rs (s, false)).2 = true := by
  cases ms with
  | nil => exact absurd rfl hms
  | cons m ms =>
      cases rs with
      | nil => exact absurd rfl hrs
      | cons r rs =>
          rw [fitAll, if_pos (Or.inl (Nat.le_refl 0))]
          exact fitAll_dirty _ _ _ _ _

/-- What `updategeom` guarantees before it looks for the monitor under the
pointer; a manager without monitors gets one and is dirty. -/
structure Refit (outC : ClientId → Prop) (s : State) (r : State × Bool) : Prop where
  inv : Inv outC nobody r.1
  keeps : Refitted s r.1
  mons : r.1.mons ≠ []
  selmon : r.2 = false → r.1.selmon ∈ r.1.mons

theorem refit_spec {info : List Screen} (h : Inv outC nobody s) (hinfo : info ≠ [])
    (hsel : s.selmon ∈ s.mons ∨ s.mons = []) : Refit outC s (refit info s) := by
  unfold refit
  dsimp only
  have hu := uniqueScreens_ne_nil hinfo
  have hupos := List.length_pos_of_ne_nil hu
  generalize uniqueScreens info = unique at hu hupos ⊢
  obtain ⟨hinv₁, hfit₁, hsel₁, hmem₁⟩ :=
    addmons_spec (List.range (unique.length - s.mons.length)) h
  have hlen₁ := length_addmons (List.range (unique.length - s.mons.length)) s
  rw [List.length_range] at hlen₁
  generalize (List.range (unique.length - s.mons.length)).foldl (fun s _ => addmon s) s = s₁
    at hinv₁ hfit₁ hsel₁ hmem₁ hlen₁ ⊢
  obtain ⟨hun, hseat⟩ := fitAll_spec s.mons.length 0 s₁.mons unique s₁ false
  have hdirty : s.mons = [] → (fitAll s.mons.length 0 s₁.mons unique (s₁, false)).2 = true := by
    intro hnil
    rw [hnil]
    refine fitAll_first ?_ hu s₁
    intro hnil₁
    rw [hnil₁, List.length_nil] at hlen₁
    omega
  generalize fitAll s.mons.length 0 s₁.mons unique (s₁, false) = r at hun hseat hdirty ⊢
  obtain ⟨s₂, b⟩ := r
  have hlen₂ : s.mons.length - unique.length < s₂.mons.length := by
    rw [hun.mons, hlen₁]
    omega
  obtain ⟨hinv₃, hfit₃, hne₃, hsel₃, -, hb₃⟩ :=
    removemons_spec (s.mons.length - unique.length) b (hinv₁.unmoved hun) hlen₂
  have hfit₂ : Refitted s₁ s₂ :=
    ⟨hun.live, fun d => congrArg (fun seat => (seat d).tags) hseat⟩
  refine ⟨hinv₃, (hfit₁.trans hfit₂).trans hfit₃, hne₃, fun hclean => hsel₃ ?_⟩
  rcases hsel with hsel | hnil
  · rw [hun.selmon, hun.mons, hsel₁]
    exact hmem₁ _ hsel
  · have := (hb₃ hclean).symm.trans (hdirty hnil)
    cases this

theorem fitFirst_spec (s : State) :
    Unmoved s (fitFirst s).1 ∧ (fitFirst s).1.seat = s.seat := by
  unfold fitFirst
  dsimp only
  split
  · refine ⟨?_, rfl⟩
    dsimp only
    exact unmoved_modSettings _ _ s
  · exact ⟨.refl s, rfl⟩

theorem refitOne_spec (h : Inv outC nobody s)
    (hsel : s.selmon ∈ s.mons ∨ (s.mons = [] ∧ s.sw ≠ 0)) : Refit outC s (refitOne s) := by
  unfold refitOne
  by_cases hnil : s.mons = []
  · rw [if_pos hnil]
    obtain ⟨hun, hseat⟩ := fitFirst_spec (addmon s)
    refine ⟨h.addmon.unmoved hun, ⟨hun.live, fun d => congrArg (fun seat => (seat d).tags) hseat⟩,
      ?_, fun hclean => ?_⟩
    · rw [hun.mons]
      exact List.append_ne_nil_of_right_ne_nil _ (List.cons_ne_nil _ _)
    · rcases hsel with hsel | ⟨-, hsw⟩
      · rw [hnil] at hsel
        cases hsel
      · refine absurd hclean ?_
        unfold fitFirst
        rw [if_pos]
        · exact fun h' => Bool.noConfusion h'
        · refine Or.inl fun h0 => hsw ?_
          simpa [addmon, hnil, createmon] using h0.symm
  · rw [if_neg hnil]
    obtain ⟨hun, hseat⟩ := fitFirst_spec s
    refine ⟨h.unmoved hun, ⟨hun.live, fun d => congrArg (fun seat => (seat d).tags) hseat⟩,
      ?_, fun _ => ?_⟩
    · rw [hun.mons]
      exact hnil
    · rw [hun.selmon, hun.mons]
      exact hsel.resolve_right fun h' => hnil h'.1

/-- **`updategeom`** keeps every client filed, whatever monitors come and go. -/
theorem updategeom_spec (l : Layouts) (h : Inv outC nobody s)
    (hsel : s.selmon ∈ s.mons ∨ (s.mons = [] ∧ s.sw ≠ 0)) :
    Post (updategeom l s) fun r =>
      Inv outC nobody r.1 ∧ Refitted s r.1 ∧ r.1.selmon ∈ r.1.mons := by
  unfold updategeom
  split
  · exact post_error _
  · rename_i hscreens
    have hrefit : Refit outC s (refitScreens l s) := by
      unfold refitScreens
      cases hl : l.screens with
      | none => exact refitOne_spec h hsel
      | some info =>
          refine refit_spec h ?_ (hsel.imp_right And.left)
          rintro rfl
          exact hscreens hl
    dsimp only
    split
    · rw [post_ok]
      refine ⟨hrefit.inv.withSelmon.withSelmon, ⟨hrefit.keeps.live, hrefit.keeps.tags⟩, ?_⟩
      obtain ⟨k, hk⟩ := List.exists_mem_of_ne_nil _ hrefit.mons
      exact rootmon_mem (s := { (refitScreens l s).1 with
        selmon := (refitScreens l s).1.mons.headD (refitScreens l s).1.selmon }) l.pointer
        (headD_mem hk _)
    · rename_i hb
      rw [post_ok]
      exact ⟨hrefit.inv, hrefit.keeps, hrefit.selmon (by simpa using hb)⟩

protected theorem Filed.updategeom (l : Layouts) (h : Filed lost base s) :
    Post (updategeom l s) fun r => Filed lost base r.1 := by
  obtain ⟨outC, hle, hinv⟩ := h.inv
  refine (updategeom_spec l hinv (Or.inl h.selmon)).mono ?_
  rintro r ⟨hinv', hfit, hsel⟩
  exact ⟨⟨outC, hle, hinv'⟩, hsel, hfit.live ▸ h.alive⟩

end Dwm