import Zzdwm.Lib.Rounds
import Zzdwm.Dwm.Setters
import Zzdwm.Dwm.ClientLists

/-!
# Rotating the tiled clients

`rotatestack` moves one tiled client to an end of its list, which rotates the
sequence of tiled clients and keeps the others in order.

* `Reordered s t l` — nothing that decides where a client belongs or whether it is
  shown has changed, and the clients of the selected monitor stand in the order `l`;
* `Filed.rotatestack_up`, `Filed.rotatestack_down` — the two directions;
* `rotatestack_turns_iff` — when the command does what it is to do.
-/

namespace Dwm

open Machine Rounds

variable {lost base : ClientId → Prop} {s t u : State} {c f : ClientId} {m : MonId}
  {arg : Option ClientId} {l : List ClientId} {i : Int}

/-- The clients of the selected monitor stand in the order `l`, and all else that
decides which of them are tiled is as it was. -/
structure Reordered (s t : State) (l : List ClientId) : Prop where
  clients : t.clientsOf s.selmon = l
  selmon : t.selmon = s.selmon
  client : t.client = s.client
  settings : t.settings = s.settings

theorem isTiled_congr (hclient : t.client = s.client) (hset : t.settings = s.settings) :
    t.isTiled = s.isTiled := by
  have hseat : t.seat = s.seat := by
    funext c
    rw [State.seat, State.seat, hclient]
  funext c
  rw [State.isTiled, State.isTiled, hclient, visible_congr hseat fun m => by rw [hset]]

theorem Reordered.isTiled (h : Reordered s t l) : t.isTiled = s.isTiled :=
  isTiled_congr h.client h.settings

theorem Reordered.tiled (h : Reordered s t l) : t.tiled s.selmon = l.filter s.isTiled := by
  change (t.clientsOf s.selmon).filter t.isTiled = _
  rw [h.clients, h.isTiled]

/-! ## The focus at the end -/

theorem sel_focus (arg : Option ClientId) (s : State) : (focus arg s).sel = focusTarget arg s := by
  have hsel := selmon_focus arg s
  change ((focus arg s).lists (focus arg s).selmon).sel = _
  cases ht : focusTarget arg s with
  | none =>
      rw [ht] at hsel
      obtain ⟨u, -, heq⟩ := focus_none ht
      rw [hsel, heq, lists_modMon, if_pos rfl]
  | some c =>
      rw [ht] at hsel
      obtain ⟨u, -, heq⟩ := focus_some ht
      rw [hsel, heq, lists_modMon, if_pos rfl]

/-- Focusing a client of the selected monitor stays on that monitor. -/
theorem Filed.selmon_focus_own (h : Filed lost base s) (hf : s.own f = s.selmon) :
    (focus (some f) s).selmon = s.selmon := by
  rw [selmon_focus]
  cases ht : focusTarget (some f) s with
  | none => rfl
  | some d =>
      rw [focusTarget] at ht
      split at ht
      · cases ht
        exact hf
      · exact (h.here_of_stack h.selmon (firstVisible_mem ht).1).2

/-- Something is selected if a client of the selected monitor is visible. -/
theorem Filed.sel_focus_ne_none (h : Filed lost base s) (hc : Here s c) (hown : s.own c = s.selmon)
    (hvis : s.visible c = true) : (focus arg s).sel ≠ none := by
  rw [sel_focus]
  have hfirst : s.firstVisible s.selmon ≠ none := by
    intro hnone
    have hmem := h.mem_stackOf hc
    rw [hown] at hmem
    exact List.find?_eq_none.mp hnone c hmem hvis
  unfold focusTarget
  split
  · split
    · exact Option.some_ne_none _
    · exact hfirst
  · exact hfirst

/-- The end of `rotatestack`, after the splices on the two lists. -/
theorem Filed.reordered (h : Filed lost base u) (hf : s.own f = s.selmon) (hst : Relinked s u)
    (hselmon : u.selmon = s.selmon) (hclient : u.client = s.client) :
    Reordered s (focus (some f) (arrangesel u)) (u.clientsOf s.selmon) := by
  have hdrawn := (Redrawn.refl u).arrangesel
  have hfiled := h.redrawn hdrawn
  have hown : (arrangesel u).own f = (arrangesel u).selmon := by
    rw [hdrawn.unmoved.own, hst.own, hdrawn.selmon, hselmon]
    exact hf
  refine ⟨?_, ?_, ?_, ?_⟩
  · rw [clientsOf_focus, hdrawn.unmoved.clientsOf]
  · exact (hfiled.selmon_focus_own hown).trans hselmon
  · exact (client_focus _ _).trans hclient
  · exact (hst.redraw hdrawn).focus.settings

/-! ## The two directions -/

theorem clientsOf_linkClient (g : List ClientId → List ClientId) (c : ClientId) (s : State) :
    (linkClient g c s).clientsOf (s.own c) = g (s.clientsOf (s.own c)) := by
  rw [State.clientsOf, lists_linkClient, if_pos rfl]

theorem clientsOf_detach_own (c : ClientId) (s : State) :
    (detach c s).clientsOf (s.own c) = (s.clientsOf (s.own c)).erase c := by
  rw [State.clientsOf, lists_detach, if_pos rfl]

/-- Upwards, the last tiled client goes in front of all others. -/
theorem Filed.rotatestack_up (h : Filed lost base s) (hsel : s.sel ≠ none) (hi : 0 < i)
    (hc : (s.tiled s.selmon).getLast? = some c) :
    Reordered s (rotatestack i s) (c :: (s.clientsOf s.selmon).erase c) ∧
      (rotatestack i s).sel ≠ none := by
  obtain ⟨f, hf⟩ := Option.ne_none_iff_exists'.mp hsel
  obtain ⟨hmem, htiled⟩ := mem_tiled (List.mem_of_getLast? hc)
  obtain ⟨hhere, hown⟩ := h.here_of_mem h.selmon hmem
  have hrun : rotatestack i s = focus (some f)
      (arrangesel (attachstack c (detachstack c (attach c (detach c s))))) := by
    unfold rotatestack
    rw [hf]
    dsimp only
    rw [if_pos hi, hc]
  have hrel : Relinked s (attach c (detach c s)) := (Relinked.refl s).detach.attach
  have hlink : Filed lost base (attach c (detach c s)) :=
    h.relink (f := (c :: ·)) hhere (.refl _)
  have hboth : Filed lost base (attachstack c (detachstack c (attach c (detach c s)))) :=
    hlink.restack (f := (c :: ·)) (hhere.relinked hrel) (.refl _)
  have hrel' := hrel.detachstack (c := c) |>.attachstack (c := c)
  have hselmon : (attachstack c (detachstack c (attach c (detach c s)))).selmon = s.selmon :=
    selmon_detachstack c _
  have hclient : (attachstack c (detachstack c (attach c (detach c s)))).client = s.client :=
    client_detachstack c _
  have hclients : (attachstack c (detachstack c (attach c (detach c s)))).clientsOf s.selmon =
      c :: (s.clientsOf s.selmon).erase c := by
    change (linkStack (c :: ·) c _).clientsOf s.selmon = _
    rw [clientsOf_linkStack, clientsOf_detachstack, ← hown]
    change (linkClient (c :: ·) c (detach c s)).clientsOf ((detach c s).own c) = _
    rw [clientsOf_linkClient]
    exact congrArg (c :: ·) (clientsOf_detach_own c s)
  have hdrawn := (Redrawn.refl (attachstack c (detachstack c (attach c (detach c s))))).arrangesel
  have hdone := hboth.reordered (h.here_of_sel hf).2 hrel' hselmon hclient
  rw [hclients] at hdone
  rw [hrun]
  refine ⟨hdone, (hboth.redrawn hdrawn).sel_focus_ne_none
    ((hhere.relinked hrel').unmoved hdrawn.unmoved) ?_ ?_⟩
  · rw [hdrawn.unmoved.own, hrel'.own, hdrawn.selmon, hselmon]
    exact hown
  · rw [hdrawn.quiet.visible, hrel'.visible]
    exact (Bool.and_eq_true_iff.mp htiled).2

/-- Downwards, the first tiled client goes behind all others, if there are any. -/
theorem Filed.rotatestack_down (h : Filed lost base s) (hsel : s.sel ≠ none) (hi : i ≤ 0)
    (hc : (s.tiled s.selmon).head? = some c) (hne : (s.clientsOf s.selmon).erase c ≠ []) :
    Reordered s (rotatestack i s) ((s.clientsOf s.selmon).erase c ++ [c]) := by
  obtain ⟨f, hf⟩ := Option.ne_none_iff_exists'.mp hsel
  obtain ⟨hmem, -⟩ := mem_tiled (List.mem_of_head? hc)
  obtain ⟨hhere, hown⟩ := h.here_of_mem h.selmon hmem
  have hrun : rotatestack i s = focus (some f)
      (arrangesel (enqueuestack c (detachstack c (enqueue c (detach c s))))) := by
    unfold rotatestack
    rw [hf]
    dsimp only
    rw [if_neg (by omega), hc]
  rw [hrun]
  have hqueue : enqueue c (detach c s) = linkClient (· ++ [c]) c (detach c s) := by
    refine enqueue_eq (s := detach c s) ?_
    change (detach c s).clientsOf (s.own c) ≠ []
    rw [clientsOf_detach_own, hown]
    exact hne
  have hrel : Relinked s (enqueue c (detach c s)) := (Relinked.refl s).detach.enqueue
  have hclient : (detachstack c (enqueue c (detach c s))).client = s.client := client_detachstack c _
  have hclients : (enqueue c (detach c s)).clientsOf s.selmon =
      (s.clientsOf s.selmon).erase c ++ [c] := by
    rw [hqueue, ← hown]
    change (linkClient (· ++ [c]) c (detach c s)).clientsOf ((detach c s).own c) = _
    rw [clientsOf_linkClient]
    exact congrArg (· ++ [c]) (clientsOf_detach_own c s)
  have hlink : Filed lost base (enqueue c (detach c s)) := by
    rw [hqueue]
    exact h.relink hhere List.perm_append_comm
  have hselmon : (detachstack c (enqueue c (detach c s))).selmon = s.selmon := selmon_detachstack c _
  generalize enqueue c (detach c s) = v at hrel hclient hclients hlink hselmon ⊢
  have hown' : v.own c = s.selmon := by
    rw [hrel.own]
    exact hown
  have hselv : v.selmon = s.selmon := (selmon_detachstack c v).symm.trans hselmon
  -- another client is on the stack as well, so that `c` can be put behind it
  have hstack : (detachstack c v).stackOf ((detachstack c v).own c) ≠ [] := by
    obtain ⟨d, hd⟩ := List.exists_mem_of_ne_nil _ hne
    have hdc : d ≠ c := by
      rintro rfl
      obtain ⟨outC, -, hinv⟩ := h.inv
      exact (hinv.clients.nodup _ h.selmon).not_mem_erase hd
    have hdmem : d ∈ v.clientsOf v.selmon := by
      rw [hselv, hclients]
      exact List.mem_append_left _ hd
    obtain ⟨hdhere, hdown⟩ := hlink.here_of_mem hlink.selmon hdmem
    have hdstack := hlink.mem_stackOf hdhere
    rw [(Relinked.refl v).detachstack.own, State.stackOf, lists_detachstack, if_pos rfl]
    have hmem' : d ∈ (v.stackOf (v.own c)).erase c := by
      rw [hown', ← hselv, ← hdown]
      exact (List.mem_erase_of_ne hdc).mpr hdstack
    exact List.ne_nil_of_mem hmem'
  have hboth : Filed lost base (enqueuestack c (detachstack c v)) := by
    rw [enqueuestack_eq hstack]
    exact hlink.restack (hhere.relinked hrel) List.perm_append_comm
  have hdone := hboth.reordered (h.here_of_sel hf).2 (hrel.detachstack (c := c) |>.enqueuestack (c := c))
    hselmon hclient
  rw [enqueuestack_eq hstack, clientsOf_linkStack, clientsOf_detachstack, hclients] at hdone
  rw [enqueuestack_eq hstack]
  exact hdone

/-! ## Both directions together -/

/-- The clients of a monitor decide what is on its stack. -/
theorem Filed.stack_perm (h : Filed lost base s) (h' : Filed lost base t) (hst : Relinked s t)
    (hm : m ∈ s.mons) : (t.stackOf m).Perm (s.stackOf m) := by
  obtain ⟨outC, -, hinv⟩ := h.inv
  obtain ⟨outC', -, hinv'⟩ := h'.inv
  have hm' : m ∈ t.mons := by
    rw [hst.mons]
    exact hm
  refine (List.perm_ext_iff_of_nodup (hinv'.stack.nodup m hm') (hinv.stack.nodup m hm)).mpr ?_
  intro d
  constructor
  · intro hd
    obtain ⟨hhere, hown⟩ := h'.here_of_stack hm' hd
    rw [Here, hst.live, hst.own, hst.mons] at hhere
    rw [hst.own] at hown
    exact hown ▸ h.mem_stackOf hhere
  · intro hd
    obtain ⟨hhere, hown⟩ := h.here_of_stack hm hd
    have hmem := h'.mem_stackOf (hhere.relinked hst)
    rwa [hst.own, hown] at hmem

/-- What `rotatestack` is to do: upwards it moves the last tiled client in front
of all clients and downwards the first one behind all clients.  So it rotates the
tiled clients by one, keeps the others in order and loses nobody, and downwards
it takes back what it does upwards. -/
structure Turns (s : State) : Prop where
  up : ∃ c, (s.tiled s.selmon).getLast? = some c ∧
    (rotatestack 1 s).clientsOf s.selmon = c :: (s.clientsOf s.selmon).erase c
  down : ∃ c, (s.tiled s.selmon).head? = some c ∧
    (rotatestack (-1) s).clientsOf s.selmon = (s.clientsOf s.selmon).erase c ++ [c]
  rotated : ((rotatestack 1 s).tiled s.selmon).rotate 1 = s.tiled s.selmon ∧
    (rotatestack (-1) s).tiled s.selmon = (s.tiled s.selmon).rotate 1
  others : ∀ i, i = 1 ∨ i = -1 →
    ((rotatestack i s).clientsOf s.selmon).filter (fun d => !s.isTiled d) =
      (s.clientsOf s.selmon).filter fun d => !s.isTiled d
  kept : ∀ i, i = 1 ∨ i = -1 →
    ((rotatestack i s).clientsOf s.selmon).Perm (s.clientsOf s.selmon) ∧
      ((rotatestack i s).stackOf s.selmon).Perm (s.stackOf s.selmon)
  restored : (rotatestack (-1) (rotatestack 1 s)).tiled s.selmon = s.tiled s.selmon

/-- Without a selection `rotatestack` returns at once. -/
theorem rotatestack_unselected (h : s.sel = none) (i : Int) : rotatestack i s = s := by
  unfold rotatestack
  rw [h]

theorem Filed.nodup_clients (h : Filed lost base s) : (s.clientsOf s.selmon).Nodup := by
  obtain ⟨outC, -, hinv⟩ := h.inv
  exact hinv.clients.nodup _ h.selmon

/-- With a selection and two clients, everything goes well. -/
theorem Filed.turns (h : Filed lost base s) (hsel : s.sel ≠ none) (htiled : s.tiled s.selmon ≠ [])
    (hlen : 2 ≤ (s.clientsOf s.selmon).length) : Turns s := by
  have hnd := h.nodup_clients
  obtain ⟨c, hc⟩ : ∃ c, (s.tiled s.selmon).getLast? = some c :=
    ⟨_, List.getLast?_eq_some_getLast htiled⟩
  obtain ⟨d, hd⟩ : ∃ d, (s.tiled s.selmon).head? = some d := ⟨_, List.head?_eq_some_head htiled⟩
  have hcmem := mem_tiled (List.mem_of_getLast? hc)
  have hdmem := mem_tiled (List.mem_of_head? hd)
  have hrest : ∀ e, e ∈ s.clientsOf s.selmon → (s.clientsOf s.selmon).erase e ≠ [] := by
    intro e he hnil
    have hlen' := List.length_erase_of_mem he
    rw [hnil, List.length_nil] at hlen'
    omega
  obtain ⟨hup, hselup⟩ := h.rotatestack_up hsel (by decide : (0 : Int) < 1) hc
  have hdown := h.rotatestack_down hsel (by decide : (-1 : Int) ≤ 0) hd (hrest d hdmem.1)
  have hfiled : ∀ i, i = 1 ∨ i = -1 → Filed lost base (rotatestack i s) := by
    intro i _
    refine h.rotatestack i fun ⟨_, _, e, he, _⟩ => ?_
    have hone : (s.clientsOf s.selmon).length = 1 := congrArg List.length he
    omega
  have hperm : ∀ i, i = 1 ∨ i = -1 →
      ((rotatestack i s).clientsOf s.selmon).Perm (s.clientsOf s.selmon) := by
    rintro i (rfl | rfl)
    · rw [hup.clients]
      exact (List.perm_cons_erase hcmem.1).symm
    · rw [hdown.clients]
      exact List.perm_append_comm.trans (List.perm_cons_erase hdmem.1).symm
  have hrotup : ((rotatestack 1 s).tiled s.selmon).rotate 1 = s.tiled s.selmon := by
    rw [hup.tiled]
    exact filter_toFront hnd hc
  refine ⟨⟨c, hc, hup.clients⟩, ⟨d, hd, hdown.clients⟩, ⟨hrotup, ?_⟩, ?_, fun i hi => ⟨hperm i hi, ?_⟩, ?_⟩
  · rw [hdown.tiled]
    exact filter_toBack hnd hd
  · have hneg : ∀ e, s.isTiled e = true → (!s.isTiled e) = false := fun e he => by rw [he]; rfl
    rintro i (rfl | rfl)
    · rw [hup.clients]
      exact (filter_moved hnd (hneg c hcmem.2)).1
    · rw [hdown.clients]
      exact (filter_moved hnd (hneg d hdmem.2)).2
  · exact h.stack_perm (hfiled i hi) (relinked_rotatestack i s) h.selmon
  · -- after the turn upwards there is a selection, a first tiled client and another client
    have hlist : (rotatestack 1 s).clientsOf (rotatestack 1 s).selmon =
        c :: (s.clientsOf s.selmon).erase c := by
      rw [hup.selmon, hup.clients]
    have hfirst : ((rotatestack 1 s).tiled (rotatestack 1 s).selmon).head? = some c := by
      rw [hup.selmon, hup.tiled, List.filter_cons_of_pos hcmem.2]
      rfl
    have hback := (hfiled 1 (Or.inl rfl)).rotatestack_down hselup (by decide : (-1 : Int) ≤ 0) hfirst (by
      rw [hlist, List.erase_cons_head]
      exact hrest c hcmem.1)
    have hturn := hback.tiled
    rw [filter_toBack (hfiled 1 (Or.inl rfl)).nodup_clients hfirst, hup.selmon] at hturn
    exact hturn.trans hrotup

/-- Nothing moves without a selection, which is right only for a single client. -/
theorem Turns.only (h : Turns s) (hnd : (s.clientsOf s.selmon).Nodup) (hsel : s.sel = none) :
    (s.clientsOf s.selmon).length = 1 := by
  have hstay := rotatestack_unselected hsel
  obtain ⟨c, hc, hup⟩ := h.up
  obtain ⟨d, hd, hdown⟩ := h.down
  rw [hstay] at hup hdown
  -- the last tiled client is the first of all, so it is the only tiled one
  have hcd : d = c := by
    have hhead : ((c :: (s.clientsOf s.selmon).erase c).filter s.isTiled).head? = some d := by
      rw [← hup]
      exact hd
    rw [List.filter_cons_of_pos (mem_tiled (List.mem_of_getLast? hc)).2] at hhead
    exact (Option.some.inj hhead).symm
  subst hcd
  have hnil : (s.clientsOf s.selmon).erase d = [] := by
    by_contra hne
    obtain ⟨e, r, her⟩ := List.exists_cons_of_ne_nil hne
    rw [her] at hup hdown
    rw [hup, List.cons_append] at hdown
    obtain ⟨hde, -⟩ := List.cons.inj hdown
    rw [hup, hde] at hnd
    exact (List.nodup_cons.mp hnd).1 List.mem_cons_self
  rw [hup, hnil]
  rfl

theorem turns_only (hsel : s.sel = none) (htiled : s.tiled s.selmon ≠ [])
    (hlen : (s.clientsOf s.selmon).length = 1) : Turns s := by
  have hstay := rotatestack_unselected hsel
  obtain ⟨c, hc⟩ := List.length_eq_one_iff.mp hlen
  have hct : s.isTiled c = true := by
    obtain ⟨d, hd⟩ := List.exists_mem_of_ne_nil _ htiled
    obtain ⟨hmem, hdt⟩ := mem_tiled hd
    rw [hc, List.mem_singleton] at hmem
    exact hmem ▸ hdt
  have hone : s.tiled s.selmon = [c] := by
    change (s.clientsOf s.selmon).filter s.isTiled = [c]
    rw [hc, List.filter_cons_of_pos hct]
    rfl
  refine ⟨⟨c, ?_, ?_⟩, ⟨c, ?_, ?_⟩, ⟨?_, ?_⟩, fun i _ => ?_, fun i _ => ⟨?_, ?_⟩, ?_⟩
  · rw [hone]
    rfl
  · rw [hstay, hc, List.erase_cons_head]
  · rw [hone]
    rfl
  · rw [hstay, hc, List.erase_cons_head]
    rfl
  · rw [hstay, hone, List.rotate_singleton]
  · rw [hstay, hone, List.rotate_singleton]
  · rw [hstay]
  · rw [hstay]
  · rw [hstay]
  · rw [hstay, hstay]

/-- With a selection and a single client, the turn downwards loses it. -/
theorem Turns.two (h : Turns s) (hfiled : Filed lost base s) (hsel : s.sel ≠ none) :
    (s.clientsOf s.selmon).length ≠ 1 := by
  intro hlen
  obtain ⟨c, hc, hdown⟩ := h.down
  have hdrops : Drops (-1) s := by
    refine ⟨by decide, hsel, c, ?_, (mem_tiled (List.mem_of_head? hc)).2⟩
    obtain ⟨d, hd⟩ := List.length_eq_one_iff.mp hlen
    have hmem := (mem_tiled (List.mem_of_head? hc)).1
    rw [hd, List.mem_singleton] at hmem
    exact hmem ▸ hd
  rw [(hfiled.rotatestack_empties hdrops).2] at hdown
  exact List.append_ne_nil_of_right_ne_nil _ (List.cons_ne_nil c []) hdown.symm

/-- **When `rotatestack` rotates.**  With a tiled client on the selected monitor,
it does what it is to do exactly if there is a selection and a second client, or
neither of the two. -/
theorem rotatestack_turns_iff (h : Filed lost base s) (htiled : s.tiled s.selmon ≠ []) :
    Turns s ↔ (s.sel = none ↔ (s.clientsOf s.selmon).length = 1) := by
  have hpos : 0 < (s.clientsOf s.selmon).length := by
    obtain ⟨c, hc⟩ := List.exists_mem_of_ne_nil _ htiled
    exact List.length_pos_of_mem (mem_tiled hc).1
  by_cases hsel : s.sel = none
  · refine ⟨fun hturns => iff_of_true hsel (hturns.only h.nodup_clients hsel), fun hiff => ?_⟩
    exact turns_only hsel htiled (hiff.mp hsel)
  · refine ⟨fun hturns => iff_of_false hsel (hturns.two h hsel), fun hiff => ?_⟩
    have hne : (s.clientsOf s.selmon).length ≠ 1 := fun hlen => hsel (hiff.mpr hlen)
    exact h.turns hsel htiled (by omega)

/-- Two tiled windows. -/
theorem rotatestack_turns_two : ∃ s, s.live 0 = true ∧ s.live 1 = true ∧ Turns s := by
  obtain ⟨s, hs, hp⟩ := exists_of_passes
    (x := play oneScreen [.maprequest 0 10 plainWindow, .maprequest 1 11 plainWindow])
    (p := fun s => s.live 0 ∧ s.live 1 ∧ s.sel ≠ none ∧ s.clientsOf s.selmon = [1, 0] ∧
      s.tiled s.selmon ≠ []) (by decide +kernel)
  obtain ⟨hlive, hlive', hsel, hclients, htiled⟩ := of_decide_eq_true hp
  refine ⟨s, hlive, hlive', (rotatestack_turns_iff (filed_any (reachable_play hs)) htiled).mpr ?_⟩
  rw [hclients]
  exact iff_of_false hsel (by decide)

/-- With a single tiled window, turning downwards loses it. -/
theorem rotatestack_loses_client : ¬ ∀ s, Reachable Any s → s.tiled s.selmon ≠ [] → Turns s := by
  intro h
  obtain ⟨s, hs, hp⟩ := exists_of_passes (x := play oneScreen [.maprequest 0 10 plainWindow])
    (p := fun s => s.tiled s.selmon ≠ [] ∧ (rotatestack (-1) s).clientsOf s.selmon = [])
    (by decide +kernel)
  obtain ⟨htiled, hempty⟩ := of_decide_eq_true hp
  obtain ⟨c, -, hdown⟩ := (h s (reachable_play hs) htiled).down
  rw [hempty] at hdown
  exact List.append_ne_nil_of_right_ne_nil _ (List.cons_ne_nil c []) hdown.symm

end Dwm
