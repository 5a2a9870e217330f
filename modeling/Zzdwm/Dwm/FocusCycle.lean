import Zzdwm.Dwm.StackTurns

/-!
# Going round the visible clients

`focusstack` selects the next visible client of the selected monitor, or the one
before, in the order of the client list, while the focus reorders the other list.

* `State.shown` — the visible clients of the selected monitor, in order;
* `Filed.turnTo` — a focus leaves that order alone;
* `Filed.focusstack_next`, `Filed.focusstack_prev` — one step;
* `focusstack_cycles` — steps there and back, and all the way round.
-/

namespace Dwm

open Machine Rounds

variable {lost base : ClientId → Prop} {s t u : State} {c d : ClientId} {i : Int}

/-- The visible clients of the selected monitor, in the order of its list. -/
def State.shown (s : State) : List ClientId := (s.clientsOf s.selmon).filter s.visible

/-- A fullscreen client that `focusstack` does not leave. -/
def State.locks (s : State) (c : ClientId) : Prop :=
  (s.client c).isfullscreen = true ∧ lockfullscreen = true

instance (s : State) (c : ClientId) : Decidable (s.locks c) := inferInstanceAs (Decidable (_ ∧ _))

theorem Filed.nodup_shown (h : Filed lost base s) : s.shown.Nodup := h.nodup_clients.filter _

theorem mem_shown : c ∈ s.shown ↔ c ∈ s.clientsOf s.selmon ∧ s.visible c = true := List.mem_filter

theorem Reordered.visible {l : List ClientId} (h : Reordered s t l) : t.visible = s.visible := by
  refine visible_congr ?_ fun m => by rw [h.settings]
  funext c
  rw [State.seat, State.seat, h.client]

/-- Nothing changed that `focusstack` looks at but the selection. -/
abbrev SameRound (s t : State) : Prop := Reordered s t (s.clientsOf s.selmon)

theorem Reordered.shown (h : SameRound s t) : t.shown = s.shown := by
  rw [State.shown, State.shown, h.selmon, h.clients, h.visible]

theorem Reordered.locks (h : SameRound s t) (c : ClientId) : t.locks c ↔ s.locks c := by
  rw [State.locks, State.locks, h.client]

/-- **Turning to a visible client** selects it and keeps the round as it is. -/
theorem Filed.turnTo (h : Filed lost base s) (hd : d ∈ s.shown) :
    Filed lost base (focus (some d) s) ∧ SameRound s (focus (some d) s) ∧
      (focus (some d) s).sel = some d := by
  obtain ⟨hmem, hvis⟩ := mem_shown.mp hd
  obtain ⟨hhere, hown⟩ := h.here_of_mem h.selmon hmem
  refine ⟨?_, ⟨?_, h.selmon_focus_own hown, client_focus _ s, (relinked_focus _ s).settings⟩, ?_⟩
  · refine h.focus fun e he => ?_
    cases he
    exact hhere
  · rw [clientsOf_focus]
  · rw [sel_focus, focusTarget, if_pos hvis]

/-! ## One step -/

/-- `focusstack` turns to the client that its walk finds. -/
theorem focusstack_eq (hsel : s.sel = some c) (hlock : ¬ s.locks c)
    (hd : stackNeighbour i c s = .ok (some d)) : focusstack i s = .ok (focus (some d) s) := by
  have hlock' : ¬ ((s.client c).isfullscreen = true ∧ lockfullscreen = true) := hlock
  unfold focusstack
  rw [hsel]
  dsimp only
  rw [if_neg hlock', hd]
  rfl

theorem Filed.focusstack_next (h : Filed lost base s) (hsel : s.sel = some c) (hlock : ¬ s.locks c)
    (hc : c ∈ s.shown) : focusstack 1 s = .ok (focus (some (s.shown.next c hc)) s) := by
  refine focusstack_eq hsel hlock ?_
  unfold stackNeighbour
  dsimp only
  rw [if_pos (by decide)]
  exact congrArg Except.ok (find_next h.nodup_clients hc)

theorem Filed.focusstack_prev (h : Filed lost base s) (hsel : s.sel = some c) (hlock : ¬ s.locks c)
    (hc : c ∈ s.shown) : focusstack (-1) s = .ok (focus (some (s.shown.prev c hc)) s) := by
  refine focusstack_eq hsel hlock ?_
  have hmem : c ∈ s.selM.clients := (mem_shown.mp hc).1
  unfold stackNeighbour
  dsimp only
  rw [if_neg (by decide), if_pos hmem]
  exact congrArg Except.ok (getLast_prev h.nodup_clients hc)

/-! ## Runs -/

/-- `n` steps of `focusstack(+1)`. -/
def focusstackN : Nat → State → Except Fault State
  | 0, s => .ok s
  | n + 1, s => focusstackN n s >>= focusstack 1

/-- **The run lemma.**  As long as no client on the way is locked, `n` steps select
the client that is `n` places on. -/
theorem Filed.focusstackN_ahead (h : Filed lost base s) (hsel : s.sel = some c) (hc : c ∈ s.shown)
    (hlock : ∀ e ∈ s.shown, ¬ s.locks e) (n : Nat) :
    ∃ t, focusstackN n s = .ok t ∧ Filed lost base t ∧ SameRound s t ∧ t.sel ≠ none ∧
      t.sel = ahead s.shown c n := by
  induction n with
  | zero =>
      refine ⟨s, rfl, h, ⟨rfl, rfl, rfl, rfl⟩, ?_, ?_⟩
      · rw [hsel]
        exact Option.some_ne_none c
      · rw [hsel, ahead_zero hc]
  | succ n ih =>
      obtain ⟨t, hrun, hfiled, hround, hne, hahead⟩ := ih
      obtain ⟨e, he⟩ := Option.ne_none_iff_exists'.mp hne
      rw [he] at hahead
      have hmem : e ∈ s.shown := List.mem_of_getElem? hahead.symm
      have hmem' : e ∈ t.shown := by
        rw [hround.shown]
        exact hmem
      have hstep := hfiled.focusstack_next he (fun hl => hlock e hmem ((hround.locks e).mp hl)) hmem'
      obtain ⟨hfiled', hround', hsel'⟩ := hfiled.turnTo (List.next_mem t.shown e hmem')
      refine ⟨_, ?_, hfiled', ?_, ?_, ?_⟩
      · rw [focusstackN, hrun]
        exact hstep
      · refine ⟨?_, hround'.selmon.trans hround.selmon, hround'.client.trans hround.client,
          hround'.settings.trans hround.settings⟩
        rw [← hround.selmon, hround'.clients, hround.selmon, hround.clients]
      · rw [hsel']
        exact Option.some_ne_none _
      · rw [hsel', ahead_succ h.nodup_shown hmem hahead.symm]
        simp only [hround.shown]

/-- What `focusstack` does when it is called on the selected client `c`. -/
structure Cycles (s : State) (c : ClientId) : Prop where
  /-- The selection is in the round. -/
  shown : c ∈ s.shown
  next : ∃ t, focusstack 1 s = .ok t ∧ t.sel = some (s.shown.next c shown)
  prev : ∃ t, focusstack (-1) s = .ok t ∧ t.sel = some (s.shown.prev c shown)
  /-- A step back takes a step back, unless it led to a locked client. -/
  nextPrev : ¬ s.locks (s.shown.next c shown) →
    ∃ t u, focusstack 1 s = .ok t ∧ focusstack (-1) t = .ok u ∧ u.sel = some c
  prevNext : ¬ s.locks (s.shown.prev c shown) →
    ∃ t u, focusstack (-1) s = .ok t ∧ focusstack 1 t = .ok u ∧ u.sel = some c
  /-- Where no visible client is locked, a round of steps goes through all of them. -/
  round : (∀ d ∈ s.shown, ¬ s.locks d) →
    (∃ t, focusstackN s.shown.length s = .ok t ∧ t.sel = some c) ∧
      ∀ d ∈ s.shown, ∃ n < s.shown.length, ∃ t, focusstackN n s = .ok t ∧ t.sel = some d

/-- **`focusstack`** goes round the visible clients in the order of the client
list, if the selection is on that list, visible and not locked. -/
theorem Filed.cycles (h : Filed lost base s) (hsel : s.sel = some c)
    (hmem : c ∈ s.clientsOf s.selmon) (hvis : s.visible c = true) (hlock : ¬ s.locks c) :
    Cycles s c := by
  have hc : c ∈ s.shown := mem_shown.mpr ⟨hmem, hvis⟩
  have hnd := h.nodup_shown
  have hnext := h.focusstack_next hsel hlock hc
  have hprev := h.focusstack_prev hsel hlock hc
  obtain ⟨hfiledn, hroundn, hseln⟩ := h.turnTo (List.next_mem s.shown c hc)
  obtain ⟨hfiledp, hroundp, hselp⟩ := h.turnTo (List.prev_mem s.shown c hc)
  refine ⟨hc, ⟨_, hnext, hseln⟩, ⟨_, hprev, hselp⟩, fun hfree => ?_, fun hfree => ?_, fun hfree => ⟨?_, ?_⟩⟩
  · have hshown := hroundn.shown
    have hmemn : s.shown.next c hc ∈ (focus (some (s.shown.next c hc)) s).shown := by
      rw [hshown]
      exact List.next_mem s.shown c hc
    have hback := hfiledn.focusstack_prev hseln (fun hl => hfree ((hroundn.locks _).mp hl)) hmemn
    refine ⟨_, _, hnext, hback, ?_⟩
    rw [(hfiledn.turnTo (List.prev_mem _ _ hmemn)).2.2]
    simp only [hshown, List.prev_next s.shown hnd c hc]
  · have hshown := hroundp.shown
    have hmemp : s.shown.prev c hc ∈ (focus (some (s.shown.prev c hc)) s).shown := by
      rw [hshown]
      exact List.prev_mem s.shown c hc
    have hback := hfiledp.focusstack_next hselp (fun hl => hfree ((hroundp.locks _).mp hl)) hmemp
    refine ⟨_, _, hprev, hback, ?_⟩
    rw [(hfiledp.turnTo (List.next_mem _ _ hmemp)).2.2]
    simp only [hshown, List.next_prev s.shown hnd c hc]
  · obtain ⟨t, hrun, -, -, -, hahead⟩ := h.focusstackN_ahead hsel hc hfree s.shown.length
    exact ⟨t, hrun, hahead.trans (ahead_length hc)⟩
  · intro d hd
    obtain ⟨n, hn, hnd'⟩ := exists_ahead hc hd
    obtain ⟨t, hrun, -, -, -, hahead⟩ := h.focusstackN_ahead hsel hc hfree n
    exact ⟨n, hn, t, hrun, hahead.trans hnd'⟩

/-- **Going round.**  In every reachable state whose selected client is visible,
not locked, and on the client list of its monitor, `focusstack` goes round. -/
theorem focusstack_cycles {ok : Event → State → Prop} (h : Reachable ok s) (hsel : s.sel = some c)
    (hvis : s.visible c = true) (hlock : ¬ s.locks c) (hmem : c ∈ s.clientsOf s.selmon) :
    Cycles s c := (filed_any h).cycles hsel hmem hvis hlock

/-- Two windows, the second one selected. -/
theorem focusstack_cycles_two : ∃ s, s.sel = some 1 ∧ s.shown = [1, 0] ∧ Cycles s 1 := by
  obtain ⟨s, hs, hp⟩ := exists_of_passes
    (x := play oneScreen [.maprequest 0 10 plainWindow, .maprequest 1 11 plainWindow])
    (p := fun s => s.sel = some 1 ∧ s.shown = [1, 0] ∧ ¬ s.locks 1) (by decide +kernel)
  obtain ⟨hsel, hshown, hlock⟩ := of_decide_eq_true hp
  have hmem : 1 ∈ s.shown := by
    rw [hshown]
    exact List.mem_cons_self
  exact ⟨s, hsel, hshown, focusstack_cycles (reachable_play hs) hsel (mem_shown.mp hmem).2 hlock
    (mem_shown.mp hmem).1⟩

/-- Two windows, of which the one that is not selected turns fullscreen: the first
step leads to it, and the second one stays there. -/
theorem focusstack_stays_on_fullscreen : ¬ ∀ s c, Reachable Any s → s.sel = some c →
    s.visible c = true → ¬ s.locks c →
      ∃ t, focusstackN s.shown.length s = .ok t ∧ t.sel = some c := by
  intro h
  obtain ⟨s, hs, hp⟩ := exists_of_passes
    (x := play oneScreen [.maprequest 0 10 plainWindow, .maprequest 1 11 plainWindow,
      .clientmessage 10 (.netWMState 1 true false)])
    (p := fun s => s.sel = some 1 ∧ s.visible 1 ∧ ¬ s.locks 1 ∧ s.shown.length = 2 ∧
      passes (focusstackN 2 s) fun t => t.sel = some 0) (by decide +kernel)
  obtain ⟨hsel, hvis, hlock, hlen, hstay⟩ := of_decide_eq_true hp
  obtain ⟨t, ht, hback⟩ := h s 1 (reachable_play hs) hsel hvis hlock
  obtain ⟨u, hu, hpu⟩ := exists_of_passes hstay
  rw [hlen, hu] at ht
  rw [← Except.ok.inj ht, of_decide_eq_true hpu] at hback
  cases hback

end Dwm
