import Mathlib
import Zzdwm.Dwm.Marks
import Zzdwm.Dwm.TagSets
import Zzdwm.Dwm.Screens

/-!
# Swapping the clients of two monitors

`tagswapmon` takes the clients on view off the lists of two monitors and links
each group in again on the other one.

* `withdrawAll_diff`, `settleAll_append` — what the four loops do to a list,
  whether it is `clients` or `stack`;
* `MonSwapped` — the two monitors after the exchange;
* `Filed.monSwapped` — `tagswapmon` exchanges the clients on view.
-/

namespace Dwm

open Ownership Machine

variable {lost base : ClientId → Prop} {s t : State} {c d : ClientId} {m k : MonId}
  {cs : List ClientId}

/-- The clients of a monitor that are on view. -/
def shownOn (s : State) (m : MonId) : List ClientId := (s.clientsOf m).filter s.visible

/-- The clients of a monitor that are not on view. -/
def hiddenOn (s : State) (m : MonId) : List ClientId :=
  (s.clientsOf m).filter fun c => !s.visible c

theorem filter_notMem_filter (p : ClientId → Bool) (l : List ClientId) :
    (l.filter fun c => decide (c ∉ l.filter p)) = l.filter fun c => !p c := by
  apply List.filter_congr
  intro c hc
  by_cases hp : p c = true <;> simp [hc, hp]

/-! ## The loops that take clients off -/

theorem stackOf_detach (c : ClientId) (s : State) : (detach c s).stackOf = s.stackOf := by
  funext k
  rw [State.stackOf, lists_detach]
  split <;> rfl

theorem stackOf_detachstack (c : ClientId) (s : State) (k : MonId) :
    (detachstack c s).stackOf k =
      if k = s.own c then (s.stackOf k).erase c else s.stackOf k := by
  rw [State.stackOf, lists_detachstack]
  split <;> rfl

theorem Unmoved.stackOf (h : Unmoved s t) : t.stackOf = s.stackOf := by
  funext m
  rw [State.stackOf, State.stackOf, h.lists]

theorem clientsOf_withdraw (c : ClientId) (s : State) (k : MonId) :
    (withdraw c s).clientsOf k =
      if k = s.own c then (s.clientsOf k).erase c else s.clientsOf k := by
  have hun := ((Redrawn.refl s).unfocus (c := some c)).unmoved
  rw [withdraw, clientsOf_detachstack, clientsOf_detach, hun.own, hun.clientsOf]

theorem stackOf_withdraw (c : ClientId) (s : State) (k : MonId) :
    (withdraw c s).stackOf k = if k = s.own c then (s.stackOf k).erase c else s.stackOf k := by
  have hun := ((Redrawn.refl s).unfocus (c := some c)).unmoved
  have hown : (detach c (unfocus (some c) s)).own = s.own := hun.own
  rw [withdraw, stackOf_detachstack, stackOf_detach, hown, hun.stackOf]

/-- A group of clients of one monitor leaves its list, whichever of the two. -/
theorem withdrawAll_diff {L : State → MonId → List ClientId}
    (hL : ∀ c s k, L (withdraw c s) k = if k = s.own c then (L s k).erase c else L s k)
    (hcs : ∀ c ∈ cs, s.own c = m) (k : MonId) :
    L (cs.foldl (fun s c => withdraw c s) s) k = if k = m then (L s k).diff cs else L s k := by
  induction cs generalizing s with
  | nil => simp
  | cons c cs ih =>
      have hc : s.own c = m := hcs c List.mem_cons_self
      have hrest : ∀ d ∈ cs, (withdraw c s).own d = m := by
        intro d hd
        rw [(relinked_withdraw c s).own]
        exact hcs d (List.mem_cons_of_mem c hd)
      rw [List.foldl_cons, ih hrest, hL, hc]
      split
      · rw [List.diff_cons]
      · rfl

/-! ## The loops that link clients in -/

/-- A round of the last two loops is an assignment and two splices. -/
theorem redrawn_settle (m : MonId) (c : ClientId) (s : State) :
    Redrawn (attachstack c (attach c (s.modClient c fun k =>
      { k with mon := m, tags := (s.monitor m).tags }))) (settle m c s) := by
  unfold settle
  dsimp only
  split
  · exact (Redrawn.refl _).resizeclient
  · exact .refl _

theorem clientsOf_settle (m : MonId) (c : ClientId) (s : State) (k : MonId) :
    (settle m c s).clientsOf k = if k = m then c :: s.clientsOf k else s.clientsOf k := by
  have hown := own_modClient_self c (fun k => { k with mon := m, tags := (s.monitor m).tags }) s
  rw [(redrawn_settle m c s).unmoved.clientsOf]
  change (linkStack (c :: ·) c (linkClient (c :: ·) c _)).clientsOf k = _
  rw [clientsOf_linkStack, State.clientsOf, lists_linkClient, hown]
  split <;> rfl

theorem stackOf_settle (m : MonId) (c : ClientId) (s : State) (k : MonId) :
    (settle m c s).stackOf k = if k = m then c :: s.stackOf k else s.stackOf k := by
  have hown := own_modClient_self c (fun k => { k with mon := m, tags := (s.monitor m).tags }) s
  have hlink : ∀ u : State, (linkClient (c :: ·) c u).stackOf k = u.stackOf k := by
    intro u
    rw [State.stackOf, lists_linkClient]
    split <;> rfl
  rw [(redrawn_settle m c s).unmoved.stackOf]
  change (linkStack (c :: ·) c (linkClient (c :: ·) c _)).stackOf k = _
  have hsame : ∀ u : State, (linkClient (c :: ·) c u).own c = u.own c := fun _ => rfl
  rw [State.stackOf, lists_linkStack, hsame, hown]
  split
  · exact congrArg (c :: ·) (hlink _)
  · exact hlink _

/-- A group of clients comes onto the lists of a monitor, the last one first. -/
theorem settleAll_append {L : State → MonId → List ClientId}
    (hL : ∀ m c s k, L (settle m c s) k = if k = m then c :: L s k else L s k)
    (m : MonId) (cs : List ClientId) (s : State) (k : MonId) :
    L (cs.foldl (fun s c => settle m c s) s) k =
      if k = m then cs.reverse ++ L s k else L s k := by
  induction cs generalizing s with
  | nil => simp
  | cons c cs ih =>
      rw [List.foldl_cons, ih, hL]
      split
      · rw [List.reverse_cons, List.append_assoc, List.singleton_append]
      · rfl

theorem seat_settle (m : MonId) (c : ClientId) (s : State) :
    (settle m c s).seat c = { s.seat c with mon := m, tags := (s.settings m).tags } := by
  rw [(redrawn_settle m c s).seat]
  simp [State.seat, State.settings, State.modClient, attachstack, attach, State.modMon]

/-- Clients that are not in the group keep their place. -/
theorem seat_settleAll_of_notMem (m : MonId) (s : State) (hd : d ∉ cs) :
    (cs.foldl (fun s c => settle m c s) s).seat d = s.seat d := by
  induction cs generalizing s with
  | nil => rfl
  | cons c cs ih =>
      rw [List.mem_cons, not_or] at hd
      rw [List.foldl_cons, ih _ hd.2]
      exact (settle_keeps m c s).2.2.2.2 d hd.1

/-- Clients of the group take on the monitor and the tags in view there. -/
theorem seat_settleAll_of_mem (m : MonId) (s : State) (hnd : cs.Nodup) (hd : d ∈ cs) :
    (cs.foldl (fun s c => settle m c s) s).seat d =
      { s.seat d with mon := m, tags := (s.settings m).tags } := by
  induction cs generalizing s with
  | nil => cases hd
  | cons c cs ih =>
      obtain ⟨hc, hnd⟩ := List.nodup_cons.mp hnd
      obtain ⟨-, -, -, hset, hseat⟩ := settle_keeps m c s
      rw [List.foldl_cons]
      rcases List.mem_cons.mp hd with rfl | hd
      · rw [seat_settleAll_of_notMem m _ hc, seat_settle]
      · have hdc : d ≠ c := by
          intro heq
          exact hc (heq ▸ hd)
        rw [ih _ hnd hd, hseat d hdc, hset]

/-! ## The focus -/

/-- What `focus` does to the stack it looks through. -/
def raised (p : ClientId → Bool) (l : List ClientId) : List ClientId :=
  match l.find? p with
  | some c => c :: l.erase c
  | none => l

theorem stackOf_setSel (m : MonId) (o : Option ClientId) (s : State) :
    (s.modMon m fun k => { k with sel := o }).stackOf = s.stackOf := by
  funext k
  rw [State.stackOf, lists_modMon]
  split
  · rename_i hk
    subst hk
    rfl
  · rfl

/-- Refocusing without a client in mind touches one stack only. -/
theorem stackOf_focusNone (h : ∀ c ∈ s.stackOf s.selmon, s.own c = s.selmon) (k : MonId) :
    (focus none s).stackOf k =
      if k = s.selmon then raised s.visible (s.stackOf k) else s.stackOf k := by
  cases ht : focusTarget none s with
  | none =>
      obtain ⟨u, hu, heq⟩ := focus_none ht
      have hfind : (s.stackOf s.selmon).find? s.visible = none := ht
      rw [heq, stackOf_setSel, hu.unmoved.stackOf]
      split
      · rename_i hk
        rw [hk, raised, hfind]
      · rfl
  | some c =>
      obtain ⟨u, hu, heq⟩ := focus_some ht
      have hfind : (s.stackOf s.selmon).find? s.visible = some c := ht
      have hown : s.own c = s.selmon := h c (List.mem_of_find?_eq_some hfind)
      rw [heq, stackOf_setSel]
      have hown' : (detachstack c { u with selmon := s.own c }).own c = s.selmon := by
        rw [((Relinked.refl _).detachstack (c := c)).own]
        exact (congrFun hu.unmoved.own c).trans hown
      have huown : ({ u with selmon := s.own c } : State).own c = s.selmon :=
        (congrFun hu.unmoved.own c).trans hown
      have hustack : ({ u with selmon := s.own c } : State).stackOf k = s.stackOf k :=
        congrFun hu.unmoved.stackOf k
      change (linkStack (c :: ·) c (detachstack c _)).stackOf k = _
      rw [State.stackOf, lists_linkStack, hown']
      have hout := stackOf_detachstack c { u with selmon := s.own c } k
      rw [huown, hustack] at hout
      split
      · rename_i hk
        rw [if_pos hk] at hout
        rw [raised, hk, hfind, ← hk]
        exact congrArg (c :: ·) hout
      · rename_i hk
        rw [if_neg hk] at hout
        exact hout

/-! ## The exchange -/

/-- The other monitor, if there are two. -/
theorem dirtomon_ne (i : Int) (h : s.mons.Nodup) (hsel : s.selmon ∈ s.mons)
    (hlen : ¬ s.mons.length < 2) : dirtomon i s ≠ s.selmon := by
  have hlt : s.mons.idxOf s.selmon < s.mons.length := List.idxOf_lt_length_of_mem hsel
  have hget : s.mons[s.mons.idxOf s.selmon]? = some s.selmon := by
    rw [List.getElem?_eq_getElem hlt, List.getElem_idxOf]
  have hother : ∀ j, j < s.mons.length → j ≠ s.mons.idxOf s.selmon →
      s.mons[j]? ≠ some s.selmon := by
    intro j hj hne heq
    exact hne ((List.getElem?_inj hj h).mp (heq.trans hget.symm))
  unfold dirtomon
  dsimp only
  generalize s.mons.idxOf s.selmon = i at hlt hget hother ⊢
  split
  · by_cases hi : i + 1 < s.mons.length
    · intro heq
      apply hother (i + 1) hi (by omega)
      rw [List.getElem?_eq_getElem hi] at heq ⊢
      exact congrArg some heq
    · rw [List.getElem?_eq_none (Nat.le_of_not_lt hi)]
      intro heq
      apply hother 0 (by omega) (by omega)
      rw [← List.head?_eq_getElem?, ← heq]
      generalize s.mons = l at hlt
      cases l with
      | nil => cases hlt
      | cons a l => rfl
  · split
    · intro heq
      apply hother (s.mons.length - 1) (by omega) (by omega)
      rw [← List.getLast?_eq_getElem?, ← heq]
      generalize s.mons = l at hlt
      cases l with
      | nil => cases hlt
      | cons a l => rw [List.getLast?_cons, List.getLastD_cons, List.getLastD_eq_getLast?]
    · intro heq
      have hi : i - 1 < s.mons.length := by omega
      apply hother (i - 1) hi (by omega)
      rw [List.getElem?_eq_getElem hi] at heq ⊢
      exact congrArg some heq

/-- The two monitors after their clients on view have been exchanged. -/
structure MonSwapped (m : MonId) (s t : State) : Prop where
  selmon : t.selmon = s.selmon
  settings : t.settings = s.settings
  target : t.clientsOf m = shownOn s s.selmon ++ hiddenOn s m
  selected : t.clientsOf s.selmon = shownOn s m ++ hiddenOn s s.selmon
  targetStack : t.stackOf m =
    shownOn s s.selmon ++ (s.stackOf m).filter fun c => decide (c ∉ shownOn s m)
  selectedStack : t.stackOf s.selmon = raised t.visible (shownOn s m ++
    (s.stackOf s.selmon).filter fun c => decide (c ∉ shownOn s s.selmon))
  /-- No other monitor is touched. -/
  others : ∀ k, k ≠ m → k ≠ s.selmon →
    t.clientsOf k = s.clientsOf k ∧ t.stackOf k = s.stackOf k
  leaves : ∀ c ∈ shownOn s s.selmon, t.own c = m ∧ t.visible c = true
  comes : ∀ c ∈ shownOn s m, t.own c = s.selmon ∧ t.visible c = true
  stays : ∀ c, c ∉ shownOn s s.selmon → c ∉ shownOn s m → t.seat c = s.seat c

/-- A client that has the tags in view is on view. -/
theorem visible_of_seat {x : Seat} (hseat : t.seat c = x) (hmon : x.mon = m)
    (htags : x.tags = (t.settings m).tags) (hne : (t.settings m).tags ≠ 0#32) :
    t.own c = m ∧ t.visible c = true := by
  subst hseat
  refine ⟨hmon, ?_⟩
  rw [State.visible_eq, hmon, htags, BitVec.and_self]
  simp [hne]

/-! ### The four loops -/

/-- The four loops of `tagswapmon`, with the two groups that they move. -/
def exchange (m k : MonId) (sc mc : List ClientId) (s : State) : State :=
  let s := sc.foldl (fun s c => withdraw c s) s
  let s := mc.foldl (fun s c => withdraw c s) s
  let s := sc.reverse.foldl (fun s c => settle m c s) s
  mc.reverse.foldl (fun s c => settle k c s) s

theorem exchange_keeps (m k : MonId) (sc mc : List ClientId) (s : State) :
    (exchange m k sc mc s).selmon = s.selmon ∧
      (exchange m k sc mc s).settings = s.settings := by
  unfold exchange
  dsimp only
  obtain ⟨-, -, hsel₄, hset₄⟩ := settleAll_keeps k mc.reverse (sc.reverse.foldl
    (fun s c => settle m c s) (mc.foldl (fun s c => withdraw c s)
      (sc.foldl (fun s c => withdraw c s) s)))
  obtain ⟨-, -, hsel₃, hset₃⟩ := settleAll_keeps m sc.reverse
    (mc.foldl (fun s c => withdraw c s) (sc.foldl (fun s c => withdraw c s) s))
  refine ⟨?_, ?_⟩
  · rw [hsel₄, hsel₃, selmon_withdrawAll, selmon_withdrawAll]
  · rw [hset₄, hset₃, (relinked_withdrawAll mc _).settings, (relinked_withdrawAll sc s).settings]

/-- What the loops do to a list, whichever of the two it is. -/
theorem exchange_list {L : State → MonId → List ClientId} {sc mc : List ClientId}
    (hout : ∀ c s k, L (withdraw c s) k = if k = s.own c then (L s k).erase c else L s k)
    (hin : ∀ m c s k, L (settle m c s) k = if k = m then c :: L s k else L s k)
    (hne : m ≠ k) (hsc : ∀ c ∈ sc, s.own c = k) (hmc : ∀ c ∈ mc, s.own c = m) (j : MonId) :
    L (exchange m k sc mc s) j = if j = m then sc ++ (L s j).diff mc
      else if j = k then mc ++ (L s j).diff sc else L s j := by
  have hmc' : ∀ c ∈ mc, (sc.foldl (fun s c => withdraw c s) s).own c = m := by
    rw [(relinked_withdrawAll sc s).own]
    exact hmc
  unfold exchange
  dsimp only
  rw [settleAll_append hin, settleAll_append hin, withdrawAll_diff hout hmc',
    withdrawAll_diff hout hsc, List.reverse_reverse, List.reverse_reverse]
  by_cases hj : j = m
  · have hjk : j ≠ k := by
      rw [hj]
      exact hne
    rw [if_neg hjk, if_pos hj, if_pos hj, if_pos hj, if_neg hjk]
  · simp only [if_neg hj]
    split <;> rfl

/-- The first group moves to the one monitor, … -/
theorem exchange_leaves {sc mc : List ClientId} (hnd : sc.Nodup) (hc : c ∈ sc) (hc' : c ∉ mc) :
    (exchange m k sc mc s).seat c = { s.seat c with mon := m, tags := (s.settings m).tags } := by
  unfold exchange
  dsimp only
  rw [seat_settleAll_of_notMem k _ (mt List.mem_reverse.mp hc'),
    seat_settleAll_of_mem m _ (List.nodup_reverse.mpr hnd) (List.mem_reverse.mpr hc),
    (relinked_withdrawAll mc _).seat, (relinked_withdrawAll sc s).seat,
    (relinked_withdrawAll mc _).settings, (relinked_withdrawAll sc s).settings]

/-- … the second one to the other, … -/
theorem exchange_comes {sc mc : List ClientId} (hnd : mc.Nodup) (hc : c ∈ mc) (hc' : c ∉ sc) :
    (exchange m k sc mc s).seat c = { s.seat c with mon := k, tags := (s.settings k).tags } := by
  unfold exchange
  dsimp only
  rw [seat_settleAll_of_mem k _ (List.nodup_reverse.mpr hnd) (List.mem_reverse.mpr hc),
    seat_settleAll_of_notMem m _ (mt List.mem_reverse.mp hc'), (settleAll_keeps m _ _).2.2.2,
    (relinked_withdrawAll mc _).seat, (relinked_withdrawAll sc s).seat,
    (relinked_withdrawAll mc _).settings, (relinked_withdrawAll sc s).settings]

/-- … and nobody else moves. -/
theorem exchange_stays {sc mc : List ClientId} (hc : c ∉ sc) (hc' : c ∉ mc) :
    (exchange m k sc mc s).seat c = s.seat c := by
  unfold exchange
  dsimp only
  rw [seat_settleAll_of_notMem k _ (mt List.mem_reverse.mp hc'),
    seat_settleAll_of_notMem m _ (mt List.mem_reverse.mp hc),
    (relinked_withdrawAll mc _).seat, (relinked_withdrawAll sc s).seat]

/-! ### The command -/

/-- The clients on view of one monitor are not on view on another one. -/
theorem shownOn_disjoint {outC outS : ClientId → Prop} (h : Inv outC outS s) (hm : m ∈ s.mons)
    (hk : k ∈ s.mons) (hne : m ≠ k) (hc : c ∈ shownOn s m) : c ∉ shownOn s k := by
  intro hc'
  apply hne
  obtain ⟨-, hown, -⟩ := h.clients.owned m hm c (List.mem_filter.mp hc).1
  obtain ⟨-, hown', -⟩ := h.clients.owned k hk c (List.mem_filter.mp hc').1
  exact hown.symm.trans hown'

/-- The groups are the clients on view of the two monitors. -/
theorem tagswapmon_eq {i : Int} (hlen : ¬ s.mons.length < 2)
    (hown : ∀ c ∈ shownOn s s.selmon, s.own c = s.selmon) (hne : dirtomon i s ≠ s.selmon) :
    tagswapmon i s = arrange none (focus none (exchange (dirtomon i s) s.selmon
      (shownOn s s.selmon) (shownOn s (dirtomon i s)) s)) := by
  have hmc : (((shownOn s s.selmon).foldl (fun s c => withdraw c s) s).monitor
      (dirtomon i s)).clients.filter
        ((shownOn s s.selmon).foldl (fun s c => withdraw c s) s).visible =
      shownOn s (dirtomon i s) := by
    change (((shownOn s s.selmon).foldl (fun s c => withdraw c s) s).clientsOf
      (dirtomon i s)).filter _ = _
    rw [withdrawAll_diff clientsOf_withdraw hown, if_neg hne,
      (relinked_withdrawAll (shownOn s s.selmon) s).visible]
    rfl
  have hsc : s.selM.clients.filter s.visible = shownOn s s.selmon := rfl
  unfold tagswapmon
  rw [if_neg hlen]
  dsimp only
  rw [hsc, hmc, settle_selmon, (settleAll_keeps _ _ _).2.2.1, selmon_withdrawAll,
    selmon_withdrawAll]
  rfl

/-- `tagswapmon` exchanges what is on view on the two monitors. -/
theorem Filed.monSwapped (i : Int) (h : Filed lost base s)
    (hview : ∀ m, (s.settings m).tags ≠ 0#32) (hlen : ¬ s.mons.length < 2) :
    MonSwapped (dirtomon i s) s (tagswapmon i s) := by
  obtain ⟨outC, -, hinv⟩ := h.inv
  have hm : dirtomon i s ∈ s.mons := dirtomon_mem i h.selmon
  have hne : dirtomon i s ≠ s.selmon := dirtomon_ne i hinv.nodup h.selmon hlen
  have hsc : ∀ c ∈ shownOn s s.selmon, s.own c = s.selmon := fun c hc =>
    (hinv.clients.owned _ h.selmon c (List.mem_filter.mp hc).1).2.1
  rw [tagswapmon_eq hlen hsc hne]
  generalize dirtomon i s = m at hm hne ⊢
  have hmc : ∀ c ∈ shownOn s m, s.own c = m := fun c hc =>
    (hinv.clients.owned _ hm c (List.mem_filter.mp hc).1).2.1
  have hscnd : (shownOn s s.selmon).Nodup := (hinv.clients.nodup _ h.selmon).filter _
  have hmcnd : (shownOn s m).Nodup := (hinv.clients.nodup _ hm).filter _
  obtain ⟨hselmon, hset⟩ := exchange_keeps m s.selmon (shownOn s s.selmon) (shownOn s m) s
  have hclients := exchange_list clientsOf_withdraw clientsOf_settle hne hsc hmc
  have hstack := exchange_list stackOf_withdraw stackOf_settle hne hsc hmc
  have hleaves : ∀ c ∈ shownOn s s.selmon, _ := fun c hc =>
    exchange_leaves (m := m) (k := s.selmon) (s := s) hscnd hc
      (shownOn_disjoint hinv h.selmon hm hne.symm hc)
  have hcomes : ∀ c ∈ shownOn s m, _ := fun c hc =>
    exchange_comes (m := m) (k := s.selmon) (s := s) hmcnd hc
      (shownOn_disjoint hinv hm h.selmon hne hc)
  have hstays : ∀ c, c ∉ shownOn s s.selmon → c ∉ shownOn s m → _ := fun c hc hc' =>
    exchange_stays (m := m) (k := s.selmon) (s := s) hc hc'
  generalize exchange m s.selmon (shownOn s s.selmon) (shownOn s m) s = t
    at hselmon hset hclients hstack hleaves hcomes hstays ⊢
  -- every client of the stack that is looked through has its monitor
  have hhome : ∀ c ∈ t.stackOf t.selmon, t.own c = t.selmon := by
    intro c hc
    rw [hselmon] at hc ⊢
    rw [hstack, if_neg hne.symm, if_pos rfl, List.mem_append,
      (hinv.stack.nodup _ h.selmon).mem_sdiff_iff] at hc
    rcases hc with hc | ⟨hc, hc'⟩
    · rw [State.own, hcomes c hc]
    · have hown : s.own c = s.selmon := (hinv.stack.owned _ h.selmon c hc).2.1
      rw [State.own, hstays c hc' fun hmem => hne ((hmc c hmem).symm.trans hown)]
      exact hown
  have hfocus := stackOf_focusNone hhome
  have hrel : Relinked t (arrange none (focus none t)) := (Relinked.refl t).focus.arrange
  have hdraw := ((Redrawn.refl (focus none t)).arrange (m := none)).unmoved
  have hselmon' : (focus none t).selmon = t.selmon := by
    rw [selmon_focus]
    cases ht : focusTarget none t with
    | none => rfl
    | some c => exact hhome c (firstVisible_mem ht).1
  have hvis : ∀ k, ((arrange none (focus none t)).settings k).tags ≠ 0#32 := by
    rw [hrel.settings, hset]
    exact hview
  rw [hselmon] at hfocus
  constructor
  · exact hdraw.selmon.trans (hselmon'.trans hselmon)
  · exact hrel.settings.trans hset
  · rw [hdraw.clientsOf, clientsOf_focus, hclients, if_pos rfl,
      (hinv.clients.nodup _ hm).sdiff_eq_filter]
    exact congrArg _ (filter_notMem_filter s.visible (s.clientsOf m))
  · rw [hdraw.clientsOf, clientsOf_focus, hclients, if_neg hne.symm, if_pos rfl,
      (hinv.clients.nodup _ h.selmon).sdiff_eq_filter]
    exact congrArg _ (filter_notMem_filter s.visible (s.clientsOf s.selmon))
  · rw [hdraw.stackOf, hfocus, if_neg hne, hstack, if_pos rfl,
      (hinv.stack.nodup _ hm).sdiff_eq_filter]
  · rw [hdraw.stackOf, hfocus, if_pos rfl, hstack, if_neg hne.symm, if_pos rfl,
      (hinv.stack.nodup _ h.selmon).sdiff_eq_filter, hrel.visible]
  · intro k hkm hks
    rw [hdraw.clientsOf, clientsOf_focus, hclients, if_neg hkm, if_neg hks, hdraw.stackOf, hfocus,
      if_neg hks, hstack, if_neg hkm, if_neg hks]
    exact ⟨rfl, rfl⟩
  · intro c hc
    refine visible_of_seat ((congrFun hrel.seat c).trans (hleaves c hc)) rfl ?_ (hvis m)
    rw [hrel.settings, hset]
  · intro c hc
    refine visible_of_seat ((congrFun hrel.seat c).trans (hcomes c hc)) rfl ?_ (hvis s.selmon)
    rw [hrel.settings, hset]
  · intro c hc hc'
    exact (congrFun hrel.seat c).trans (hstays c hc hc')

/-- A selected client is on its stack, and on its `clients` list unless it is off that. -/
theorem Filed.sel_listed (h : Filed lost base s) (hm : m ∈ s.mons)
    (hc : (s.lists m).sel = some c) : c ∈ s.stackOf m ∧ (c ∈ s.clientsOf m ∨ lost c) := by
  obtain ⟨outC, hle, hinv⟩ := h.inv
  have hstack : c ∈ s.stackOf m := hinv.sel m hm c hc
  obtain ⟨hl, hown, -⟩ := hinv.stack.owned m hm c hstack
  refine ⟨hstack, ?_⟩
  by_cases hout : outC c
  · exact Or.inr (hle c hout)
  · subst hown
    exact Or.inl (hinv.clients.listed c hl hm hout)

/-- **Swapping monitors.**  With two monitors, `tagswapmon` exchanges the clients
on view; the `clients` lists keep the order of each group and of those that are
not on view, and every selected client is on its own list. -/
theorem tagswapmon_exchanges (i : Int) (h : Filed lost base s)
    (hview : ∀ m, (s.settings m).tags ≠ 0#32) (hlen : ¬ s.mons.length < 2) :
    MonSwapped (dirtomon i s) s (tagswapmon i s) ∧
      ∀ m ∈ (tagswapmon i s).mons, ∀ c, ((tagswapmon i s).lists m).sel = some c →
        c ∈ (tagswapmon i s).stackOf m ∧ (c ∈ (tagswapmon i s).clientsOf m ∨ lost c) :=
  ⟨h.monSwapped i hview hlen, fun _ hm _ hc => (h.tagswapmon i).sel_listed hm hc⟩

/-- Two windows on the second screen change places with the one on the first. -/
theorem tagswapmon_exchanges_two_screens : ∃ s, s.clientsOf 0 = [0] ∧ s.clientsOf 1 = [2, 1] ∧
    (tagswapmon 1 s).clientsOf 0 = [2, 1] ∧ (tagswapmon 1 s).clientsOf 1 = [0] := by
  obtain ⟨s, hs, hp⟩ := exists_of_passes
    (x := play twoScreens [.maprequest 0 10 plainWindow, .press .focusmon (.i 1),
      .maprequest 1 11 plainWindow, .maprequest 2 12 plainWindow])
    (p := fun s => s.clientsOf 0 = [0] ∧ s.clientsOf 1 = [2, 1] ∧ s.mons.length = 2 ∧
      s.selmon = 1 ∧ dirtomon 1 s = 0 ∧ shownOn s 0 = [0] ∧ shownOn s 1 = [2, 1] ∧
      hiddenOn s 0 = [] ∧ hiddenOn s 1 = []) (by decide +kernel)
  obtain ⟨hzero, hone, hlen, hsel, hdir, hshown, hshown', hhidden, hhidden'⟩ := of_decide_eq_true hp
  have hreach := reachable_play hs
  obtain ⟨hswap, -⟩ := tagswapmon_exchanges 1 (filed_any hreach)
    (fun m => (viewing_of_reachable hreach m _).1) (by omega)
  rw [hdir] at hswap
  have htarget := hswap.target
  have hselected := hswap.selected
  rw [hsel, hshown', hhidden] at htarget
  rw [hsel, hshown, hhidden'] at hselected
  exact ⟨s, hzero, hone, htarget, hselected⟩

/-- The lower of two windows is selected, so that it is on top of the stack;
after the exchange it is below the other one. -/
theorem tagswapmon_reorders_stack : ¬ ∀ s i, Reachable Any s → ¬ s.mons.length < 2 →
    (((tagswapmon i s).stackOf (dirtomon i s)).filter (· ∈ shownOn s s.selmon)) =
      (s.stackOf s.selmon).filter (· ∈ shownOn s s.selmon) := by
  intro h
  obtain ⟨s, hs, hp⟩ := exists_of_passes
    (x := play twoScreens [.maprequest 0 10 plainWindow, .maprequest 1 11 plainWindow,
      .press .focusstack (.i 1)])
    (p := fun s => s.mons.length = 2 ∧
      (s.stackOf s.selmon).filter (· ∈ shownOn s s.selmon) = [0, 1] ∧
      ((tagswapmon 1 s).stackOf (dirtomon 1 s)).filter (· ∈ shownOn s s.selmon) = [1, 0])
    (by decide +kernel)
  obtain ⟨hlen, hbefore, hafter⟩ := of_decide_eq_true hp
  have heq := h s 1 (reachable_play hs) (by omega)
  rw [hbefore, hafter] at heq
  exact absurd heq (by decide)

end Dwm
