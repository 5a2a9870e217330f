import Zzdwm.Dwm.Events

/-!
# What each routine leaves alone

Four grades of how little a routine does, each with the lemmas that grade the
routines of the model.  An invariant is then proved once for each grade it
survives, and by hand only where a routine does more.

* `Redrawn s t` — only geometry and flags such as `isfloating` changed;
* `Quiet s t` — besides, settings other than the tag sets in view changed;
* `Unmoved s t` — every client stays where it was, whatever else changed;
* `Relinked s t` — only lists, selections and the selected monitor changed.
-/

namespace Dwm

open Machine

/-- Nothing changed but geometry, flags of clients, `tagmarked` and
`prevclient`. -/
structure Redrawn (s t : State) : Prop where
  seat : t.seat = s.seat
  live : t.live = s.live
  mons : t.mons = s.mons
  selmon : t.selmon = s.selmon
  nextmon : t.nextmon = s.nextmon
  lists : t.lists = s.lists
  settings : t.settings = s.settings

/-- Nothing changed that decides which clients are where and which are shown. -/
structure Quiet (s t : State) : Prop where
  seat : t.seat = s.seat
  live : t.live = s.live
  mons : t.mons = s.mons
  selmon : t.selmon = s.selmon
  nextmon : t.nextmon = s.nextmon
  lists : t.lists = s.lists
  tags : ∀ m, (t.settings m).tags = (s.settings m).tags

/-- No client moved: the lists and what says which list a client belongs on are
as they were. -/
structure Unmoved (s t : State) : Prop where
  own : t.own = s.own
  live : t.live = s.live
  mons : t.mons = s.mons
  selmon : t.selmon = s.selmon
  nextmon : t.nextmon = s.nextmon
  lists : t.lists = s.lists

/-- Nothing changed but lists, selections and the selected monitor, apart from
what `Redrawn` allows. -/
structure Relinked (s t : State) : Prop where
  seat : t.seat = s.seat
  live : t.live = s.live
  mons : t.mons = s.mons
  nextmon : t.nextmon = s.nextmon
  settings : t.settings = s.settings

variable {s t u : State}

theorem Redrawn.refl (s : State) : Redrawn s s := ⟨rfl, rfl, rfl, rfl, rfl, rfl, rfl⟩

theorem Redrawn.trans (h : Redrawn s t) (h' : Redrawn t u) : Redrawn s u :=
  ⟨h'.seat.trans h.seat, h'.live.trans h.live, h'.mons.trans h.mons,
    h'.selmon.trans h.selmon, h'.nextmon.trans h.nextmon, h'.lists.trans h.lists,
    h'.settings.trans h.settings⟩

theorem Redrawn.quiet (h : Redrawn s t) : Quiet s t :=
  ⟨h.seat, h.live, h.mons, h.selmon, h.nextmon, h.lists, fun m => by rw [h.settings]⟩

theorem Redrawn.relinked (h : Redrawn s t) : Relinked s t :=
  ⟨h.seat, h.live, h.mons, h.nextmon, h.settings⟩

theorem Quiet.refl (s : State) : Quiet s s := (Redrawn.refl s).quiet

theorem Quiet.trans (h : Quiet s t) (h' : Quiet t u) : Quiet s u :=
  ⟨h'.seat.trans h.seat, h'.live.trans h.live, h'.mons.trans h.mons,
    h'.selmon.trans h.selmon, h'.nextmon.trans h.nextmon, h'.lists.trans h.lists,
    fun m => (h'.tags m).trans (h.tags m)⟩

theorem Unmoved.refl (s : State) : Unmoved s s := ⟨rfl, rfl, rfl, rfl, rfl, rfl⟩

theorem Unmoved.trans (h : Unmoved s t) (h' : Unmoved t u) : Unmoved s u :=
  ⟨h'.own.trans h.own, h'.live.trans h.live, h'.mons.trans h.mons,
    h'.selmon.trans h.selmon, h'.nextmon.trans h.nextmon, h'.lists.trans h.lists⟩

theorem Relinked.refl (s : State) : Relinked s s := (Redrawn.refl s).relinked

theorem Relinked.trans (h : Relinked s t) (h' : Relinked t u) : Relinked s u :=
  ⟨h'.seat.trans h.seat, h'.live.trans h.live, h'.mons.trans h.mons,
    h'.nextmon.trans h.nextmon, h'.settings.trans h.settings⟩

/-! ## What the grades say about derived notions -/

/-- Visibility in terms of the parts that the grades speak about. -/
theorem State.visible_eq (s : State) (c : ClientId) :
    s.visible c = ((s.seat c).tags &&& (s.settings (s.seat c).mon).tags ≠ 0#32
      || (s.seat c).issticky) := rfl

theorem visible_congr (hseat : t.seat = s.seat)
    (htags : ∀ m, (t.settings m).tags = (s.settings m).tags) : t.visible = s.visible := by
  funext c
  rw [State.visible_eq, State.visible_eq, hseat, htags]

theorem Quiet.visible (h : Quiet s t) : t.visible = s.visible :=
  visible_congr h.seat h.tags

theorem Relinked.visible (h : Relinked s t) : t.visible = s.visible :=
  visible_congr h.seat fun m => by rw [h.settings]

theorem Relinked.own (h : Relinked s t) : t.own = s.own := by
  funext c
  rw [State.own, State.own, h.seat]

theorem Quiet.own (h : Quiet s t) : t.own = s.own := by
  funext c
  rw [State.own, State.own, h.seat]

theorem Quiet.unmoved (h : Quiet s t) : Unmoved s t :=
  ⟨h.own, h.live, h.mons, h.selmon, h.nextmon, h.lists⟩

theorem Redrawn.unmoved (h : Redrawn s t) : Unmoved s t := h.quiet.unmoved

theorem Quiet.sel (h : Quiet s t) : t.sel = s.sel := by
  change (t.lists t.selmon).sel = (s.lists s.selmon).sel
  rw [h.lists, h.selmon]

theorem Quiet.firstVisible (h : Quiet s t) : t.firstVisible = s.firstVisible := by
  funext m
  change (t.lists m).stack.find? t.visible = (s.lists m).stack.find? s.visible
  rw [h.lists, h.visible]

/-! ## Assignments that leave a field alone

The instances recognize the record updates of the source. -/

/-- The seat of a client stays. -/
class KeepsSeat (f : Client → Client) : Prop where
  seat : ∀ k, (f k).toSeat = k.toSeat

instance (a b c d e g : Client → Bool) :
    KeepsSeat fun k => ⟨k.toSeat, a k, b k, c k, d k, e k, g k⟩ := ⟨fun _ => rfl⟩

/-- The monitor of a client stays. -/
class KeepsMon (f : Client → Client) : Prop where
  mon : ∀ k, (f k).mon = k.mon

instance {f : Client → Client} [KeepsSeat f] : KeepsMon f :=
  ⟨fun k => congrArg Seat.mon (KeepsSeat.seat k)⟩

instance (w : Client → Window) (x : Client → TagSet) (y a b c d e g : Client → Bool) :
    KeepsMon fun k => ⟨⟨w k, x k, k.mon, y k⟩, a k, b k, c k, d k, e k, g k⟩ := ⟨fun _ => rfl⟩

/-- The tags of a client stay. -/
class KeepsTags (f : Client → Client) : Prop where
  tags : ∀ k, (f k).tags = k.tags

instance {f : Client → Client} [KeepsSeat f] : KeepsTags f :=
  ⟨fun k => congrArg Seat.tags (KeepsSeat.seat k)⟩

instance (w : Client → Window) (m : Client → MonId) (y a b c d e g : Client → Bool) :
    KeepsTags fun k => ⟨⟨w k, k.tags, m k, y k⟩, a k, b k, c k, d k, e k, g k⟩ := ⟨fun _ => rfl⟩

/-- The settings of a monitor stay. -/
class KeepsSettings (f : Monitor → Monitor) : Prop where
  settings : ∀ k, (f k).toSettings = k.toSettings

instance (l : Monitor → Lists) (x : Monitor → Nat → Option ClientId) :
    KeepsSettings fun k => ⟨k.toSettings, l k, x k⟩ := ⟨fun _ => rfl⟩

/-- The lists of a monitor stay. -/
class KeepsLists (f : Monitor → Monitor) : Prop where
  lists : ∀ k, (f k).toLists = k.toLists

instance (a : Monitor → Settings) (x : Monitor → Nat → Option ClientId) :
    KeepsLists fun k => ⟨a k, k.toLists, x k⟩ := ⟨fun _ => rfl⟩

/-! ## Routines that only redraw

The lemmas about assignments and drawing take what went before as a
hypothesis, so that a routine is graded by naming its steps in order. -/

theorem Redrawn.ite {p : Prop} [Decidable p] (ht : Redrawn s t) (hu : Redrawn s u) :
    Redrawn s (if p then t else u) := by
  split
  · exact ht
  · exact hu

theorem Redrawn.arrange {m : Option MonId} (h : Redrawn s t) : Redrawn s (arrange m t) :=
  h.trans ⟨rfl, rfl, rfl, rfl, rfl, rfl, rfl⟩

theorem Redrawn.rearrange {m : MonId} (h : Redrawn s t) : Redrawn s (rearrange m t) :=
  h.trans ⟨rfl, rfl, rfl, rfl, rfl, rfl, rfl⟩

theorem Redrawn.arrangesel (h : Redrawn s t) : Redrawn s (arrangesel t) := h.arrange

theorem Redrawn.modGeom {c : ClientId} {f : Geom → Geom} (h : Redrawn s t) :
    Redrawn s (t.modGeom c f) := h.trans ⟨rfl, rfl, rfl, rfl, rfl, rfl, rfl⟩

theorem Redrawn.resize {c : ClientId} {r : Rect} {i : Bool} (h : Redrawn s t) :
    Redrawn s (t.resize c r i) := h.trans ⟨rfl, rfl, rfl, rfl, rfl, rfl, rfl⟩

theorem Redrawn.resizeclient {c : ClientId} {r : Rect} (h : Redrawn s t) :
    Redrawn s (t.resizeclient c r) := h.trans ⟨rfl, rfl, rfl, rfl, rfl, rfl, rfl⟩

theorem Redrawn.unfocus {c : Option ClientId} (h : Redrawn s t) : Redrawn s (unfocus c t) := by
  cases c <;> exact h.trans ⟨rfl, rfl, rfl, rfl, rfl, rfl, rfl⟩

/-- Assigning to a client without moving or hiding it. -/
theorem Redrawn.modClient {c : ClientId} {f : Client → Client} [KeepsSeat f]
    (h : Redrawn s t) : Redrawn s (t.modClient c f) := by
  refine h.trans ⟨?_, rfl, rfl, rfl, rfl, rfl, rfl⟩
  funext d
  by_cases hd : d = c
  · subst hd
    simp [State.seat, State.modClient, KeepsSeat.seat (f := f)]
  · simp [State.seat, State.modClient, hd]

/-- Assigning to a monitor apart from its settings and its lists. -/
theorem Redrawn.modMon {m : MonId} {f : Monitor → Monitor} [KeepsSettings f] [KeepsLists f]
    (h : Redrawn s t) : Redrawn s (t.modMon m f) := by
  refine h.trans ⟨rfl, rfl, rfl, rfl, rfl, ?_, ?_⟩ <;>
    funext d <;> by_cases hd : d = m
  · subst hd
    simp [State.lists, State.modMon, KeepsLists.lists (f := f)]
  · simp [State.lists, State.modMon, hd]
  · subst hd
    simp [State.settings, State.modMon, KeepsSettings.settings (f := f)]
  · simp [State.settings, State.modMon, hd]

theorem redrawn_moveclient (r : Rect) (s : State) : Redrawn s (moveclient r s) := by
  unfold moveclient
  split
  · exact .ite (.refl s) (.ite (Redrawn.refl s).modGeom.resize (.refl s))
  · exact .refl s

theorem redrawn_togglefloating (s : State) : Redrawn s (togglefloating s) := by
  unfold togglefloating
  split
  · exact .ite (.refl s) (Redrawn.ite (Redrawn.refl s).modClient.resize
      (Redrawn.refl s).modClient).modGeom.arrangesel
  · exact .refl s

theorem redrawn_maximize (r : Rect) (s : State) : Redrawn s (maximize r s) := by
  unfold maximize
  split
  · refine .ite (.refl s) (.ite ?_ ?_)
    · exact (Redrawn.ite (Redrawn.refl s).modClient
        (redrawn_togglefloating s).modClient).modGeom.resize.modClient
    · exact (Redrawn.ite ((Redrawn.refl s).resize.trans (redrawn_togglefloating _))
        (Redrawn.refl s).resize).modClient
  · exact .refl s

theorem redrawn_setfullscreen (c : ClientId) (b : Bool) (s : State) :
    Redrawn s (setfullscreen c b s) := by
  unfold setfullscreen
  exact .ite (Redrawn.refl s).modClient.modGeom.resizeclient
    (.ite (Redrawn.refl s).modClient.modGeom.resizeclient.arrange (.refl s))

theorem redrawn_updatemotifhints (c : ClientId) (b : Option Bool) (s : State) :
    Redrawn s (updatemotifhints c b s) := by
  unfold updatemotifhints
  split
  · exact (Redrawn.refl s).modGeom.resize
  · exact .refl s

theorem redrawn_configurerequest (w : Window) (r : ConfRequest) (s : State) :
    Redrawn s (configurerequest w r s) := by
  unfold configurerequest
  split
  · split
    · exact (Redrawn.refl s).modGeom
    · exact .ite (Redrawn.refl s).modGeom (.refl s)
  · exact .refl s

theorem redrawn_refill (m : MonId) (cs : List ClientId) (s : State) :
    Redrawn s (refill m cs s) := by
  induction cs generalizing s with
  | nil => exact .refl s
  | cons c cs ih => exact (Redrawn.ite (Redrawn.refl s).resizeclient (.refl s)).trans (ih _)

theorem redrawn_refillAll (ms : List MonId) (s : State) :
    Redrawn s (ms.foldl (fun s m => refill m (s.monitor m).clients s) s) := by
  induction ms generalizing s with
  | nil => exact .refl s
  | cons m ms ih => exact (redrawn_refill m _ s).trans (ih _)

theorem redrawn_fdeck (arg : TagSet) (s : State) : Redrawn s (fdeck arg s) := by
  unfold fdeck
  split <;> first | exact redrawn_moveclient _ s | exact .refl s

theorem redrawn_togglefullscr (s : State) : Redrawn s (togglefullscr s) := by
  unfold togglefullscr
  split
  · exact redrawn_setfullscreen _ _ s
  · exact .refl s

/-! ## Routines that move no client -/

/-- Assigning to a client without moving it. -/
theorem Unmoved.modClient {c : ClientId} {f : Client → Client} [KeepsMon f]
    (h : Unmoved s t) : Unmoved s (t.modClient c f) := by
  refine h.trans ⟨?_, rfl, rfl, rfl, rfl, rfl⟩
  funext d
  by_cases hd : d = c
  · subst hd
    simp [State.own, State.seat, State.modClient, KeepsMon.mon (f := f)]
  · simp [State.own, State.seat, State.modClient, hd]

theorem Unmoved.redraw (h : Unmoved s t) (h' : Redrawn t u) : Unmoved s u :=
  h.trans h'.unmoved

theorem Unmoved.setsticky {c : ClientId} {b : Bool} (h : Unmoved s t) :
    Unmoved s (setsticky c b t) := by
  unfold Dwm.setsticky
  split
  · exact h.modClient
  · split
    · exact h.modClient.redraw (Redrawn.refl _).arrange
    · exact h

theorem Unmoved.updatewindowtype {c : ClientId} {n : NetState} {d : Bool} (h : Unmoved s t) :
    Unmoved s (updatewindowtype c n d t) := by
  have hdialog : ∀ {u : State}, Unmoved s u → Unmoved s (if d then
      u.modClient c fun k => { k with isfloating := true } else u) := by
    intro u hu
    split
    · exact hu.modClient
    · exact hu
  cases n with
  | fullscreen => exact hdialog (h.redraw (redrawn_setfullscreen c true t))
  | sticky => exact hdialog h.setsticky
  | other => exact hdialog h

theorem unmoved_dress (c : ClientId) (i : WinInfo) (s : State) : Unmoved s (dress c i s) := by
  unfold dress
  refine @Unmoved.modClient _ _ _ _ ⟨?_⟩ (Unmoved.redraw (Unmoved.redraw (Unmoved.modClient
    (Unmoved.updatewindowtype ?_)) (redrawn_updatemotifhints _ _ _)) (Redrawn.refl _).modGeom)
  · intro k
    dsimp only
    split <;> rfl
  · exact (Redrawn.refl s).modGeom.unmoved

/-! ## Settings -/

theorem settings_modSettings (m : MonId) (f : Settings → Settings) (s : State) :
    (s.modSettings m f).settings = Function.update s.settings m (f (s.settings m)) := by
  funext d
  by_cases hd : d = m
  · subst hd
    simp [State.settings, State.modSettings, State.modMon]
  · simp [State.settings, State.modSettings, State.modMon, hd]

theorem lists_modSettings (m : MonId) (f : Settings → Settings) (s : State) :
    (s.modSettings m f).lists = s.lists := by
  funext d
  by_cases hd : d = m
  · subst hd
    simp [State.lists, State.modSettings, State.modMon]
  · simp [State.lists, State.modSettings, State.modMon, hd]

theorem unmoved_modSettings (m : MonId) (f : Settings → Settings) (s : State) :
    Unmoved s (s.modSettings m f) := ⟨rfl, rfl, rfl, rfl, rfl, lists_modSettings m f s⟩

/-- Changing the settings of a monitor without changing its view. -/
theorem quiet_modSettings (m : MonId) {f : Settings → Settings} (s : State)
    (hf : (f (s.settings m)).tags = (s.settings m).tags) : Quiet s (s.modSettings m f) where
  seat := rfl
  live := rfl
  mons := rfl
  selmon := rfl
  nextmon := rfl
  lists := lists_modSettings m f s
  tags := by
    intro d
    rw [settings_modSettings]
    by_cases hd : d = m
    · subst hd
      rw [Function.update_self]
      exact hf
    · rw [Function.update_of_ne hd]

/-! ## Commands that set settings -/

theorem Quiet.redraw (h : Quiet s t) (h' : Redrawn t u) : Quiet s u := h.trans h'.quiet

theorem Settings.tags_setlayout (a : Option Layout) (m : Settings) :
    (m.setlayout a).tags = m.tags := by
  unfold Settings.setlayout
  dsimp only
  split <;> split <;> rfl

theorem quiet_setlayout (a : Option Layout) (s : State) : Quiet s (setlayout a s) := by
  have hset := quiet_modSettings s.selmon s (Settings.tags_setlayout a (s.settings s.selmon))
  unfold setlayout
  dsimp only
  split
  · exact hset.redraw (Redrawn.refl _).arrangesel
  · exact hset

theorem quiet_cyclelayout (i : Int) (s : State) : Quiet s (cyclelayout i s) :=
  quiet_setlayout _ s

/-- A command that assigns to the settings of the selected monitor, leaves its
view alone and rearranges. -/
theorem quiet_assign {f : Settings → Settings} (s : State)
    (hf : (f (s.settings s.selmon)).tags = (s.settings s.selmon).tags) :
    Quiet s (arrangesel (s.modSettings s.selmon f)) :=
  (quiet_modSettings s.selmon s hf).redraw (Redrawn.refl _).arrangesel

theorem quiet_resetnmaster (a : TagSet) (s : State) : Quiet s (resetnmaster a s) :=
  quiet_assign s rfl

theorem quiet_resetmfact (s : State) : Quiet s (resetmfact s) := by
  unfold resetmfact
  split
  · refine quiet_assign s ?_
    unfold Settings.resetmfact
    dsimp only
    split <;> rfl
  · exact .refl s

theorem quiet_togglebar (s : State) : Quiet s (togglebar s) := by
  refine quiet_assign s ?_
  unfold Settings.updatebarpos
  split <;> rfl

theorem quiet_setgaps (i : Int) (s : State) : Quiet s (setgaps i s) := by
  refine quiet_assign s ?_
  repeat' split
  all_goals rfl

theorem quiet_incnmaster (i : Int) (s : State) : Post (incnmaster i s) (Quiet s) := by
  unfold incnmaster
  refine (post_any _).bind fun b _ => ?_
  split
  · exact (post_pure _).mpr (.refl s)
  · exact (post_pure _).mpr (quiet_assign s rfl)

theorem Settings.tags_setmfact {a : Rat} {m k : Settings} (h : m.setmfact a = some k) :
    k.tags = m.tags := by
  unfold Settings.setmfact at h
  dsimp only at h
  repeat' split at h
  all_goals first
    | cases h
      rfl
    | cases h

theorem Settings.tags_setsmfact {a : Rat} {m k : Settings} (h : m.setsmfact a = some k) :
    k.tags = m.tags := by
  unfold Settings.setsmfact at h
  dsimp only at h
  repeat' split at h
  all_goals first
    | cases h
      rfl
    | cases h

theorem quiet_setfact {move : ClientId → State → State} {set : Settings → Option Settings}
    (s : State) (hmove : ∀ c, Redrawn s (move c s))
    (hset : ∀ k, set (s.settings s.selmon) = some k → k.tags = (s.settings s.selmon).tags) :
    Post (setfact move set s) (Quiet s) := by
  unfold setfact
  refine (post_any _).bind fun b _ => ?_
  split
  · refine (post_any _).bind fun c _ => ?_
    exact (post_pure _).mpr ((hmove c).arrangesel.quiet)
  · split
    · rename_i k hk
      exact (post_pure _).mpr (quiet_assign s (hset k hk))
    · exact (post_pure _).mpr (.refl s)

theorem quiet_setmfact (a : Rat) (s : State) : Post (setmfact a s) (Quiet s) := by
  refine quiet_setfact s (fun c => ?_) fun k => Settings.tags_setmfact
  exact .ite (redrawn_moveclient _ s) (.refl s)

theorem quiet_setsmfact (a : Rat) (s : State) : Post (setsmfact a s) (Quiet s) := by
  refine quiet_setfact s (fun c => ?_) fun k => Settings.tags_setsmfact
  exact .ite (redrawn_moveclient _ s) (.refl s)

theorem redrawn_setsize (r : Rat → State → Rect → Rect) (a : Rat) (s : State) :
    Post (setsize r a s) (Redrawn s) := by
  unfold setsize
  refine (post_any _).bind fun b _ => ?_
  split
  · refine (post_any _).bind fun c _ => ?_
    exact (post_pure _).mpr (redrawn_moveclient _ s).arrangesel
  · exact (post_pure _).mpr (Redrawn.refl s).arrangesel

theorem redrawn_setwfact (a : Rat) (s : State) : Post (setwfact a s) (Redrawn s) :=
  redrawn_setsize _ a s

theorem redrawn_sethfact (a : Rat) (s : State) : Post (sethfact a s) (Redrawn s) :=
  redrawn_setsize _ a s

theorem redrawn_fmaximize (a : TagSet) (s : State) : Post (fmaximize a s) (Redrawn s) := by
  unfold fmaximize
  dsimp only
  split
  · exact (post_pure _).mpr (redrawn_maximize _ s)
  · exact (post_any _).bind fun _ _ => (post_pure _).mpr (redrawn_maximize _ s)
  · exact (post_any _).bind fun _ _ => (post_pure _).mpr (redrawn_maximize _ s)
  · exact (post_pure _).mpr (.refl s)

theorem redrawn_fsnap (a : TagSet) (s : State) : Post (fsnap a s) (Redrawn s) := by
  unfold fsnap
  dsimp only
  split
  · exact (post_any _).bind fun _ _ => (post_pure _).mpr (redrawn_moveclient _ s)
  · exact (post_any _).bind fun _ _ => (post_pure _).mpr (redrawn_moveclient _ s)
  · exact (post_any _).bind fun _ _ => (post_pure _).mpr (redrawn_moveclient _ s)
  · exact (post_any _).bind fun _ _ => (post_pure _).mpr (redrawn_moveclient _ s)
  · exact (post_pure _).mpr (.refl s)

/-! ## Routines that only relink -/

/-- Assigning to the lists of a monitor. -/
theorem Relinked.modMon {m : MonId} {f : Monitor → Monitor} [KeepsSettings f]
    (h : Relinked s t) : Relinked s (t.modMon m f) := by
  refine h.trans ⟨rfl, rfl, rfl, rfl, ?_⟩
  funext d
  by_cases hd : d = m
  · subst hd
    simp [State.settings, State.modMon, KeepsSettings.settings (f := f)]
  · simp [State.settings, State.modMon, hd]

theorem Relinked.withSelmon {m : MonId} (h : Relinked s t) :
    Relinked s { t with selmon := m } := h.trans ⟨rfl, rfl, rfl, rfl, rfl⟩

theorem Relinked.redraw (h : Relinked s t) (h' : Redrawn t u) : Relinked s u :=
  h.trans h'.relinked

theorem Relinked.arrange {m : Option MonId} (h : Relinked s t) : Relinked s (arrange m t) :=
  h.redraw (Redrawn.refl t).arrange

theorem Relinked.detach {c : ClientId} (h : Relinked s t) : Relinked s (detach c t) := h.modMon

theorem Relinked.detachstack {c : ClientId} (h : Relinked s t) :
    Relinked s (detachstack c t) := by
  unfold Dwm.detachstack
  dsimp only
  split
  · exact h.modMon.modMon
  · exact h.modMon

theorem Relinked.attach {c : ClientId} (h : Relinked s t) : Relinked s (attach c t) := h.modMon

theorem Relinked.attachstack {c : ClientId} (h : Relinked s t) :
    Relinked s (attachstack c t) := h.modMon

theorem Relinked.enqueue {c : ClientId} (h : Relinked s t) : Relinked s (enqueue c t) := h.modMon

theorem Relinked.enqueuestack {c : ClientId} (h : Relinked s t) :
    Relinked s (enqueuestack c t) := h.modMon

theorem Relinked.attachx {n : Nat} {c : ClientId} (h : Relinked s t) :
    Relinked s (attachx n c t) := by
  unfold Dwm.attachx
  dsimp only
  split <;> repeat' split
  all_goals first | exact h.attach | exact h.modMon

theorem Relinked.focus {c : Option ClientId} (h : Relinked s t) : Relinked s (focus c t) := by
  unfold Dwm.focus
  have hun : Relinked s (if t.sel ≠ none ∧ t.sel ≠ focusTarget c t
      then unfocus t.sel t else t) := by
    split
    · exact h.redraw (Redrawn.refl t).unfocus
    · exact h
  dsimp only
  split
  · exact hun.withSelmon.detachstack.attachstack.modMon
  · exact hun.modMon

theorem relinked_withdraw (c : ClientId) (s : State) : Relinked s (withdraw c s) :=
  (Redrawn.refl s).unfocus.relinked.detach.detachstack

theorem relinked_pop (c : ClientId) (s : State) : Relinked s (pop c s) := by
  unfold pop
  exact (Redrawn.refl s).modMon.relinked.detach.attach.focus.arrange

end Dwm
