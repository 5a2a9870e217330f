import Zzdwm.Dwm.Handing

/-!
# The one assignment an event makes to the settings

Whatever an event does to clients and lists, it makes at most one assignment
to the settings that views and tags own (the tag sets, the layouts, the master
count, the fractions and their copies in `pertag`), and to those of a single
monitor.  Which assignment that is, is a function of the event and the state.

* `eventSetter` — the monitor and the assignment, if there is one;
* `settings_step` — an event does exactly that, and new monitors are as
  `createmon` makes them;
* `Reachable.settings` — the invariant rule for properties of one monitor's
  settings.
-/

namespace Dwm

open Machine

variable {lost base : ClientId → Prop} {s t u : State} {c d : ClientId} {m : MonId}

/-- The assignments to the settings of a monitor. -/
inductive Setter
  | view (arg : TagSet)
  | toggleview (newtagset : TagSet)
  | setTags (t : TagSet)
  | setlayout (arg : Option Layout)
  | incnmaster (i : Int)
  | resetnmaster (arg : TagSet)
  | setmfact (arg : Rat)
  | setsmfact (arg : Rat)
  | resetmfact
  | resizemouse (x y : Int)

/-- Make an assignment. -/
def Setter.apply : Setter → Settings → Settings
  | .view arg, m => m.view arg
  | .toggleview newtagset, m => m.toggleview newtagset
  | .setTags t, m => m.setTags t
  | .setlayout arg, m => m.setlayout arg
  | .incnmaster i, m => m.incnmaster i
  | .resetnmaster arg, m => { m with nmaster := clampmaster arg.toNat }
  | .setmfact arg, m => (m.setmfact arg).getD m
  | .setsmfact arg, m => (m.setsmfact arg).getD m
  | .resetmfact, m => m.resetmfact
  | .resizemouse x y, m => m.resizemouse x y

/-- The layout arranges windows and a client that it arranges is selected. -/
def State.seltiled (s : State) : Bool :=
  s.arranges && s.sel.any fun c => !(s.client c).isfloating

/-- `view` returns early if it is in that view already. -/
def viewSetter (arg : TagSet) (m : Settings) : Option Setter :=
  if arg &&& tagmask = m.tags then none else some (.view arg)

/-- `swaptag` needs a single tag in view, and another one to turn to. -/
def swapSetter (arg : TagSet) (m : Settings) : Option Setter :=
  let newtag := arg &&& tagmask
  if newtag = m.tags ∨ m.tags = 0#32 ∨ m.tags &&& (m.tags - 1#32) ≠ 0#32 then none
  else some (.setTags newtag)

/-- `tag` views the tags of the client, unless they are all there are. -/
def tagSetter (arg : TagSet) (m : Settings) : Option Setter :=
  if arg &&& tagmask ≠ 0#32 ∧ viewontag ∧ arg &&& tagmask ≠ tagmask then viewSetter arg m else none

/-- The assignment that a command of the keyboard makes to the settings of the
selected monitor. -/
def keySetter (k : Binding) (s : State) : Option Setter :=
  let arg := k.2
  match k.1 with
  | .view => viewSetter arg.tags (s.settings s.selmon)
  | .toggleview =>
      let t := s.selM.tags ^^^ (arg.tags &&& tagmask)
      if t ≠ 0#32 then some (.toggleview t) else none
  | .rotatetags =>
      let t := rotated arg.int s.selM.tags
      if t ≠ 0#32 then some (.setTags t) else none
  | .shiftviewclients => (shifted arg.int s).bind fun t => viewSetter t (s.settings s.selmon)
  | .swaptag => swapSetter arg.tags (s.settings s.selmon)
  | .tag => if s.sel.isSome then tagSetter arg.tags (s.settings s.selmon) else none
  | .setlayout => some (.setlayout arg.layout)
  | .cyclelayout => some (.setlayout (some (nextlayout arg.int s.selM.layout)))
  | .incnmaster => if s.seltiled then some (.incnmaster arg.int) else none
  | .resetnmaster => some (.resetnmaster arg.tags)
  | .setmfact => if s.seltiled then some (.setmfact arg.fact) else none
  | .setsmfact => if s.seltiled then some (.setsmfact arg.fact) else none
  | .resetmfact => if s.arranges then some .resetmfact else none
  | _ => none

/-- The assignment that a command of a button makes. -/
def buttonSetter (d : Drag) (k : Binding) (s : State) : Option Setter :=
  match k.1 with
  | .moveorplace => none
  | .resizemouse =>
      if s.seltiled && d.grabbed && !(s.sel.any fun c => (s.client c).isfullscreen) then
        some (.resizemouse d.releaseroot.1 d.releaseroot.2)
      else none
  | _ => keySetter k s

/-- The monitor that an event assigns to, and the assignment. -/
def eventSetter (e : Event) (s : State) : Option (MonId × Setter) :=
  match e with
  | .keypress k _ => if k ∈ keys then (keySetter k s).map (s.selmon, ·) else none
  | .buttonpress t wheel (some (waits, f, a)) d =>
      let (s, click) := press t wheel s
      if (waits, f, a) ∈ buttons ∧ waits.awaits click then
        (buttonSetter d (f, buttonArg click a) s).map (s.selmon, ·)
      else none
  | .clientmessage w .netActiveWindow =>
      (s.wintoclient w).bind fun c =>
        let i := lowestTag (s.tagsOf c)
        if i < ntags then (viewSetter (tagBit i) (s.settings (s.own c))).map (s.own c, ·) else none
  | _ => none

/-- The settings of all monitors after an assignment. -/
def assigned (o : Option (MonId × Setter)) (f : MonId → Settings) : MonId → Settings :=
  match o with
  | some (m, σ) => Function.update f m (σ.apply (f m))
  | none => f

/-! ## Settings that no view or tag owns -/

/-- The settings that views and tags own are the same. -/
structure Settings.Alike (m k : Settings) : Prop where
  mfact : k.mfact = m.mfact
  smfact : k.smfact = m.smfact
  dmfact : k.dmfact = m.dmfact
  zmfact : k.zmfact = m.zmfact
  nmaster : k.nmaster = m.nmaster
  seltags : k.seltags = m.seltags
  sellt : k.sellt = m.sellt
  tagset : k.tagset = m.tagset
  lt : k.lt = m.lt
  pertag : k.pertag = m.pertag

theorem Settings.Alike.refl (m : Settings) : m.Alike m :=
  ⟨rfl, rfl, rfl, rfl, rfl, rfl, rfl, rfl, rfl, rfl⟩

theorem Settings.Alike.trans {m k l : Settings} (h : m.Alike k) (h' : k.Alike l) : m.Alike l :=
  ⟨h'.mfact.trans h.mfact, h'.smfact.trans h.smfact, h'.dmfact.trans h.dmfact,
    h'.zmfact.trans h.zmfact, h'.nmaster.trans h.nmaster, h'.seltags.trans h.seltags,
    h'.sellt.trans h.sellt, h'.tagset.trans h.tagset, h'.lt.trans h.lt,
    h'.pertag.trans h.pertag⟩

theorem Settings.Alike.updatebarpos (bh : Int) {m k : Settings} (h : m.Alike k) :
    m.Alike (k.updatebarpos bh) := by
  refine h.trans ?_
  unfold Settings.updatebarpos
  split <;> exact ⟨rfl, rfl, rfl, rfl, rfl, rfl, rfl, rfl, rfl, rfl⟩

theorem Settings.alike_fit (bh i : Int) (r : Screen) (m : Settings) : m.Alike (m.fit bh i r) :=
  Settings.Alike.updatebarpos bh ⟨rfl, rfl, rfl, rfl, rfl, rfl, rfl, rfl, rfl, rfl⟩

/-- Every monitor has the settings that `f` tells, as far as views and tags own
them, or those of a new monitor. -/
def Carries (f : MonId → Settings) (t : State) : Prop :=
  ∀ m, (f m).Alike (t.settings m) ∨ createmon.toSettings.Alike (t.settings m)

theorem carries_of_eq {f : MonId → Settings} (h : t.settings = f) : Carries f t :=
  fun m => Or.inl (by rw [h]; exact .refl _)

theorem Carries.trans {f : MonId → Settings} (h : Carries f t) (h' : Carries t.settings u) :
    Carries f u := by
  intro m
  rcases h' m with hu | hu
  · rcases h m with ht | ht
    · exact Or.inl (ht.trans hu)
    · exact Or.inr (ht.trans hu)
  · exact Or.inr hu

theorem Handed.carries (h : Handed s t) : Carries s.settings t := carries_of_eq h.settings

theorem Redrawn.carries (h : Redrawn s t) : Carries s.settings t := carries_of_eq h.settings

theorem Relinked.carries (h : Relinked s t) : Carries s.settings t := carries_of_eq h.settings

/-- Assigning to settings that no view or tag owns. -/
theorem carries_modSettings {f : Settings → Settings} (m : MonId) (s : State)
    (hf : (s.settings m).Alike (f (s.settings m))) : Carries s.settings (s.modSettings m f) := by
  intro k
  left
  rw [settings_modSettings]
  by_cases hk : k = m
  · subst hk
    rw [Function.update_self]
    exact hf
  · rw [Function.update_of_ne hk]
    exact .refl _

/-! ## Commands -/

/-- An assignment to the settings of the selected monitor, with a refocus. -/
theorem settings_refocus (f : Settings → Settings) (s : State) :
    (arrangesel (focus none (s.modSettings s.selmon f))).settings =
      Function.update s.settings s.selmon (f (s.settings s.selmon)) := by
  rw [((relinked_focus none _).redraw (Redrawn.refl _).arrangesel).settings, settings_modSettings]

/-- An assignment to the settings of the selected monitor, without one. -/
theorem settings_assign (f : Settings → Settings) (s : State) :
    (arrangesel (s.modSettings s.selmon f)).settings =
      Function.update s.settings s.selmon (f (s.settings s.selmon)) := by
  rw [(Redrawn.refl _).arrangesel.settings, settings_modSettings]

theorem settings_view (a : TagSet) (s : State) :
    (view a s).settings =
      assigned ((viewSetter a (s.settings s.selmon)).map (s.selmon, ·)) s.settings := by
  unfold view viewSetter
  change (if a &&& tagmask = (s.settings s.selmon).tags then _ else _ : State).settings = _
  split
  · rfl
  · exact settings_refocus _ s

theorem settings_setlayout (a : Option Layout) (s : State) :
    (setlayout a s).settings = assigned (some (s.selmon, .setlayout a)) s.settings := by
  unfold setlayout
  dsimp only
  split
  · exact settings_assign _ s
  · exact settings_modSettings _ _ s

/-- What the source reads through a short circuit, where it does not fault. -/
theorem selfloats_post (s : State) : Post s.selfloats fun b => b = !s.seltiled := by
  unfold State.selfloats State.seltiled State.theSel
  cases s.arranges with
  | false => exact (post_ok _).mpr rfl
  | true =>
      cases s.sel with
      | none => exact post_error _
      | some c => exact (post_ok _).mpr (Bool.not_not _).symm

theorem carries_setfact {move : ClientId → State → State} {set : Settings → Option Settings}
    (s : State) (hmove : ∀ c, Redrawn s (move c s)) (σ : Setter)
    (hσ : σ.apply (s.settings s.selmon) = (set (s.settings s.selmon)).getD (s.settings s.selmon)) :
    Post (setfact move set s) (Carries
      (assigned ((if s.seltiled then some σ else none).map (s.selmon, ·)) s.settings)) := by
  unfold setfact
  refine (selfloats_post s).bind fun b hb => ?_
  split
  · have hno : s.seltiled = false := by
      simpa [‹b = true›] using hb
    rw [if_neg (by simp [hno])]
    exact (post_any _).bind fun c _ => (post_pure _).mpr ((hmove c).arrangesel.carries)
  · have hyes : s.seltiled = true := by
      simpa [‹¬ b = true›] using hb
    rw [if_pos hyes]
    have hcase : ∀ k, set (s.settings s.selmon) = k →
        assigned ((some σ).map (s.selmon, ·)) s.settings =
          Function.update s.settings s.selmon (k.getD (s.settings s.selmon)) := fun k hk => by
      rw [← hk, ← hσ]
      rfl
    split
    · rename_i k hk
      refine (post_pure _).mpr (carries_of_eq ?_)
      rw [hcase _ hk, settings_assign]
      rfl
    · rename_i hk
      refine (post_pure _).mpr (carries_of_eq ?_)
      rw [hcase _ hk, Option.getD_none, Function.update_eq_self]

/-- Nothing is assigned that a view or a tag owns. -/
theorem carries_misc {f : Settings → Settings} (s : State)
    (hf : (s.settings s.selmon).Alike (f (s.settings s.selmon))) :
    Carries s.settings (arrangesel (s.modSettings s.selmon f)) :=
  (carries_modSettings s.selmon s hf).trans (Redrawn.refl _).arrangesel.carries

theorem client_swapLoop_settings (cs : List ClientId) (f : Client → Client) (s : State) :
    (cs.foldl (fun s c => s.modClient c f) s).settings = s.settings ∧
      (cs.foldl (fun s c => s.modClient c f) s).selmon = s.selmon := by
  induction cs generalizing s with
  | nil => exact ⟨rfl, rfl⟩
  | cons c cs ih => exact ih (s.modClient c f)

theorem settings_swaptag (a : TagSet) (s : State) :
    (swaptag a s).settings =
      assigned ((swapSetter a (s.settings s.selmon)).map (s.selmon, ·)) s.settings := by
  unfold swaptag swapSetter
  dsimp only
  change (if a &&& tagmask = (s.settings s.selmon).tags ∨ (s.settings s.selmon).tags = 0#32 ∨
    (s.settings s.selmon).tags &&& ((s.settings s.selmon).tags - 1#32) ≠ 0#32 then _
    else _ : State).settings = _
  split
  · rfl
  · obtain ⟨hset, hsel⟩ := client_swapLoop_settings s.selM.clients (fun k =>
      { k with tags := swapped s.selM.tags (a &&& tagmask) k.tags }) s
    rw [settings_refocus, hset, hsel]
    rfl

theorem Filed.settings_tag (a : TagSet) (h : Filed lost base s) :
    Post (tag a s) fun t =>
      t.settings = assigned ((keySetter (.tag, .ui a) s).map (s.selmon, ·)) s.settings := by
  change Post (tag a s) fun t => t.settings = assigned
    ((if s.sel.isSome then tagSetter a (s.settings s.selmon) else none).map (s.selmon, ·)) s.settings
  unfold tag tagSetter
  cases hsel : s.sel with
  | none => exact (post_ok _).mpr rfl
  | some c =>
      rw [if_pos (show (some c).isSome = true from rfl)]
      dsimp only
      by_cases ha : a &&& tagmask ≠ 0#32
      · rw [if_pos ha]
        have hret := (h.unmoved ((Unmoved.refl s).modClient (c := c)
          (f := fun k => { k with tags := a &&& tagmask })))
        have hselmon := hret.selmon_focusNone
        have hset := (relinked_focus none
          (s.modClient c fun k => { k with tags := a &&& tagmask })).settings
        generalize focus none (s.modClient c fun k => { k with tags := a &&& tagmask }) = u
          at hselmon hset ⊢
        have hset' : (arrangesel u).settings = s.settings := hset
        have hselmon' : (arrangesel u).selmon = s.selmon := hselmon
        refine (post_any _).bind fun _ _ => (post_pure _).mpr ?_
        by_cases hv : viewontag = true ∧ a &&& tagmask ≠ tagmask
        · rw [if_pos hv, if_pos ⟨ha, hv⟩, settings_view, hselmon', hset']
        · rw [if_neg hv, if_neg fun h' => hv h'.2]
          exact hset'
      · rw [if_neg ha, if_neg fun h' => ha h'.1]
        exact (post_ok _).mpr rfl

/-- **Commands.**  A command makes the assignment that `keySetter` tells. -/
theorem Filed.runKey_carries (cls : Window → Option String) (k : Binding)
    (h : Filed lost base s) :
    Post (runKey cls k s) (Carries (assigned ((keySetter k s).map (s.selmon, ·)) s.settings)) := by
  obtain ⟨f, a⟩ := k
  cases f with
  | spawn | killclient | quit | incfloat | moveorplace | resizemouse =>
      exact (post_ok _).mpr (Redrawn.refl s).carries
  | togglebar =>
      exact (post_ok _).mpr (carries_misc s
        (Settings.Alike.updatebarpos _ ⟨rfl, rfl, rfl, rfl, rfl, rfl, rfl, rfl, rfl, rfl⟩))
  | incnmaster =>
      refine (selfloats_post s).bind fun b hb => ?_
      unfold keySetter
      dsimp only
      split
      · have hno : s.seltiled = false := by
          simpa [‹b = true›] using hb
        rw [hno]
        exact (post_pure _).mpr (Redrawn.refl s).carries
      · have hyes : s.seltiled = true := by
          simpa [‹¬ b = true›] using hb
        rw [hyes]
        exact (post_pure _).mpr (carries_of_eq (settings_assign _ s))
  | resetnmaster => exact (post_ok _).mpr (carries_of_eq (settings_assign _ s))
  | zoom => exact (post_ok _).mpr (relinked_zoom s).carries
  | view => exact (post_ok _).mpr (carries_of_eq (settings_view _ s))
  | setlayout => exact (post_ok _).mpr (carries_of_eq (settings_setlayout _ s))
  | togglefloating => exact (post_ok _).mpr (redrawn_togglefloating s).carries
  | focusmaster => exact (relinked_focusmaster s).mono fun _ => Relinked.carries
  | resetmfact =>
      refine (post_ok _).mpr ?_
      unfold resetmfact keySetter
      dsimp only
      split
      · exact carries_of_eq (settings_assign _ s)
      · exact (Redrawn.refl s).carries
  | togglefullscr => exact (post_ok _).mpr (redrawn_togglefullscr s).carries
  | togglesticky => exact (post_ok _).mpr (handed_togglesticky s).carries
  | swapfocus => exact (relinked_swapfocus s).mono fun _ => Relinked.carries
  | tag => exact (h.settings_tag a.tags).mono fun _ => carries_of_eq
  | setmfact =>
      exact carries_setfact s (fun c => .ite (redrawn_moveclient _ s) (.refl s))
        (.setmfact a.fact) rfl
  | setgaps =>
      refine (post_ok _).mpr (carries_misc s ?_)
      repeat' split
      all_goals exact ⟨rfl, rfl, rfl, rfl, rfl, rfl, rfl, rfl, rfl, rfl⟩
  | focusmon => exact (post_ok _).mpr (relinked_focusmon _ s).carries
  | tagmon => exact (post_ok _).mpr (handed_tagmon _ s).carries
  | tagswapmon => exact (post_ok _).mpr (handed_tagswapmon _ s).carries
  | rotatetags =>
      refine (post_ok _).mpr (carries_of_eq ?_)
      unfold rotatetags keySetter
      dsimp only
      split
      · exact settings_refocus _ s
      · rfl
  | rotatestack => exact (post_ok _).mpr (relinked_rotatestack _ s).carries
  | cyclelayout => exact (post_ok _).mpr (carries_of_eq (settings_setlayout _ s))
  | shiftviewclients =>
      change Post (shiftviewclients _ s) _
      unfold shiftviewclients keySetter
      dsimp only
      split
      · rename_i t ht
        refine (post_ok _).mpr (carries_of_eq ?_)
        rw [ht]
        exact settings_view t s
      · exact post_error _
  | focusstack => exact (relinked_focusstack _ s).mono fun _ => Relinked.carries
  | setsmfact =>
      exact carries_setfact s (fun c => .ite (redrawn_moveclient _ s) (.refl s))
        (.setsmfact a.fact) rfl
  | fmaximize => exact (redrawn_fmaximize a.tags s).mono fun _ => Redrawn.carries
  | setwfact => exact (redrawn_setwfact a.fact s).mono fun _ => Redrawn.carries
  | sethfact => exact (redrawn_sethfact a.fact s).mono fun _ => Redrawn.carries
  | fsnap => exact (redrawn_fsnap a.tags s).mono fun _ => Redrawn.carries
  | fdeck => exact (post_ok _).mpr (redrawn_fdeck _ s).carries
  | focussame => exact (relinked_focussame cls _ s).mono fun _ => Relinked.carries
  | toggleview =>
      refine (post_ok _).mpr (carries_of_eq ?_)
      unfold toggleview keySetter
      dsimp only
      split
      · exact settings_refocus _ s
      · rfl
  | swaptag => exact (post_ok _).mpr (carries_of_eq (settings_swaptag _ s))
  | toggletag =>
      refine (post_ok _).mpr (carries_of_eq ?_)
      unfold toggletag
      split
      · dsimp only
        split
        · exact ((relinked_focus none _).redraw (Redrawn.refl _).arrangesel).settings
        · rfl
      · rfl

/-! ## The resize drag

A drag that resizes a client does not touch its flags, whatever windows are
mapped meanwhile, so it ends as it began: on a floating or an arranged client. -/

theorem client_detachstack (c : ClientId) (s : State) : (detachstack c s).client = s.client := by
  unfold detachstack
  dsimp only
  split <;> rfl

theorem client_focus (o : Option ClientId) (s : State) : (focus o s).client = s.client := by
  have hun : (if s.sel ≠ none ∧ s.sel ≠ focusTarget o s then unfocus s.sel s else s).client =
      s.client := by
    split
    · cases s.sel <;> rfl
    · rfl
  unfold focus
  dsimp only
  generalize (if s.sel ≠ none ∧ s.sel ≠ focusTarget o s then unfocus s.sel s else s) = u at hun ⊢
  cases focusTarget o s with
  | none => exact hun
  | some c => exact (client_detachstack c _).trans hun

theorem client_enroll (c : ClientId) (s : State) : (enroll c s).client = s.client := by
  have hx : (attachx attachmode c s).client = s.client := by
    obtain ⟨g, heq, -⟩ := attachx_eq attachmode c s
    rw [heq]
    rfl
  rw [enroll, client_focus, ← hx]
  unfold enlist
  dsimp only
  generalize attachx attachmode c s = u
  change (if _ then _ else _ : State).client = _
  split
  · cases (attachstack c u).sel <;> rfl
  · rfl

theorem client_modClient_of_ne {f : Client → Client} (hd : d ≠ c) (s : State) :
    (s.modClient c f).client d = s.client d := Function.update_of_ne hd ..

theorem client_setfullscreen_of_ne (hd : d ≠ c) (b : Bool) (s : State) :
    (setfullscreen c b s).client d = s.client d := by
  unfold setfullscreen
  split
  · exact Function.update_of_ne hd ..
  · split
    · exact Function.update_of_ne hd ..
    · rfl

theorem client_setsticky_of_ne (hd : d ≠ c) (b : Bool) (s : State) :
    (setsticky c b s).client d = s.client d := by
  unfold setsticky
  split
  · exact client_modClient_of_ne hd s
  · split
    · exact Function.update_of_ne hd ..
    · rfl

theorem client_updatewindowtype_of_ne (hd : d ≠ c) (n : NetState) (b : Bool) (s : State) :
    (updatewindowtype c n b s).client d = s.client d := by
  have hdialog : ∀ {u : State}, u.client d = s.client d → (if b then
      u.modClient c fun k => { k with isfloating := true } else u).client d = s.client d := by
    intro u hu
    split
    · exact (client_modClient_of_ne hd _).trans hu
    · exact hu
  cases n with
  | fullscreen => exact hdialog (client_setfullscreen_of_ne hd true s)
  | sticky => exact hdialog (client_setsticky_of_ne hd true s)
  | other => exact hdialog rfl

theorem client_updatemotifhints (c : ClientId) (b : Option Bool) (s : State) :
    (updatemotifhints c b s).client = s.client := by
  unfold updatemotifhints
  split <;> rfl

theorem client_dress_of_ne (hd : d ≠ c) (i : WinInfo) (s : State) :
    (dress c i s).client d = s.client d := by
  unfold dress
  dsimp only
  rw [client_modClient_of_ne hd]
  change (updatemotifhints _ _ _).client d = _
  rw [client_updatemotifhints, client_modClient_of_ne hd, client_updatewindowtype_of_ne hd]
  rfl

theorem client_adopt_of_ne (hd : d ≠ c) (o : Option ClientId) (i : WinInfo) (s : State) :
    (adopt c o i s).client d = s.client d := by
  cases o with
  | some p => exact Function.update_of_ne hd ..
  | none =>
      change (applyrules c i s).client d = _
      unfold applyrules
      rw [client_modClient_of_ne hd]
      have hfold : ∀ (rs : List Rule) (u : State), (rs.foldl (fun s r =>
          let m := s.mons.find? fun m => (s.monitor m).num = r.monitor
          s.modClient c fun k => { k with
            isfloating := r.isfloating, tags := k.tags ||| r.tags, mon := m.getD k.mon }) u).client d
          = u.client d := by
        intro rs
        induction rs with
        | nil => exact fun _ => rfl
        | cons r rs ih => exact fun u => (ih _).trans (client_modClient_of_ne hd u)
      rw [hfold, client_modClient_of_ne hd]

/-- Managing a window does not touch the other clients. -/
theorem client_manage_of_ne (hd : d ≠ c) (w : Window) (i : WinInfo) (s : State) :
    (manage c w i s).client d = s.client d := by
  unfold manage
  split
  · rfl
  · rw [client_enroll, client_dress_of_ne hd, client_adopt_of_ne hd]
    exact Function.update_of_ne hd ..

theorem client_configurerequest (w : Window) (r : ConfRequest) (s : State) :
    (configurerequest w r s).client = s.client := by
  unfold configurerequest
  split
  · split
    · rfl
    · split <;> rfl
  · rfl

/-- What a drag that resizes `c` keeps, up to its end. -/
structure Resizing (lost base : ClientId → Prop) (c : ClientId) (s t : State) : Prop where
  drag : Dragging lost base c t
  handed : Handed s t
  client : t.client c = s.client c
  selmon : t.selmon = s.selmon

theorem Resizing.maprequest (e : ClientId) (w : Window) (i : WinInfo)
    (h : Resizing lost base c s t) : Post (maprequest e w i t) (Resizing lost base c s) := by
  intro u hu
  refine ⟨h.drag.maprequest e w i u hu, h.handed.trans (h.drag.1.handed_maprequest e w i u hu),
    ?_, ?_⟩
  all_goals
    unfold Dwm.maprequest at hu
    split at hu
    · cases hu
    · rename_i hlive
      have hce : c ≠ e := by
        rintro rfl
        exact hlive h.drag.2.1
      split at hu
      · cases hu
        first | exact h.client | exact h.selmon
      · cases hu
        first
          | exact (client_manage_of_ne hce w i t).trans h.client
          | exact (h.drag.1.manage w i (by simpa using hlive)).2.trans h.selmon

/-- An assignment to the settings of the selected monitor, if there is one,
with tags handed on before and after it. -/
def Assigning (o : Option Setter) (s t : State) : Prop :=
  match o with
  | none => Handed s t
  | some σ => ∃ a, Handed s a ∧ a.selmon = s.selmon ∧
      Handed (arrangesel (a.modSettings a.selmon σ.apply)) t

theorem Assigning.carries {o : Option Setter} (h : Assigning o s t) :
    Carries (assigned (o.map (s.selmon, ·)) s.settings) t := by
  cases o with
  | none => exact Handed.carries h
  | some σ =>
      obtain ⟨a, ha, hsel, ht⟩ := h
      refine carries_of_eq ?_
      rw [ht.settings, settings_assign, ha.settings, hsel]
      rfl

/-- **The resize drag.**  It sets a fraction if it is on a tiled client. -/
theorem Filed.resizemouse_assigning (d : Drag) (h : Filed lost base s) :
    Post (resizemouse d s) (Assigning (buttonSetter d (.resizemouse, .i 0) s) s) := by
  change Post _ (Assigning (if s.seltiled && d.grabbed &&
    !(s.sel.any fun c => (s.client c).isfullscreen) then
      some (.resizemouse d.releaseroot.1 d.releaseroot.2) else none) s)
  unfold resizemouse
  cases hc : s.sel with
  | none =>
      have hno : s.seltiled = false := by simp [State.seltiled, hc]
      rw [hno]
      exact (post_ok _).mpr (Handed.refl s)
  | some c =>
      obtain ⟨hhere, hown⟩ := h.here_of_sel hc
      have htiled : s.seltiled = !((s.client c).isfloating || !(s.monOf c).layout.arranges) := by
        have hmon : s.monOf c = s.selM := congrArg s.monitor hown
        rw [State.seltiled, hc, hmon, Option.any_some, Bool.not_or, Bool.not_not, Bool.and_comm]
        rfl
      rw [htiled, Option.any_some]
      dsimp only
      split
      · rename_i hstop
        rw [if_neg fun hgo => ?_]
        · exact (post_ok _).mpr (Handed.refl s)
        · simp only [Bool.and_eq_true, Bool.not_eq_true'] at hgo
          simp [hgo.1.2, hgo.2] at hstop
      · rename_i hstop
        simp only [Bool.or_eq_true, not_or, Bool.not_eq_true, Bool.not_eq_false'] at hstop
        rw [hstop.1, hstop.2, Bool.and_true, Bool.not_false, Bool.and_true]
        generalize hfree : ((s.client c).isfloating || !(s.monOf c).layout.arranges) = free
        split
        · exact (post_ok _).mpr (Handed.refl s)
        · rename_i free _ _ _
          refine (dragLoop_post (Resizing lost base c s) ?_ ?_ ?_ d.events
            ⟨h.dragging hhere, .refl s, rfl, rfl⟩).bind ?_
          · intro a w r ha
            have hr := redrawn_configurerequest w r a
            exact ⟨ha.drag.redrawn hr, ha.handed.trans hr.handed,
              (congrFun (client_configurerequest w r a) c).trans ha.client,
              hr.selmon.trans ha.selmon⟩
          · exact fun a e w i ha => ha.maprequest e w i
          · intro a x y ha
            split
            · exact ⟨ha.drag.redrawn (Redrawn.refl a).resize,
                ha.handed.trans (Redrawn.refl a).resize.handed, ha.client, ha.selmon⟩
            · exact ha
          · intro a ha
            refine (post_pure _).mpr ?_
            have hfree' : ((a.client c).isfloating || !(a.monOf c).layout.arranges) = free := by
              have hlayout : (a.monOf c).layout = (s.monOf c).layout := by
                change (a.settings (a.client c).mon).layout = (s.settings (s.client c).mon).layout
                rw [ha.client, ha.handed.settings]
              rw [← hfree, ha.client, hlayout]
            rw [hfree']
            cases free with
            | true => exact ha.handed.trans (handed_followmon c a)
            | false => exact ⟨a, ha.handed, ha.selmon, handed_followmon c _⟩

/-! ## Monitors that come and go -/

theorem carries_addmon (s : State) : Carries s.settings (addmon s) := by
  intro m
  by_cases hm : m = s.nextmon
  · right
    subst hm
    have heq : (addmon s).settings s.nextmon = createmon.toSettings := by
      simp [State.settings, addmon]
    rw [heq]
    exact .refl _
  · left
    have heq : (addmon s).settings m = s.settings m := by
      simp [State.settings, addmon, hm]
    rw [heq]
    exact .refl _

theorem carries_addmons {A : Type} (l : List A) (s : State) :
    Carries s.settings (l.foldl (fun s _ => addmon s) s) := by
  induction l generalizing s with
  | nil => exact (Redrawn.refl s).carries
  | cons a l ih => exact (carries_addmon s).trans (ih _)

theorem carries_fitAll (n i : Nat) (ms : List MonId) (rs : List Screen) (s : State) (b : Bool) :
    Carries s.settings (fitAll n i ms rs (s, b)).1 := by
  induction ms generalizing i rs s b with
  | nil => cases rs <;> exact (Redrawn.refl s).carries
  | cons m ms ih =>
      cases rs with
      | nil => exact (Redrawn.refl s).carries
      | cons r rs =>
          rw [fitAll]
          split
          · exact (carries_modSettings m s (Settings.alike_fit _ _ _ _)).trans (ih _ _ _ _)
          · exact ih _ _ _ _

theorem settings_removemon (m : MonId) (s : State) : (removemon m s).settings = s.settings := by
  have hall : ∀ (cs : List ClientId) (u : State),
      (cs.foldl (fun s c => rehome m c s) u).settings = u.settings := by
    intro cs
    induction cs with
    | nil => exact fun _ => rfl
    | cons c cs ih => exact fun u => (ih _).trans (rehome_keeps m c u).2.2.2
  refine Eq.trans ?_ (hall (s.monitor m).clients s)
  unfold removemon
  dsimp only
  split <;> rfl

theorem settings_removemons (n : Nat) (b : Bool) (s : State) :
    (removemons n (s, b)).1.settings = s.settings := by
  induction n generalizing s b with
  | zero => rfl
  | succ n ih => exact (ih _ _).trans (settings_removemon _ s)

theorem carries_refit (info : List Screen) (s : State) :
    Carries s.settings (refit info s).1 := by
  unfold refit
  dsimp only
  have hadd := carries_addmons (List.range ((uniqueScreens info).length - s.mons.length)) s
  generalize (List.range ((uniqueScreens info).length - s.mons.length)).foldl
    (fun s _ => addmon s) s = u at hadd ⊢
  have hfit := hadd.trans
    (carries_fitAll s.mons.length 0 u.mons (uniqueScreens info) u false)
  generalize fitAll s.mons.length 0 u.mons (uniqueScreens info) (u, false) = r at hfit ⊢
  exact hfit.trans (carries_of_eq (settings_removemons _ r.2 r.1))

theorem carries_refitOne (s : State) : Carries s.settings (refitOne s).1 := by
  have hadd : Carries s.settings (if s.mons = [] then addmon s else s) := by
    split
    · exact carries_addmon s
    · exact (Redrawn.refl s).carries
  refine hadd.trans ?_
  unfold refitOne
  generalize (if s.mons = [] then addmon s else s) = u
  unfold fitFirst
  dsimp only
  split
  · dsimp only
    refine carries_modSettings (u.mons.headD u.selmon) u ?_
    exact Settings.Alike.updatebarpos _ ⟨rfl, rfl, rfl, rfl, rfl, rfl, rfl, rfl, rfl, rfl⟩
  · exact (Redrawn.refl u).carries

theorem carries_refitScreens (l : Layouts) (s : State) :
    Carries s.settings (refitScreens l s).1 := by
  unfold refitScreens
  cases l.screens with
  | some info => exact carries_refit info s
  | none => exact carries_refitOne s

theorem carries_updategeom (l : Layouts) (s : State) :
    Post (updategeom l s) fun r => Carries s.settings r.1 := by
  unfold updategeom
  split
  · exact post_error _
  · dsimp only
    split
    · exact (post_ok _).mpr (carries_refitScreens l s)
    · exact (post_ok _).mpr (carries_refitScreens l s)

theorem carries_configurenotify (w k : Int) (l : Layouts) (s : State) :
    Post (configurenotify w k l s) (Carries s.settings) := by
  unfold configurenotify
  refine (carries_updategeom l { s with sw := w, sh := k }).bind fun r hr => ?_
  dsimp only
  split
  · exact (post_pure _).mpr (hr.trans
      ((redrawn_refillAll _ r.1).relinked.focus.arrange).carries)
  · exact (post_pure _).mpr hr

/-! ## Events -/

theorem relinked_press (x : Target) (wheel : Bool) (s : State) :
    Relinked s (press x wheel s).1 := by
  have hfocus : Relinked s (if wintomon x s ≠ s.selmon ∧ (focusonwheel ∨ !wheel) then
      focus none { unfocus s.sel s with selmon := wintomon x s } else s) := by
    split
    · exact (Redrawn.refl s).unfocus.relinked.withSelmon.focus
    · exact .refl s
  unfold press
  dsimp only
  generalize (if wintomon x s ≠ s.selmon ∧ (focusonwheel ∨ !wheel) then
      focus none { unfocus s.sel s with selmon := wintomon x s } else s) = u at hfocus ⊢
  cases x with
  | root p => exact hfocus
  | bar m part => exact hfocus
  | window w =>
      dsimp only
      split
      · dsimp only
        split
        · exact hfocus.focus
        · exact hfocus
      · exact hfocus

theorem Filed.runButton_carries (d : Drag) (k : Binding) (h : Filed lost base s) :
    Post (runButton d k s) (Carries
      (assigned ((buttonSetter d k s).map (s.selmon, ·)) s.settings)) := by
  obtain ⟨f, a⟩ := k
  have hkey := h.runKey_carries (fun _ => none) (f, a)
  cases f with
  | moveorplace =>
      change Post (moveorplace _ d s) _
      unfold moveorplace
      split
      · exact (h.handed_movemouse d).mono fun _ => Handed.carries
      · exact (h.handed_placemouse _ d).mono fun _ => Handed.carries
  | resizemouse => exact (h.resizemouse_assigning d).mono fun _ => Assigning.carries
  | _ => exact hkey

theorem Filed.buttonpress_carries (x : Target) (wheel : Bool) (b : Option (Click × Binding))
    (d : Drag) (h : Filed lost base s) :
    Post (buttonpress x wheel b d s)
      (Carries (assigned (eventSetter (.buttonpress x wheel b d) s) s.settings)) := by
  have hset := (relinked_press x wheel s).settings
  have hpress := h.press x wheel
  unfold buttonpress eventSetter
  cases b with
  | none => exact (post_ok _).mpr (carries_of_eq hset)
  | some b =>
      obtain ⟨waits, f, a⟩ := b
      dsimp only
      generalize press x wheel s = r at hset hpress ⊢
      obtain ⟨u, click⟩ := r
      dsimp only at hset hpress ⊢
      rw [← hset]
      split
      · exact hpress.runButton_carries d _
      · exact (post_ok _).mpr (Redrawn.refl u).carries

theorem carries_clientmessage (w : Window) (x : Message) (s : State) :
    Carries (assigned (eventSetter (.clientmessage w x) s) s.settings) (clientmessage w x s) := by
  unfold clientmessage
  cases hc : s.wintoclient w with
  | none =>
      have hno : eventSetter (.clientmessage w x) s = none := by
        cases x <;> simp [eventSetter, hc]
      rw [hno]
      exact (Redrawn.refl s).carries
  | some c =>
      cases x with
      | netWMState a fullscreen sticky =>
          have hfull : Handed s (if fullscreen then
              setfullscreen c (a = 1 || a = 2 && !(s.client c).isfullscreen) s else s) := by
            split
            · exact (redrawn_setfullscreen _ _ s).handed
            · exact .refl s
          dsimp only
          split
          · exact (hfull.trans (handed_setsticky _ _ _)).carries
          · exact hfull.carries
      | netActiveWindow =>
          simp only [eventSetter, hc, Option.bind_some]
          unfold activate
          change Carries _ (if lowestTag (s.tagsOf c) < ntags then _ else _)
          split
          · refine carries_of_eq ?_
            rw [(relinked_focus _ _).settings, settings_view]
            rfl
          · exact (Redrawn.refl s).carries
      | netWMDesktop data => exact carries_of_eq rfl
      | netCloseWindow => exact (Redrawn.refl s).carries
      | other => exact (Redrawn.refl s).carries

theorem handed_propertynotify (w : Window) (x : Property) (s : State) :
    Handed s (propertynotify w x s) := by
  unfold propertynotify
  split
  · cases x with
    | transientFor p =>
        dsimp only
        split
        · exact (Redrawn.refl s).modClient.arrange.handed
        · exact .refl s
    | windowType n b => exact handed_updatewindowtype _ n b s
    | motifHints b => exact (redrawn_updatemotifhints _ b s).handed
    | other => exact .refl s
  · exact .refl s

theorem handed_destroynotify (w : Window) (s : State) : Handed s (destroynotify w s) := by
  unfold destroynotify
  split
  · exact handed_unmanage _ s
  · exact .refl s

theorem handed_unmapnotify (w : Window) (b : Bool) (s : State) :
    Handed s (unmapnotify w b s) := by
  unfold unmapnotify
  split
  · exact .refl s
  · exact handed_destroynotify w s

/-- **One event.**  It makes the assignment that `eventSetter` tells, and no
other to settings that views and tags own. -/
theorem Filed.settings_step (e : Event) (h : Filed lost base s) :
    Post (step e s) (Carries (assigned (eventSetter e s) s.settings)) := by
  cases e with
  | buttonpress x wheel b d => exact h.buttonpress_carries x wheel b d
  | clientmessage w x => exact (post_ok _).mpr (carries_clientmessage w x s)
  | configurenotify w k l => exact carries_configurenotify w k l s
  | configurerequest w r => exact (post_ok _).mpr (redrawn_configurerequest w r s).carries
  | destroynotify w => exact (post_ok _).mpr (handed_destroynotify w s).carries
  | keypress k cls =>
      change Post (keypress k cls s) (Carries (assigned
        (if k ∈ keys then (keySetter k s).map (s.selmon, ·) else none) s.settings))
      unfold keypress
      split
      · exact h.runKey_carries cls k
      · exact (post_ok _).mpr (Redrawn.refl s).carries
  | maprequest c w i => exact (h.handed_maprequest c w i).mono fun _ => Handed.carries
  | propertynotify w x => exact (post_ok _).mpr (handed_propertynotify w x s).carries
  | unmapnotify w b => exact (post_ok _).mpr (handed_unmapnotify w b s).carries

/-! ## The invariant rule -/

/-- In every run, whatever the events, the clients are on their stacks. -/
theorem filed_any {ok : Event → State → Prop} (h : Reachable ok s) :
    Filed (fun _ => True) nobody s :=
  h.invariant _ (fun d => (filed_setup d).mono fun _ hs =>
    ⟨hs.inv.imp fun _ hi => ⟨fun _ _ => trivial, hi.2⟩, hs.selmon, fun _ => False.elim⟩)
    fun e _ _ hs _ => hs.step e (fun _ _ _ => trivial) fun _ _ => id

section Rule

variable {P : Settings → Prop} {f : MonId → Settings}

theorem Carries.all (hnew : P createmon.toSettings)
    (halike : ∀ {m k : Settings}, P m → m.Alike k → P k) (h : Carries f t) (hf : ∀ m, P (f m))
    (m : MonId) : P (t.settings m) := by
  rcases h m with hm | hm
  · exact halike (hf m) hm
  · exact halike hnew hm

theorem assigned_all (o : Option (MonId × Setter)) (hf : ∀ m, P (f m))
    (ho : ∀ m σ, o = some (m, σ) → P (σ.apply (f m))) (m : MonId) : P (assigned o f m) := by
  cases o with
  | none => exact hf m
  | some o =>
      obtain ⟨k, σ⟩ := o
      change P (Function.update f k (σ.apply (f k)) m)
      by_cases hm : m = k
      · subst hm
        rw [Function.update_self]
        exact ho m σ rfl
      · rw [Function.update_of_ne hm]
        exact hf m

theorem view_all (hview : ∀ i m, i < ntags → P m → P (m.view (tagBit i))) {i : Nat}
    (hi : i < ntags) (hs : ∀ m, P (s.settings m)) (m : MonId) :
    P ((view (tagBit i) s).settings m) := by
  rw [settings_view]
  refine assigned_all _ hs (fun m σ hσ => ?_) m
  unfold viewSetter at hσ
  split at hσ
  · cases hσ
  · cases hσ
    exact hview i _ hi (hs _)

theorem setdeflayouts_all (hview : ∀ i m, i < ntags → P m → P (m.view (tagBit i)))
    (hlayout : ∀ a m, P m → P (m.setlayout a)) (hs : ∀ m, P (s.settings m)) (m : MonId) :
    P ((setdeflayouts s).settings m) := by
  have htags : ∀ a ∈ taglayouts.zipIdx, a.2 < ntags := by decide
  unfold setdeflayouts
  refine view_all hview (by decide) ?_ m
  refine List.foldlRecOn (motive := fun u : State => ∀ m, P (u.settings m)) _ _ hs fun u hu a ha => ?_
  dsimp only
  split
  · intro m
    rw [settings_setlayout]
    refine assigned_all _ (view_all hview (htags a ha) hu) (fun m σ hσ => ?_) m
    cases hσ
    exact hlayout _ _ (view_all hview (htags a ha) hu _)
  · exact hu

/-- **Invariant rule for settings.**  A property of the settings that views and
tags own holds on every monitor in every state that is reached if new monitors
have it, the views and layouts of `setdeflayouts` keep it, and every assignment
that an event makes under the guard keeps it. -/
theorem Reachable.settings_invariant {ok : Event → State → Prop} (P : Settings → Prop)
    (hnew : P createmon.toSettings) (halike : ∀ {m k : Settings}, P m → m.Alike k → P k)
    (hview : ∀ i m, i < ntags → P m → P (m.view (tagBit i)))
    (hlayout : ∀ a m, P m → P (m.setlayout a))
    (hset : ∀ e s m σ, ok e s → eventSetter e s = some (m, σ) → P (s.settings m) →
      P (σ.apply (s.settings m)))
    (h : Reachable ok s) (m : MonId) : P (s.settings m) := by
  have hstart : ∀ d, Post (setup d) fun u => ∀ m, P (u.settings m) := by
    intro d
    unfold setup
    split
    · exact post_error _
    · refine (carries_updategeom _ _).bind fun r hr => (post_pure _).mpr fun m => ?_
      rw [(relinked_focus none _).settings]
      exact setdeflayouts_all hview hlayout (hr.all hnew halike fun _ => hnew) m
  refine h.invariant (fun u => ∀ m, P (u.settings m)) hstart (fun e u hreach hP hok v hv => ?_) m
  refine ((filed_any hreach).settings_step e v hv).all hnew halike
    (assigned_all _ hP fun m σ hσ => ?_)
  exact hset e u m σ hok hσ (hP m)

end Rule

end Dwm
