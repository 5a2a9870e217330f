import Zzdwm.Dwm.TagSets

/-!
# The marks of the tags

A monitor keeps a mark for each tag, the client that `focusmaster` goes back
to.  Two routines set marks, `pop` and `focusmaster`, and one clears them,
`detach`, which stops one short of the last tag.

* `Kept s t` — the marks stay, and no client goes off a `clients` list;
* `MarksListed s` — every mark is on the list of its monitor;
* `Spares c s` — the last tag of its monitor is not marked with `c`;
* `MarksListed.detach`, `MarksListed.relink` — what a splice does to the marks;
* `MarksListed.sendmon`, `MarksListed.tagswapmon`, … — the operations that take
  clients off their lists, each with the condition under which no mark is left
  behind;
* `MarksListed.updategeom` — monitors come and go.
-/

namespace Dwm

open Ownership Machine

variable {lost base : ClientId → Prop} {s t u : State} {c d r : ClientId} {m : MonId}

/-- The marks of every monitor. -/
def State.marks (s : State) (m : MonId) : Nat → Option ClientId := (s.monitor m).tagmarked

/-- The marks stay as they are, and the `clients` lists lose nothing. -/
structure Kept (s t : State) : Prop where
  mons : t.mons = s.mons
  marks : t.marks = s.marks
  clients : ∀ m c, c ∈ s.clientsOf m → c ∈ t.clientsOf m

theorem Kept.refl (s : State) : Kept s s := ⟨rfl, rfl, fun _ _ => id⟩

theorem Kept.trans (h : Kept s t) (h' : Kept t u) : Kept s u :=
  ⟨h'.mons.trans h.mons, h'.marks.trans h.marks, fun m c hc => h'.clients m c (h.clients m c hc)⟩

/-- The monitors are not touched at all. -/
theorem Kept.of_monitor (hmon : t.monitor = s.monitor) (hmons : t.mons = s.mons) : Kept s t := by
  refine ⟨hmons, ?_, fun m c hc => ?_⟩
  · funext m
    rw [State.marks, State.marks, hmon]
  · rw [State.clientsOf, State.lists, hmon]
    exact hc

theorem Kept.ite {p : Prop} [Decidable p] (ht : Kept s t) (hu : Kept s u) :
    Kept s (if p then t else u) := by
  split
  · exact ht
  · exact hu

/-- An assignment to a monitor that leaves its marks alone and its clients on
its list. -/
theorem Kept.modMon {f : Monitor → Monitor} (h : Kept s t)
    (hf : (f (t.monitor m)).tagmarked = (t.monitor m).tagmarked)
    (hc : ∀ c ∈ (t.monitor m).clients, c ∈ (f (t.monitor m)).clients) :
    Kept s (t.modMon m f) := by
  refine h.trans ⟨rfl, ?_, fun k c hck => ?_⟩
  · funext k
    by_cases hk : k = m
    · subst hk
      simpa [State.marks, State.modMon] using hf
    · simp [State.marks, State.modMon, hk]
  · rw [State.clientsOf, lists_modMon]
    split
    · rename_i hk
      subst hk
      exact hc c hck
    · exact hck

theorem Kept.modSettings {f : Settings → Settings} (h : Kept s t) : Kept s (t.modSettings m f) :=
  h.modMon rfl fun _ => id

theorem Kept.modClient {f : Client → Client} (h : Kept s t) : Kept s (t.modClient c f) :=
  h.trans (.of_monitor rfl rfl)

theorem Kept.modGeom {f : Geom → Geom} (h : Kept s t) : Kept s (t.modGeom c f) :=
  h.trans (.of_monitor rfl rfl)

theorem Kept.arrange {o : Option MonId} (h : Kept s t) : Kept s (arrange o t) :=
  h.trans (.of_monitor rfl rfl)

theorem Kept.arrangesel (h : Kept s t) : Kept s (arrangesel t) := h.arrange

theorem Kept.rearrange (h : Kept s t) : Kept s (rearrange m t) := h.trans (.of_monitor rfl rfl)

theorem Kept.resize {x : Rect} {i : Bool} (h : Kept s t) : Kept s (t.resize c x i) :=
  h.trans (.of_monitor rfl rfl)

theorem Kept.resizeclient {x : Rect} (h : Kept s t) : Kept s (t.resizeclient c x) :=
  h.trans (.of_monitor rfl rfl)

theorem Kept.withSelmon (h : Kept s t) : Kept s { t with selmon := m } :=
  h.trans (.of_monitor rfl rfl)

theorem Kept.unfocus {o : Option ClientId} (h : Kept s t) : Kept s (unfocus o t) := by
  cases o <;> exact h.trans (.of_monitor rfl rfl)

theorem Kept.detachstack (h : Kept s t) : Kept s (detachstack c t) := by
  unfold Dwm.detachstack
  dsimp only
  split
  · exact (h.modMon rfl fun _ => id).modMon rfl fun _ => id
  · exact h.modMon rfl fun _ => id

theorem Kept.attachstack (h : Kept s t) : Kept s (attachstack c t) := h.modMon rfl fun _ => id

theorem Kept.enqueuestack (h : Kept s t) : Kept s (enqueuestack c t) := h.modMon rfl fun _ => id

theorem Kept.linkClient {f : List ClientId → List ClientId} (h : Kept s t)
    (hf : ∀ d ∈ t.clientsOf (t.own c), d ∈ f (t.clientsOf (t.own c))) :
    Kept s (linkClient f c t) := h.modMon rfl hf

theorem Kept.attach (h : Kept s t) : Kept s (attach c t) :=
  h.modMon rfl fun _ => List.mem_cons_of_mem c

theorem Kept.attachx {n : Nat} (h : Kept s t) : Kept s (attachx n c t) := by
  obtain ⟨f, heq, hf⟩ := attachx_eq n c t
  rw [heq]
  exact h.linkClient fun d hd => hf.mem_iff.mpr (List.mem_cons_of_mem c hd)

theorem Kept.focus {o : Option ClientId} (h : Kept s t) : Kept s (focus o t) := by
  unfold Dwm.focus
  have hun : Kept s (if t.sel ≠ none ∧ t.sel ≠ focusTarget o t then Dwm.unfocus t.sel t else t) :=
    .ite h.unfocus h
  dsimp only
  split
  · exact hun.withSelmon.detachstack.attachstack.modMon rfl fun _ => id
  · exact hun.modMon rfl fun _ => id

/-! ## Routines that set no mark -/

theorem kept_moveclient (x : Rect) (s : State) : Kept s (moveclient x s) := by
  unfold moveclient
  split
  · exact .ite (.refl s) (.ite (Kept.refl s).modGeom.resize (.refl s))
  · exact .refl s

theorem kept_togglefloating (s : State) : Kept s (togglefloating s) := by
  unfold togglefloating
  split
  · exact .ite (.refl s) (Kept.ite (Kept.refl s).modClient.resize
      (Kept.refl s).modClient).modGeom.arrangesel
  · exact .refl s

theorem kept_maximize (x : Rect) (s : State) : Kept s (maximize x s) := by
  unfold maximize
  split
  · refine .ite (.refl s) (.ite ?_ ?_)
    · exact (Kept.ite (Kept.refl s).modClient
        (kept_togglefloating s).modClient).modGeom.resize.modClient
    · exact (Kept.ite ((Kept.refl s).resize.trans (kept_togglefloating _))
        (Kept.refl s).resize).modClient
  · exact .refl s

theorem kept_setfullscreen (c : ClientId) (b : Bool) (s : State) :
    Kept s (setfullscreen c b s) := by
  unfold setfullscreen
  exact .ite (Kept.refl s).modClient.modGeom.resizeclient
    (.ite (Kept.refl s).modClient.modGeom.resizeclient.arrange (.refl s))

theorem kept_setsticky (c : ClientId) (b : Bool) (s : State) : Kept s (setsticky c b s) := by
  unfold setsticky
  exact .ite (Kept.refl s).modClient (.ite (Kept.refl s).modClient.arrange (.refl s))

theorem kept_updatewindowtype (c : ClientId) (n : NetState) (b : Bool) (s : State) :
    Kept s (updatewindowtype c n b s) := by
  have hdialog : ∀ {u : State}, Kept s u → Kept s (if b then
      u.modClient c fun k => { k with isfloating := true } else u) :=
    fun hu => .ite hu.modClient hu
  cases n with
  | fullscreen => exact hdialog (kept_setfullscreen c true s)
  | sticky => exact hdialog (kept_setsticky c true s)
  | other => exact hdialog (.refl s)

theorem kept_updatemotifhints (c : ClientId) (b : Option Bool) (s : State) :
    Kept s (updatemotifhints c b s) := by
  unfold updatemotifhints
  split
  · exact (Kept.refl s).modGeom.resize
  · exact .refl s

theorem kept_configurerequest (w : Window) (x : ConfRequest) (s : State) :
    Kept s (configurerequest w x s) := by
  unfold configurerequest
  split
  · split
    · exact (Kept.refl s).modGeom
    · exact .ite (Kept.refl s).modGeom (.refl s)
  · exact .refl s

theorem kept_view (a : TagSet) (s : State) : Kept s (view a s) := by
  unfold view
  exact .ite (.refl s) (Kept.refl s).modSettings.focus.arrangesel

theorem kept_setlayout (a : Option Layout) (s : State) : Kept s (setlayout a s) := by
  unfold setlayout
  exact .ite (Kept.refl s).modSettings.arrangesel (Kept.refl s).modSettings

theorem kept_setfact {move : ClientId → State → State} {set : Settings → Option Settings}
    (s : State) (hmove : ∀ c, Kept s (move c s)) : Post (setfact move set s) (Kept s) := by
  unfold setfact
  refine (post_any _).bind fun b _ => ?_
  split
  · exact (post_any _).bind fun c _ => (post_pure _).mpr (hmove c).arrangesel
  · split
    · exact (post_pure _).mpr (Kept.refl s).modSettings.arrangesel
    · exact (post_pure _).mpr (.refl s)

theorem kept_setsize (f : Rat → State → Rect → Rect) (a : Rat) (s : State) :
    Post (setsize f a s) (Kept s) := by
  unfold setsize
  refine (post_any _).bind fun b _ => ?_
  split
  · exact (post_any _).bind fun c _ => (post_pure _).mpr (kept_moveclient _ s).arrangesel
  · exact (post_pure _).mpr (Kept.refl s).arrangesel

theorem kept_fmaximize (a : TagSet) (s : State) : Post (fmaximize a s) (Kept s) := by
  unfold fmaximize
  dsimp only
  split
  · exact (post_pure _).mpr (kept_maximize _ s)
  · exact (post_any _).bind fun _ _ => (post_pure _).mpr (kept_maximize _ s)
  · exact (post_any _).bind fun _ _ => (post_pure _).mpr (kept_maximize _ s)
  · exact (post_pure _).mpr (.refl s)

theorem kept_fsnap (a : TagSet) (s : State) : Post (fsnap a s) (Kept s) := by
  unfold fsnap
  dsimp only
  split
  · exact (post_any _).bind fun _ _ => (post_pure _).mpr (kept_moveclient _ s)
  · exact (post_any _).bind fun _ _ => (post_pure _).mpr (kept_moveclient _ s)
  · exact (post_any _).bind fun _ _ => (post_pure _).mpr (kept_moveclient _ s)
  · exact (post_any _).bind fun _ _ => (post_pure _).mpr (kept_moveclient _ s)
  · exact (post_pure _).mpr (.refl s)

theorem kept_fdeck (a : TagSet) (s : State) : Kept s (fdeck a s) := by
  unfold fdeck
  split <;> first | exact kept_moveclient _ s | exact .refl s

theorem kept_swaptag (a : TagSet) (s : State) : Kept s (swaptag a s) := by
  have hloop : ∀ (cs : List ClientId) (f : Client → Client) (u : State),
      Kept u (cs.foldl (fun s c => s.modClient c f) u) := by
    intro cs f
    induction cs with
    | nil => exact fun u => .refl u
    | cons c cs ih => exact fun u => (Kept.refl u).modClient.trans (ih _)
  unfold swaptag
  exact .ite (.refl s) ((hloop _ _ s).trans (Kept.refl _).modSettings.focus.arrangesel)

theorem kept_tag (a : TagSet) (s : State) : Post (tag a s) (Kept s) := by
  unfold tag
  split
  · split
    · dsimp only
      refine (post_any _).bind fun _ _ => (post_pure _).mpr ?_
      exact .ite ((Kept.refl s).modClient.focus.arrangesel.trans (kept_view a _))
        (Kept.refl s).modClient.focus.arrangesel
    · exact (post_ok _).mpr (.refl s)
  · exact (post_ok _).mpr (.refl s)

theorem kept_toggletag (a : TagSet) (s : State) : Kept s (toggletag a s) := by
  unfold toggletag
  split
  · exact .ite (Kept.refl s).modClient.focus.arrangesel (.refl s)
  · exact .refl s

theorem kept_focusmon (i : Int) (s : State) : Kept s (focusmon i s) := by
  unfold focusmon
  exact .ite (.refl s) (Kept.refl s).unfocus.withSelmon.focus

theorem kept_focusstack (i : Int) (s : State) : Post (focusstack i s) (Kept s) := by
  unfold focusstack
  split
  · split
    · exact (post_ok _).mpr (.refl s)
    · refine (post_any _).bind fun o _ => ?_
      split
      · exact (post_pure _).mpr (Kept.refl s).focus
      · exact (post_pure _).mpr (.refl s)
  · exact (post_ok _).mpr (.refl s)

theorem kept_focussame (cls : Window → Option String) (i : Int) (s : State) :
    Post (focussame cls i s) (Kept s) := by
  unfold focussame
  split
  · split
    · dsimp only
      split
      · exact (post_ok _).mpr (Kept.refl s).focus
      · split
        · exact post_error _
        · exact (post_ok _).mpr (.refl s)
    · exact (post_ok _).mpr (.refl s)
  · exact (post_ok _).mpr (.refl s)

theorem kept_swapfocus (s : State) : Post (swapfocus s) (Kept s) := by
  unfold swapfocus
  split
  · split
    · exact (post_ok _).mpr (.ite (Kept.refl s).focus (.refl s))
    · exact kept_focusstack _ s
  · exact (post_ok _).mpr (.refl s)

theorem kept_manage (c : ClientId) (w : Window) (i : WinInfo) (s : State) :
    Kept s (manage c w i s) := by
  have hadopt : ∀ (o : Option ClientId) (u : State), Kept u (adopt c o i u) := by
    intro o u
    cases o with
    | some d =>
        unfold adopt
        exact (Kept.refl u).modClient
    | none =>
        have hfold : ∀ (rs : List Rule) (v : State), Kept v (rs.foldl (fun s r =>
            let m := s.mons.find? fun m => (s.monitor m).num = r.monitor
            s.modClient c fun k => { k with
              isfloating := r.isfloating, tags := k.tags ||| r.tags, mon := m.getD k.mon }) v) := by
          intro rs
          induction rs with
          | nil => exact fun v => .refl v
          | cons r rs ih => exact fun v => (Kept.refl v).modClient.trans (ih _)
        unfold adopt applyrules
        exact ((Kept.refl u).modClient.trans (hfold _ _)).modClient
  have hdress : ∀ u, Kept u (dress c i u) := by
    intro u
    unfold dress
    exact ((((Kept.refl u).modGeom.trans (kept_updatewindowtype c _ _ _)).modClient.trans
      (kept_updatemotifhints c _ _)).modGeom).modClient
  have henroll : ∀ u, Kept u (enroll c u) := by
    intro u
    have hback : Kept u (attachstack c (attachx attachmode c u)) :=
      (Kept.refl u).attachx.attachstack
    unfold enroll enlist
    generalize attachstack c (attachx attachmode c u) = v at hback ⊢
    exact ((Kept.ite hback.unfocus hback).modMon rfl fun _ => id).arrange.focus
  have hnew : Kept s (newclient c w i s) := .of_monitor rfl rfl
  unfold manage
  exact .ite (.refl s) (((hnew.trans (hadopt _ _)).trans (hdress _)).trans (henroll _))

theorem kept_maprequest (c : ClientId) (w : Window) (i : WinInfo) (s : State) :
    Post (maprequest c w i s) (Kept s) := by
  unfold maprequest
  split
  · exact post_error _
  · split
    · exact (post_ok _).mpr (.refl s)
    · exact (post_ok _).mpr (kept_manage c w i s)

theorem kept_clientmessage (w : Window) (x : Message) (s : State) :
    Kept s (clientmessage w x s) := by
  unfold clientmessage
  split
  · rename_i c _
    cases x with
    | netWMState a fullscreen sticky =>
        have hfull : ∀ b, Kept s (if fullscreen then setfullscreen c b s else s) := fun b =>
          .ite (kept_setfullscreen c b s) (.refl s)
        exact .ite ((hfull _).trans (kept_setsticky _ _ _)) (hfull _)
    | netActiveWindow =>
        have hsel : Kept s { s with selmon := s.own c } := (Kept.refl s).withSelmon
        exact .ite (hsel.trans (kept_view _ _)).focus (.refl s)
    | netWMDesktop data => exact (Kept.refl s).modClient.arrange
    | netCloseWindow => exact .refl s
    | other => exact .refl s
  · exact .refl s

theorem kept_propertynotify (w : Window) (x : Property) (s : State) :
    Kept s (propertynotify w x s) := by
  unfold propertynotify
  split
  · cases x with
    | transientFor p => exact .ite (Kept.refl s).modClient.arrange (.refl s)
    | windowType n b => exact kept_updatewindowtype _ n b s
    | motifHints b => exact kept_updatemotifhints _ b s
    | other => exact .refl s
  · exact .refl s

theorem kept_press (x : Target) (wheel : Bool) (s : State) : Kept s (press x wheel s).1 := by
  have hfocus : Kept s (if wintomon x s ≠ s.selmon ∧ (focusonwheel ∨ !wheel) then
      focus none { unfocus s.sel s with selmon := wintomon x s } else s) :=
    .ite (Kept.refl s).unfocus.withSelmon.focus (.refl s)
  unfold press
  dsimp only
  generalize (if wintomon x s ≠ s.selmon ∧ (focusonwheel ∨ !wheel) then
      focus none { unfocus s.sel s with selmon := wintomon x s } else s) = u at hfocus ⊢
  cases x with
  | root p => exact hfocus
  | bar m part => exact hfocus
  | window w =>
      dsimp only
      split
      · exact .ite hfocus.focus hfocus
      · exact hfocus

/-! ## Splices -/

/-- Every mark of a tag is a client on the list of the monitor. -/
def MarksListed (s : State) : Prop :=
  ∀ m ∈ s.mons, ∀ i, 1 ≤ i → i ≤ ntags → ∀ c, s.marks m i = some c → c ∈ s.clientsOf m

/-- The mark that `detach` misses is not on the client. -/
def Spares (c : ClientId) (s : State) : Prop := s.marks (s.own c) ntags ≠ some c

/-- No mark is new. -/
def Fewer (s t : State) : Prop := ∀ m i c, t.marks m i = some c → s.marks m i = some c

theorem Fewer.trans (h : Fewer s t) (h' : Fewer t u) : Fewer s u :=
  fun m i c hc => h m i c (h' m i c hc)

theorem Kept.fewer (h : Kept s t) : Fewer s t := by
  intro m i c hc
  rw [h.marks] at hc
  exact hc

theorem MarksListed.kept (h : MarksListed s) (hst : Kept s t) : MarksListed t := by
  intro m hm i hi hle c hc
  rw [hst.mons] at hm
  exact hst.clients m c (h m hm i hi hle c (hst.fewer m i c hc))

theorem marks_detach (c : ClientId) (s : State) (m : MonId) (i : Nat) :
    (detach c s).marks m i = if m = s.own c ∧ 1 ≤ i ∧ i < ntags ∧ s.marks m i = some c
      then none else s.marks m i := by
  by_cases hm : m = s.own c
  · subst hm
    simp [State.marks, detach, State.modMon]
  · simp [State.marks, detach, State.modMon, hm]

theorem fewer_detach (c : ClientId) (s : State) : Fewer s (detach c s) := by
  intro m i d hd
  rw [marks_detach] at hd
  split at hd
  · cases hd
  · exact hd

/-- After a splice a client is marked at most for the last tag. -/
theorem marks_detach_self {i : Nat} (hi : 1 ≤ i) (hlt : i < ntags) :
    (detach c s).marks (s.own c) i ≠ some c := by
  intro hc
  have hold := fewer_detach c s _ _ _ hc
  rw [marks_detach, if_pos ⟨rfl, hi, hlt, hold⟩] at hc
  cases hc

theorem clientsOf_detach (c : ClientId) (s : State) (m : MonId) :
    (detach c s).clientsOf m = if m = s.own c then (s.clientsOf m).erase c else s.clientsOf m := by
  rw [State.clientsOf, lists_detach]
  split <;> rfl

/-- Any other client stays on its list. -/
theorem mem_detach_of_ne (hd : d ≠ c ∨ m ≠ s.own c) (h : d ∈ s.clientsOf m) :
    d ∈ (detach c s).clientsOf m := by
  rw [clientsOf_detach]
  split
  · rename_i hm
    exact (List.mem_erase_of_ne (hd.resolve_right fun h' => h' hm)).mpr h
  · exact h

/-- **Taking a client off its list** leaves no mark behind if the last tag is
not marked with it. -/
protected theorem MarksListed.detach (h : MarksListed s) (hc : Spares c s) :
    MarksListed (detach c s) := by
  intro m hm i hi hle d hd
  refine mem_detach_of_ne ?_ (h m hm i hi hle d (fewer_detach c s m i d hd))
  by_cases hdc : d = c
  · right
    intro hmc
    subst hdc hmc
    rcases Nat.lt_or_eq_of_le hle with hlt | heq
    · exact marks_detach_self hi hlt hd
    · exact hc (heq ▸ fewer_detach d s _ i d hd)
  · exact Or.inl hdc

/-- **Taking a client off its list and putting it back** leaves no mark behind. -/
protected theorem MarksListed.relink {f : List ClientId → List ClientId} (h : MarksListed s)
    (hf : (f ((detach c s).clientsOf (s.own c))).Perm
      (c :: (detach c s).clientsOf (s.own c))) : MarksListed (linkClient f c (detach c s)) := by
  intro m hm i hi hle d hd
  have hold : s.marks m i = some d := by
    have hmon : Kept (detach c s) (linkClient f c (detach c s)) :=
      (Kept.refl _).linkClient fun x hx => hf.mem_iff.mpr (List.mem_cons_of_mem c hx)
    exact fewer_detach c s m i d (hmon.fewer m i d hd)
  have hmem := h m hm i hi hle d hold
  rw [State.clientsOf, lists_linkClient]
  split
  · rename_i hmc
    change m = s.own c at hmc
    subst hmc
    refine hf.mem_iff.mpr (List.mem_cons.mpr ?_)
    by_cases hdc : d = c
    · exact Or.inl hdc
    · exact Or.inr (mem_detach_of_ne (Or.inl hdc) hmem)
  · rename_i hmc
    exact mem_detach_of_ne (Or.inr hmc) hmem

/-- Marking a tag with a client of the list, or with none. -/
theorem MarksListed.mark {o : Option ClientId} {i : Nat} (h : MarksListed s)
    (ho : ∀ c, o = some c → c ∈ s.clientsOf m) :
    MarksListed (s.modMon m fun k => { k with tagmarked := Function.update k.tagmarked i o }) := by
  intro k hk j hj hle c hc
  have hclients : (s.modMon m fun k =>
      { k with tagmarked := Function.update k.tagmarked i o }).clientsOf k = s.clientsOf k := by
    rw [State.clientsOf, lists_modMon]
    split
    · rename_i hkm
      subst hkm
      rfl
    · rfl
  rw [hclients]
  by_cases hkm : k = m
  · subst hkm
    by_cases hji : j = i
    · subst hji
      refine ho c ?_
      rw [← hc]
      simp [State.marks, State.modMon]
    · refine h k hk j hj hle c ?_
      rw [← hc]
      simp [State.marks, State.modMon, hji]
  · refine h k hk j hj hle c ?_
    rw [← hc]
    simp [State.marks, State.modMon, hkm]

/-! ## Commands that splice -/

protected theorem MarksListed.pop (h : MarksListed s) : MarksListed (pop c s) := by
  unfold Dwm.pop
  dsimp only
  have hmark := h.mark (m := s.own c) (i := lowestTag s.selM.tags + 1)
    (o := (s.tiled (s.own c)).head?) fun d hd => (mem_tiled (List.mem_of_head? hd)).1
  exact (hmark.relink (c := c) (f := (c :: ·)) (.refl _)).kept (Kept.refl _).focus.arrange

protected theorem MarksListed.zoom (h : MarksListed s) : MarksListed (zoom s) := by
  have hprev : ∀ o, MarksListed { s with prevclient := o } := fun o =>
    h.kept (.of_monitor rfl rfl)
  unfold Dwm.zoom
  dsimp only
  split
  · split
    · exact hprev _
    · split
      · split
        · exact (hprev _).pop
        · exact hprev _
      · exact (hprev _).pop
  · exact hprev _

/-- `rotatestack` drops a client at most that the last tag is not marked with. -/
protected theorem MarksListed.rotatestack {i : Int} (h : MarksListed s)
    (hfiled : Filed lost base s)
    (hdrop : Drops i s → ∀ c, s.selM.clients = [c] → Spares c s) :
    MarksListed (rotatestack i s) := by
  unfold Dwm.rotatestack
  split
  · rename_i f hf
    split
    · split
      · exact (h.relink (f := (_ :: ·)) (.refl _)).kept
          (Kept.refl _).detachstack.attachstack.arrangesel.focus
      · exact h
    · rename_i hi
      split
      · rename_i c hc
        obtain ⟨hmem, htiled⟩ := mem_tiled (List.mem_of_head? hc)
        have hown : s.own c = s.selmon := (hfiled.here_of_mem hfiled.selmon hmem).2
        refine MarksListed.kept ?_ (Kept.refl _).detachstack.enqueuestack.arrangesel.focus
        by_cases hnil : (detach c s).clientsOf (s.own c) = []
        · have hsingle : s.selM.clients = [c] := by
            rw [clientsOf_detach, if_pos rfl, hown] at hnil
            have hperm := List.perm_cons_erase hmem
            rw [hnil] at hperm
            exact List.perm_singleton.mp hperm
          have hsel : s.sel ≠ none := by
            rw [hf]
            exact Option.some_ne_none f
          have hspares := hdrop ⟨by omega, hsel, c, hsingle, htiled⟩ c hsingle
          refine (h.detach hspares).kept ((Kept.refl _).modMon rfl fun d hd => ?_)
          have hempty : ((detach c s).monitor ((detach c s).own c)).clients = [] := hnil
          rw [hempty] at hd
          cases hd
        · rw [show enqueue c (detach c s) = linkClient (· ++ [c]) c (detach c s) from
            enqueue_eq hnil]
          exact h.relink List.perm_append_comm
      · exact h
  · exact h

/-- `focusmaster` is about to mark a tag, and the client is on the list. -/
def MarksOwn (s : State) : Prop :=
  ∀ c master, s.sel = some c → (s.tiled s.selmon).head? = some master →
    ¬ (s.selM.nmaster > 1 ∨ (s.client c).isfullscreen ∧ lockfullscreen) → c ≠ master →
    c ∈ s.clientsOf s.selmon

protected theorem MarksListed.focusmaster (h : MarksListed s) (hown : MarksOwn s) :
    Post (focusmaster s) MarksListed := by
  unfold Dwm.focusmaster
  split
  · rename_i c master hc hmaster
    dsimp only
    split
    · exact (post_ok _).mpr h
    · rename_i hgo
      split
      · split
        · split
          · exact post_error _
          · split
            · exact (post_ok _).mpr (h.kept (Kept.refl s).focus)
            · exact (post_ok _).mpr h
        · exact (post_ok _).mpr h
      · rename_i hne
        refine (post_ok _).mpr (MarksListed.kept ?_ (Kept.refl _).focus)
        refine h.mark fun d hd => ?_
        cases hd
        exact hown c master hc hmaster hgo hne
  · exact (post_ok _).mpr h

/-! ## Clients that move to another monitor -/

theorem fewer_withdraw (c : ClientId) (s : State) : Fewer s (withdraw c s) :=
  ((Kept.refl s).unfocus.fewer.trans (fewer_detach c _)).trans (Kept.refl _).detachstack.fewer

protected theorem MarksListed.withdraw (h : MarksListed s) (hc : Spares c s) :
    MarksListed (withdraw c s) :=
  ((h.kept (Kept.refl s).unfocus).detach hc).kept (Kept.refl _).detachstack

/-- A client that is marked for the last tag of its monitor stays there. -/
def Stays (c : ClientId) (m : MonId) (s : State) : Prop :=
  s.marks (s.own c) ntags = some c → m = s.own c

protected theorem MarksListed.sendmon (h : MarksListed s) (hc : Stays c m s) :
    MarksListed (sendmon c m s) := by
  unfold Dwm.sendmon
  split
  · exact h
  · rename_i hm
    have hspares : Spares c s := fun h' => hm (hc h').symm
    exact (h.withdraw hspares).kept (Kept.refl _).modClient.attachx.attachstack.focus.arrange

theorem kept_settleAll (m : State → MonId) (cs : List ClientId) (s : State) :
    Kept s (cs.foldl (fun s c => settle (m s) c s) s) := by
  induction cs generalizing s with
  | nil => exact .refl s
  | cons c cs ih =>
      refine Kept.trans ?_ (ih _)
      unfold settle
      exact .ite (Kept.refl s).modClient.attach.attachstack.resizeclient
        (Kept.refl s).modClient.attach.attachstack

/-- The first two loops of `tagswapmon`. -/
theorem MarksListed.withdrawAll {l : List ClientId} (h : MarksListed s)
    (hl : ∀ c ∈ l, Spares c s) :
    MarksListed (l.foldl (fun s c => withdraw c s) s) ∧
      Fewer s (l.foldl (fun s c => withdraw c s) s) := by
  induction l generalizing s with
  | nil => exact ⟨h, fun _ _ _ => id⟩
  | cons c l ih =>
      have hfewer := fewer_withdraw c s
      have hown : (withdraw c s).own = s.own := (relinked_withdraw c s).own
      obtain ⟨hlisted, hfewer'⟩ := ih (h.withdraw (hl c List.mem_cons_self)) fun d hd hmark => by
        refine hl d (List.mem_cons_of_mem c hd) (hfewer _ _ _ ?_)
        rw [hown] at hmark
        exact hmark
      exact ⟨hlisted, hfewer.trans hfewer'⟩

theorem clientsOf_withdrawAll_subset (cs : List ClientId) (s : State) (m : MonId) :
    ∀ d ∈ (cs.foldl (fun s c => withdraw c s) s).clientsOf m, d ∈ s.clientsOf m := by
  induction cs generalizing s with
  | nil => exact fun _ => id
  | cons c cs ih =>
      intro d hd
      have hd' : d ∈ (detach c (unfocus (some c) s)).clientsOf m := by
        have hmem := ih (withdraw c s) d hd
        rw [withdraw, clientsOf_detachstack] at hmem
        exact hmem
      rw [clientsOf_detach] at hd'
      split at hd'
      · exact List.mem_of_mem_erase hd'
      · exact hd'

/-- The clients that `tagswapmon` exchanges. -/
def Swaps (i : Int) (s : State) (c : ClientId) : Prop :=
  s.visible c = true ∧ (c ∈ s.clientsOf s.selmon ∨ c ∈ s.clientsOf (dirtomon i s))

protected theorem MarksListed.tagswapmon {i : Int} (h : MarksListed s)
    (hswap : ¬ s.mons.length < 2 → ∀ c, Swaps i s c → Spares c s) :
    MarksListed (tagswapmon i s) := by
  unfold Dwm.tagswapmon
  split
  · exact h
  · rename_i hlen
    dsimp only
    obtain ⟨hout, hfewer⟩ := h.withdrawAll (l := s.selM.clients.filter s.visible) fun c hc => by
      obtain ⟨hmem, hvis⟩ := List.mem_filter.mp hc
      exact hswap hlen c ⟨hvis, Or.inl hmem⟩
    have hrel := relinked_withdrawAll (s.selM.clients.filter s.visible) s
    have hsub := clientsOf_withdrawAll_subset (s.selM.clients.filter s.visible) s (dirtomon i s)
    generalize (s.selM.clients.filter s.visible).foldl (fun s c => withdraw c s) s = s₁
      at hout hfewer hrel hsub ⊢
    obtain ⟨hout₂, -⟩ := hout.withdrawAll
      (l := (s₁.monitor (dirtomon i s)).clients.filter s₁.visible) fun c hc hmark => by
        obtain ⟨hmem, hvis⟩ := List.mem_filter.mp hc
        rw [hrel.visible] at hvis
        rw [hrel.own] at hmark
        exact hswap hlen c ⟨hvis, Or.inr (hsub c hmem)⟩ (hfewer _ _ _ hmark)
    exact hout₂.kept (((kept_settleAll (fun _ => dirtomon i s) _ _).trans
      (kept_settleAll (fun s => s.selmon) _ _)).focus.arrange)

protected theorem MarksListed.unmanage (h : MarksListed s) (hc : Spares c s) :
    MarksListed (unmanage c s) := by
  have hout : MarksListed (detachstack c (detach c s)) :=
    (h.detach hc).kept (Kept.refl _).detachstack
  have hfree : Kept (detachstack c (detach c s)) { detachstack c (detach c s) with
      live := Function.update (detachstack c (detach c s)).live c false } := .of_monitor rfl rfl
  exact hout.kept hfree.focus.arrange

/-! ## Monitors that come and go -/

protected theorem MarksListed.addmon (h : MarksListed s) : MarksListed (addmon s) := by
  intro m hm i hi hle c hc
  by_cases hnew : m = s.nextmon
  · subst hnew
    simp [State.marks, addmon, createmon] at hc
  · have hmem : m ∈ s.mons := by
      rcases List.mem_append.mp hm with hm | hm
      · exact hm
      · exact absurd (List.mem_singleton.mp hm) hnew
    have hmarks : (addmon s).marks m = s.marks m := by simp [State.marks, addmon, hnew]
    rw [hmarks] at hc
    rw [State.clientsOf, lists_addmon, if_neg hnew]
    exact h m hmem i hi hle c hc

/-- The marks stay, and only the list of `m` may lose clients. -/
structure KeptOff (m : MonId) (s t : State) : Prop where
  mons : t.mons = s.mons
  marks : t.marks = s.marks
  clients : ∀ k, k ≠ m → ∀ c, c ∈ s.clientsOf k → c ∈ t.clientsOf k

theorem KeptOff.trans (h : KeptOff m s t) (h' : Kept t u) : KeptOff m s u :=
  ⟨h'.mons.trans h.mons, h'.marks.trans h.marks,
    fun k hk c hc => h'.clients k c (h.clients k hk c hc)⟩

theorem keptOff_rehome (m : MonId) (c : ClientId) (s : State) : KeptOff m s (rehome m c s) := by
  have htail : KeptOff m s (s.modMon m fun k => { k with clients := k.clients.tail }) := by
    refine ⟨rfl, ?_, fun k hk d hd => ?_⟩
    · funext k
      by_cases hk : k = m
      · subst hk
        simp [State.marks, State.modMon]
      · simp [State.marks, State.modMon, hk]
    · rw [State.clientsOf, lists_modMon, if_neg hk]
      exact hd
  exact htail.trans (Kept.refl _).detachstack.modClient.attach.attachstack

/-- **Removing a monitor** takes its marks along with it. -/
theorem MarksListed.removemon (h : MarksListed s) (hnd : s.mons.Nodup) :
    MarksListed (removemon m s) := by
  have hloop : ∀ (cs : List ClientId) (u : State), KeptOff m s u →
      KeptOff m s (cs.foldl (fun s c => rehome m c s) u) := by
    intro cs
    induction cs with
    | nil => exact fun _ hu => hu
    | cons c cs ih =>
        intro u hu
        have hstep := keptOff_rehome m c u
        exact ih _ ⟨hstep.mons.trans hu.mons, hstep.marks.trans hu.marks,
          fun k hk d hd => hstep.clients k hk d (hu.clients k hk d hd)⟩
  have hall := hloop (s.monitor m).clients s ⟨rfl, rfl, fun _ _ _ => id⟩
  unfold Dwm.removemon
  generalize (s.monitor m).clients.foldl (fun s c => rehome m c s) s = t at hall ⊢
  have hoff : KeptOff m s (if m = t.selmon then { t with selmon := t.mons.headD t.selmon }
      else t) := hall.trans (.ite (Kept.refl t).withSelmon (.refl t))
  dsimp only
  generalize (if m = t.selmon then { t with selmon := t.mons.headD t.selmon } else t) = u
    at hoff ⊢
  intro k hk i hi hle c hc
  have hmons : (cleanupmon m u).mons = s.mons.erase m := congrArg (List.erase · m) hoff.mons
  rw [hmons] at hk
  have hkm : k ≠ m := by
    intro hkm
    subst hkm
    exact hnd.not_mem_erase hk
  have hmarks : (cleanupmon m u).marks = s.marks := hoff.marks
  rw [hmarks] at hc
  exact hoff.clients k hkm c (h k (List.mem_of_mem_erase hk) i hi hle c hc)

theorem kept_fitAll (n i : Nat) (ms : List MonId) (rs : List Screen) (s : State) (b : Bool) :
    Kept s (fitAll n i ms rs (s, b)).1 := by
  induction ms generalizing i rs s b with
  | nil => cases rs <;> exact .refl s
  | cons m ms ih =>
      cases rs with
      | nil => exact .refl s
      | cons r rs =>
          rw [fitAll]
          split
          · exact (Kept.refl s).modSettings.trans (ih _ _ _ _)
          · exact ih _ _ _ _

theorem MarksListed.removemons {n : Nat} {b : Bool} (h : MarksListed s)
    (hinv : Inv lost nobody s) (hn : n < s.mons.length) :
    MarksListed (removemons n (s, b)).1 := by
  induction n generalizing s b with
  | zero => exact h
  | succ n ih =>
      have hne : s.mons ≠ [] := by
        intro hnil
        rw [hnil] at hn
        exact Nat.not_lt_zero _ hn
      obtain ⟨k, hk⟩ := List.exists_mem_of_ne_nil _ hne
      have hlast := getLastD_mem hk s.selmon
      obtain ⟨hinv', -, hmons, -, -⟩ := removemon_spec hinv hlast fun d =>
        headD_ne_getLastD hinv.nodup (by omega) d s.selmon
      refine ih (h.removemon hinv.nodup) hinv' ?_
      rw [hmons, List.length_erase_of_mem hlast]
      omega

protected theorem MarksListed.updategeom (l : Layouts) (h : MarksListed s)
    (hinv : Inv lost nobody s) : Post (updategeom l s) fun r => MarksListed r.1 := by
  have hfit : ∀ u : State, Kept u (fitFirst u).1 := by
    intro u
    unfold fitFirst
    dsimp only
    split
    · dsimp only
      exact (Kept.refl u).modSettings
    · exact .refl u
  have hloops : l.screens ≠ some [] → MarksListed (refitScreens l s).1 := by
    intro hl
    unfold refitScreens
    cases hs : l.screens with
    | none =>
        have hadd : MarksListed (if s.mons = [] then addmon s else s) := by
          split
          · exact h.addmon
          · exact h
        exact hadd.kept (hfit _)
    | some info =>
        have hpos := List.length_pos_of_ne_nil
          (uniqueScreens_ne_nil fun hnil : info = [] => hl (hnil ▸ hs))
        have hadds : ∀ (A : Type) (l : List A) (u : State), MarksListed u →
            MarksListed (l.foldl (fun s _ => addmon s) u) := by
          intro A l
          induction l with
          | nil => exact fun _ hu => hu
          | cons a l ih => exact fun u hu => ih _ hu.addmon
        have hadd := hadds _ (List.range ((uniqueScreens info).length - s.mons.length)) s h
        obtain ⟨hinv₁, -, -, -⟩ := addmons_spec
          (List.range ((uniqueScreens info).length - s.mons.length)) hinv
        have hlen₁ := length_addmons
          (List.range ((uniqueScreens info).length - s.mons.length)) s
        rw [List.length_range] at hlen₁
        change MarksListed (refit info s).1
        unfold refit
        dsimp only
        generalize (List.range ((uniqueScreens info).length - s.mons.length)).foldl
          (fun s _ => addmon s) s = s₁ at hadd hinv₁ hlen₁ ⊢
        have hkept := kept_fitAll s.mons.length 0 s₁.mons (uniqueScreens info) s₁ false
        obtain ⟨hun, -⟩ := fitAll_spec s.mons.length 0 s₁.mons (uniqueScreens info) s₁ false
        generalize fitAll s.mons.length 0 s₁.mons (uniqueScreens info) (s₁, false) = r
          at hkept hun ⊢
        refine (hadd.kept hkept).removemons (hinv₁.unmoved hun) ?_
        rw [hun.mons]
        omega
  unfold Dwm.updategeom
  split
  · exact post_error _
  · rename_i hl
    dsimp only
    split
    · exact (post_ok _).mpr ((hloops hl).kept (Kept.refl _).withSelmon.withSelmon)
    · exact (post_ok _).mpr (hloops hl)

protected theorem MarksListed.configurenotify (w k : Int) (l : Layouts) (h : MarksListed s)
    (hinv : Inv lost nobody s) : Post (configurenotify w k l s) MarksListed := by
  have hrefill : ∀ (m : MonId) (cs : List ClientId) (u : State), Kept u (refill m cs u) := by
    intro m cs
    induction cs with
    | nil => exact fun u => .refl u
    | cons c cs ih => exact fun u => (Kept.ite (Kept.refl u).resizeclient (.refl u)).trans (ih _)
  have hall : ∀ (ms : List MonId) (u : State),
      Kept u (ms.foldl (fun s m => refill m (s.monitor m).clients s) u) := by
    intro ms
    induction ms with
    | nil => exact fun u => .refl u
    | cons m ms ih => exact fun u => (hrefill m _ u).trans (ih _)
  have hsize : MarksListed { s with sw := w, sh := k } := h.kept (.of_monitor rfl rfl)
  have hinv' : Inv lost nobody { s with sw := w, sh := k } :=
    ⟨hinv.nodup, hinv.fresh, hinv.ownFresh, hinv.clients, hinv.stack, hinv.home, hinv.sel⟩
  unfold Dwm.configurenotify
  refine (hsize.updategeom l hinv').bind fun r hr => ?_
  dsimp only
  split
  · exact (post_pure _).mpr (hr.kept (hall _ _).focus.arrange)
  · exact (post_pure _).mpr hr

end Dwm
