import Zzdwm.Dwm.Saved
import Zzdwm.Dwm.Marks

/-!
# Commands and the saved geometry

No command but `maximize` and those that move the selected client overwrites
what a fullscreen client has saved; `tagswapmon` and `configurenotify` do,
because they place every fullscreen client that they come across.

* `Saved.sendmon`, `Saved.view`, … — the commands that leave it alone;
* `Saved.tagswapmon` — a fullscreen client that is exchanged;
* `Saved.configurenotify` — the fullscreen clients of a new screen layout.
-/

namespace Dwm

open Machine

variable {lost base outC : ClientId → Prop} {s t u : State} {c d : ClientId} {m : MonId}
  {k : Save}

/-! ## Commands -/

theorem Saved.pop (h : Saved c k s) : Saved c k (pop d s) :=
  h.modMon.detach.attach.focus.arrange

theorem Saved.prevclient {o : Option ClientId} (h : Saved c k s) :
    Saved c k { s with prevclient := o } := h.same rfl rfl rfl

theorem Saved.zoom (h : Saved c k s) : Saved c k (zoom s) := by
  unfold Dwm.zoom
  dsimp only
  split
  · split
    · exact h.prevclient
    · split
      · split
        · exact h.prevclient.pop
        · exact h.prevclient
      · exact h.prevclient.pop
  · exact h.prevclient

theorem Saved.rotatestack {i : Int} (h : Saved c k s) : Saved c k (rotatestack i s) := by
  unfold Dwm.rotatestack
  split
  · split
    · split
      · exact h.detach.attach.detachstack.attachstack.arrangesel.focus
      · exact h
    · split
      · have hqueue : ∀ d, Saved c k (enqueue d (Dwm.detach d s)) := fun d => h.detach.modMon
        have hstack : ∀ d, Saved c k (enqueuestack d
            (Dwm.detachstack d (enqueue d (Dwm.detach d s)))) := fun d =>
          (hqueue d).detachstack.modMon
        exact (hstack _).arrangesel.focus
      · exact h
  · exact h

theorem Saved.focusmaster (h : Saved c k s) : Post (focusmaster s) (Saved c k) := by
  unfold Dwm.focusmaster
  split
  · dsimp only
    split
    · exact (post_ok _).mpr h
    · split
      · split
        · split
          · exact post_error _
          · split
            · exact (post_ok _).mpr h.focus
            · exact (post_ok _).mpr h
        · exact (post_ok _).mpr h
      · exact (post_ok _).mpr h.modMon.focus
  · exact (post_ok _).mpr h

theorem Saved.sendmon (h : Saved c k s) : Saved c k (sendmon d m s) := by
  unfold Dwm.sendmon
  exact .ite h h.unfocus.detach.detachstack.modClient.attachx.attachstack.focus.arrange

theorem Saved.refocus {f : Settings → Settings} (h : Saved c k s) :
    Saved c k (Dwm.arrangesel (Dwm.focus none (s.modSettings m f))) :=
  h.modSettings.focus.arrangesel

theorem Saved.view {a : TagSet} (h : Saved c k s) : Saved c k (view a s) := by
  unfold Dwm.view
  exact .ite h h.refocus

theorem Saved.setlayout {a : Option Layout} (h : Saved c k s) : Saved c k (setlayout a s) := by
  unfold Dwm.setlayout
  exact .ite h.modSettings.arrangesel h.modSettings

/-- The selected client is another one or cannot be resized. -/
def Unmovable (c : ClientId) (s : State) : Prop :=
  s.sel = some c → (s.client c).isfixed = true

theorem Saved.setfact {move : ClientId → State → State} (set : Settings → Option Settings)
    (h : Saved c k s) (hmove : ∀ d, Saved c k (move d s)) :
    Post (setfact move set s) (Saved c k) := by
  unfold Dwm.setfact
  refine (post_any _).bind fun b _ => ?_
  split
  · exact (post_any _).bind fun d _ => (post_pure _).mpr (hmove d).arrangesel
  · split
    · exact (post_pure _).mpr h.modSettings.arrangesel
    · exact (post_pure _).mpr h

theorem Saved.setsize {f : Rat → State → Rect → Rect} {a : Rat} (h : Saved c k s)
    (hsel : Unmovable c s) : Post (setsize f a s) (Saved c k) := by
  unfold Dwm.setsize
  refine (post_any _).bind fun b _ => ?_
  split
  · exact (post_any _).bind fun d _ => (post_pure _).mpr (h.moveclient hsel).arrangesel
  · exact (post_pure _).mpr h.arrangesel

theorem Saved.fmaximize {a : TagSet} (h : Saved c k s) (hc : MaximizeSpares c s) :
    Post (fmaximize a s) (Saved c k) := by
  unfold Dwm.fmaximize
  dsimp only
  split
  · exact (post_pure _).mpr (h.maximize hc)
  · exact (post_any _).bind fun _ _ => (post_pure _).mpr (h.maximize hc)
  · exact (post_any _).bind fun _ _ => (post_pure _).mpr (h.maximize hc)
  · exact (post_pure _).mpr h

theorem Saved.fsnap {a : TagSet} (h : Saved c k s) (hsel : Unmovable c s) :
    Post (fsnap a s) (Saved c k) := by
  unfold Dwm.fsnap
  dsimp only
  split
  · exact (post_any _).bind fun _ _ => (post_pure _).mpr (h.moveclient hsel)
  · exact (post_any _).bind fun _ _ => (post_pure _).mpr (h.moveclient hsel)
  · exact (post_any _).bind fun _ _ => (post_pure _).mpr (h.moveclient hsel)
  · exact (post_any _).bind fun _ _ => (post_pure _).mpr (h.moveclient hsel)
  · exact (post_pure _).mpr h

theorem Saved.fdeck {a : TagSet} (h : Saved c k s) (hsel : Unmovable c s) :
    Saved c k (fdeck a s) := by
  unfold Dwm.fdeck
  split <;> first | exact h.moveclient hsel | exact h

theorem Saved.swaptag {a : TagSet} (h : Saved c k s) : Saved c k (swaptag a s) := by
  have hloop : ∀ (cs : List ClientId) (u : State), Saved c k u →
      Saved c k (cs.foldl (fun u d => u.modClient d fun k =>
        { k with tags := swapped s.selM.tags (a &&& tagmask) k.tags }) u) := by
    intro cs
    induction cs with
    | nil => exact fun _ hu => hu
    | cons d cs ih => exact fun u hu => ih _ hu.modClient
  unfold Dwm.swaptag
  exact .ite h (hloop _ s h).refocus

theorem Saved.tag {a : TagSet} (h : Saved c k s) : Post (tag a s) (Saved c k) := by
  unfold Dwm.tag
  split
  · split
    · dsimp only
      refine (post_any _).bind fun _ _ => (post_pure _).mpr ?_
      exact .ite h.modClient.focus.arrangesel.view h.modClient.focus.arrangesel
    · exact (post_ok _).mpr h
  · exact (post_ok _).mpr h

theorem Saved.toggletag {a : TagSet} (h : Saved c k s) : Saved c k (toggletag a s) := by
  unfold Dwm.toggletag
  split
  · exact .ite h.modClient.focus.arrangesel h
  · exact h

theorem Saved.focusmon {i : Int} (h : Saved c k s) : Saved c k (focusmon i s) := by
  unfold Dwm.focusmon
  exact .ite h h.unfocus.withSelmon.focus

theorem Saved.focusstack {i : Int} (h : Saved c k s) : Post (focusstack i s) (Saved c k) := by
  unfold Dwm.focusstack
  split
  · split
    · exact (post_ok _).mpr h
    · refine (post_any _).bind fun o _ => ?_
      split
      · exact (post_pure _).mpr h.focus
      · exact (post_pure _).mpr h
  · exact (post_ok _).mpr h

theorem Saved.focussame {cls : Window → Option String} {i : Int} (h : Saved c k s) :
    Post (focussame cls i s) (Saved c k) := by
  unfold Dwm.focussame
  split
  · split
    · dsimp only
      split
      · exact (post_ok _).mpr h.focus
      · split
        · exact post_error _
        · exact (post_ok _).mpr h
    · exact (post_ok _).mpr h
  · exact (post_ok _).mpr h

theorem Saved.swapfocus (h : Saved c k s) : Post (swapfocus s) (Saved c k) := by
  unfold Dwm.swapfocus
  split
  · split
    · exact (post_ok _).mpr (.ite h.focus h)
    · exact h.focusstack
  · exact (post_ok _).mpr h

/-! ## Monitors -/

/-- No geometry changes and no client becomes or stops being fullscreen. -/
structure Unsized (s t : State) : Prop where
  geom : t.geom = s.geom
  live : t.live = s.live
  full : ∀ c, (t.client c).isfullscreen = (s.client c).isfullscreen
  float : ∀ c, (t.client c).isfloating = (s.client c).isfloating
  oldstate : ∀ c, (t.client c).oldstate = (s.client c).oldstate

theorem Unsized.refl (s : State) : Unsized s s :=
  ⟨rfl, rfl, fun _ => rfl, fun _ => rfl, fun _ => rfl⟩

theorem Unsized.trans (h : Unsized s t) (h' : Unsized t u) : Unsized s u where
  geom := h'.geom.trans h.geom
  live := h'.live.trans h.live
  full := fun c => (h'.full c).trans (h.full c)
  float := fun c => (h'.float c).trans (h.float c)
  oldstate := fun c => (h'.oldstate c).trans (h.oldstate c)

/-- Clients and their geometry are not touched at all. -/
theorem Unsized.of_client (hclient : t.client = s.client) (hgeom : t.geom = s.geom)
    (hlive : t.live = s.live) : Unsized s t :=
  ⟨hgeom, hlive, fun c => by rw [hclient], fun c => by rw [hclient], fun c => by rw [hclient]⟩

theorem Unsized.modClient {f : Client → Client} [KeepsFull f] (h : Unsized s t) :
    Unsized s (t.modClient d f) := by
  have hmod : ∀ c, ((t.modClient d f).client c).isfullscreen = (t.client c).isfullscreen ∧
      ((t.modClient d f).client c).isfloating = (t.client c).isfloating ∧
      ((t.modClient d f).client c).oldstate = (t.client c).oldstate := by
    intro c
    by_cases hcd : c = d
    · subst hcd
      simp [State.modClient, KeepsFull.full, KeepsFull.float, KeepsFull.oldstate]
    · simp [State.modClient, hcd]
  exact h.trans ⟨rfl, rfl, fun c => (hmod c).1, fun c => (hmod c).2.1, fun c => (hmod c).2.2⟩

theorem Unsized.detachstack (h : Unsized s t) : Unsized s (detachstack d t) := by
  unfold Dwm.detachstack
  dsimp only
  split
  · exact h.trans (.of_client rfl rfl rfl)
  · exact h.trans (.of_client rfl rfl rfl)

theorem Unsized.modMon {f : Monitor → Monitor} (h : Unsized s t) :
    Unsized s (t.modMon m f) := h.trans (.of_client rfl rfl rfl)

theorem Unsized.attach (h : Unsized s t) : Unsized s (attach d t) := h.modMon

theorem Unsized.attachstack (h : Unsized s t) : Unsized s (attachstack d t) := h.modMon

theorem Saved.unsized (h : Saved c k s) (hst : Unsized s t) : Saved c k t where
  live := hst.live ▸ h.live
  full := (hst.full c).trans h.full
  float := (hst.float c).trans h.float
  oldstate := (hst.oldstate c).trans h.oldstate
  old := by
    rw [State.oldrect, hst.geom]
    exact h.old
  oldbw := hst.geom ▸ h.oldbw

theorem AtHome.congr (h : AtHome c s) (hgeom : t.geom c = s.geom c) : AtHome c t := by
  rw [AtHome, State.rect, State.oldrect, hgeom]
  exact h

theorem unsized_withdraw (d : ClientId) (s : State) : Unsized s (withdraw d s) := by
  have hout : Unsized s (detach d (unfocus (some d) s)) := .of_client rfl rfl rfl
  exact hout.detachstack

theorem unsized_withdrawAll (cs : List ClientId) (s : State) :
    Unsized s (cs.foldl (fun s c => withdraw c s) s) := by
  induction cs generalizing s with
  | nil => exact .refl s
  | cons d cs ih => exact (unsized_withdraw d s).trans (ih _)

/-- The loop of `tagswapmon` that brings a client back to a monitor. -/
theorem Saved.settle (h : Saved c k s) (hc : c = d → AtHome c s) :
    Saved c k (settle m d s) ∧ (c ≠ d → (settle m d s).geom c = s.geom c) := by
  have hback : Saved c k (Dwm.attachstack d (Dwm.attach d (s.modClient d fun k =>
      { k with mon := m, tags := (s.monitor m).tags }))) := h.modClient.attach.attachstack
  have hgeom : (Dwm.attachstack d (Dwm.attach d (s.modClient d fun k =>
      { k with mon := m, tags := (s.monitor m).tags }))).geom = s.geom := rfl
  unfold Dwm.settle
  dsimp only
  generalize Dwm.attachstack d (Dwm.attach d (s.modClient d fun k =>
      { k with mon := m, tags := (s.monitor m).tags })) = v at hback hgeom ⊢
  split
  · refine ⟨?_, fun hcd => ?_⟩
    · by_cases hcd : c = d
      · subst hcd
        exact hback.resizeclient ((hc rfl).congr (congrFun hgeom c))
      · exact hback.resizeclient_of_ne hcd
    · exact (Dwm.resizeclient_of_ne hcd).trans (congrFun hgeom c)
  · exact ⟨hback, fun _ => congrFun hgeom c⟩

theorem Saved.settleAll {l : List ClientId} (f : State → MonId) (h : Saved c k s)
    (hnd : l.Nodup) (hc : c ∈ l → AtHome c s) :
    Saved c k (l.foldl (fun s d => Dwm.settle (f s) d s) s) ∧
      (c ∉ l → (l.foldl (fun s d => Dwm.settle (f s) d s) s).geom c = s.geom c) := by
  induction l generalizing s with
  | nil => exact ⟨h, fun _ => rfl⟩
  | cons d l ih =>
      obtain ⟨hd, hnd⟩ := List.nodup_cons.mp hnd
      obtain ⟨hstep, hgeom⟩ := h.settle (m := f s) (d := d) fun hcd =>
        hc (hcd ▸ List.mem_cons_self)
      have hrest := ih hstep hnd fun hmem => by
        have hcd : c ≠ d := fun hcd => hd (hcd ▸ hmem)
        exact (hc (List.mem_cons_of_mem d hmem)).congr (hgeom hcd)
      refine ⟨hrest.1, fun hmem => ?_⟩
      obtain ⟨hcd, hmem⟩ := not_or.mp (mt List.mem_cons.mpr hmem)
      exact (hrest.2 hmem).trans (hgeom hcd)

/-- **`tagswapmon`** places every fullscreen client that it exchanges. -/
theorem Saved.tagswapmon {i : Int} (h : Saved c k s) (hfiled : Filed lost base s)
    (hc : ¬ s.mons.length < 2 → Swaps i s c → AtHome c s) : Saved c k (tagswapmon i s) := by
  unfold Dwm.tagswapmon
  split
  · exact h
  · rename_i hlen
    dsimp only
    obtain ⟨outC, hle, hinv⟩ := hfiled.inv
    have hhome := hc hlen
    have hsc : ∀ d ∈ s.selM.clients.filter s.visible,
        d ∈ s.clientsOf s.selmon ∧ s.visible d = true := fun d hd => List.mem_filter.mp hd
    have hscnd : (s.selM.clients.filter s.visible).Nodup :=
      (hinv.clients.nodup _ hfiled.selmon).filter _
    have hout := unsized_withdrawAll (s.selM.clients.filter s.visible) s
    have hrel := relinked_withdrawAll (s.selM.clients.filter s.visible) s
    have hinv₁ := hinv.withdrawAll (s.selM.clients.filter s.visible)
    have hsub := clientsOf_withdrawAll_subset (s.selM.clients.filter s.visible) s (dirtomon i s)
    generalize s.selM.clients.filter s.visible = sc at *
    generalize sc.foldl (fun s c => withdraw c s) s = s₁ at hout hrel hinv₁ hsub ⊢
    have hm₁ : dirtomon i s ∈ s₁.mons := hrel.mons ▸ dirtomon_mem i hfiled.selmon
    have hmc : ∀ d ∈ (s₁.monitor (dirtomon i s)).clients.filter s₁.visible,
        d ∈ s₁.clientsOf (dirtomon i s) ∧ s₁.visible d = true := fun d hd =>
      List.mem_filter.mp hd
    have hmcnd : ((s₁.monitor (dirtomon i s)).clients.filter s₁.visible).Nodup :=
      (hinv₁.clients.nodup _ hm₁).filter _
    have hout₂ := unsized_withdrawAll ((s₁.monitor (dirtomon i s)).clients.filter s₁.visible) s₁
    generalize (s₁.monitor (dirtomon i s)).clients.filter s₁.visible = mc at *
    generalize mc.foldl (fun s c => withdraw c s) s₁ = s₂ at hout₂ ⊢
    have h₂ := (h.unsized hout).unsized hout₂
    have hgeom : s₂.geom c = s.geom c := by rw [hout₂.geom, hout.geom]
    obtain ⟨h₃, hgeom₃⟩ := h₂.settleAll (fun _ => dirtomon i s) (l := sc.reverse)
      (List.nodup_reverse.mpr hscnd) fun hmem => by
        obtain ⟨hlist, hvis⟩ := hsc c (List.mem_reverse.mp hmem)
        exact (hhome ⟨hvis, Or.inl hlist⟩).congr hgeom
    obtain ⟨h₄, -⟩ := h₃.settleAll (fun s => s.selmon) (l := mc.reverse)
      (List.nodup_reverse.mpr hmcnd) fun hmem => by
        obtain ⟨hlist, hvis⟩ := hmc c (List.mem_reverse.mp hmem)
        have hsc' : c ∉ sc.reverse := fun hmem' =>
          (hinv₁.clients.owned _ hm₁ c hlist).2.2 (Or.inr (List.mem_reverse.mp hmem'))
        rw [hrel.visible] at hvis
        exact (hhome ⟨hvis, Or.inr (hsub c hlist)⟩).congr ((hgeom₃ hsc').trans hgeom)
    exact h₄.focus.arrange

/-! ## Clients that come and go -/

theorem Saved.manage {w : Window} {i : WinInfo} (h : Saved c k s) (hcd : c ≠ d) :
    Saved c k (manage d w i s) := by
  have hnew : Saved c k (newclient d w i s) :=
    h.same (Function.update_of_ne hcd ..) (Function.update_of_ne hcd ..)
      (Function.update_of_ne hcd ..)
  have hadopt : ∀ (o : Option ClientId) {u : State}, Saved c k u → Saved c k (adopt d o i u) := by
    intro o u hu
    cases o with
    | some e =>
        unfold adopt
        exact hu.modClient_of_ne hcd
    | none =>
        have hfold : ∀ (rs : List Rule) {v : State}, Saved c k v →
            Saved c k (rs.foldl (fun s r =>
              let m := s.mons.find? fun m => (s.monitor m).num = r.monitor
              s.modClient d fun k => { k with
                isfloating := r.isfloating, tags := k.tags ||| r.tags, mon := m.getD k.mon })
              v) := by
          intro rs
          induction rs with
          | nil => exact fun hv => hv
          | cons r rs ih => exact fun hv => ih (hv.modClient_of_ne hcd)
        unfold adopt applyrules
        exact (hfold _ (hu.modClient_of_ne hcd)).modClient_of_ne hcd
  have hdress : ∀ {u : State}, Saved c k u → Saved c k (dress d i u) := by
    intro u hu
    unfold dress
    exact ((((hu.modGeom_of_ne hcd).updatewindowtype.modClient_of_ne hcd).updatemotifhints
      fun hcd' => absurd hcd' hcd).modGeom_of_ne hcd).modClient_of_ne hcd
  have henroll : ∀ {u : State}, Saved c k u → Saved c k (enroll d u) := by
    intro u hu
    have hback : Saved c k (Dwm.attachstack d (Dwm.attachx attachmode d u)) :=
      hu.attachx.attachstack
    unfold enroll enlist
    generalize Dwm.attachstack d (Dwm.attachx attachmode d u) = v at hback ⊢
    exact (Saved.ite hback.unfocus hback).modMon.arrange.focus
  unfold Dwm.manage
  exact .ite h (henroll (hdress (hadopt _ hnew)))

theorem Saved.maprequest {w : Window} {i : WinInfo} (h : Saved c k s) :
    Post (maprequest d w i s) (Saved c k) := by
  unfold Dwm.maprequest
  split
  · exact post_error _
  · rename_i hlive
    split
    · exact (post_ok _).mpr h
    · refine (post_ok _).mpr (h.manage fun hcd => ?_)
      subst hcd
      exact hlive h.live

theorem Saved.unmanage (h : Saved c k s) (hcd : c ≠ d) : Saved c k (unmanage d s) := by
  have hout : Saved c k (Dwm.detachstack d (Dwm.detach d s)) := h.detach.detachstack
  unfold Dwm.unmanage
  dsimp only
  generalize Dwm.detachstack d (Dwm.detach d s) = v at hout ⊢
  have hfree : Saved c k { v with live := Function.update v.live d false } :=
    hout.same (Function.update_of_ne hcd ..) rfl rfl
  exact hfree.focus.arrange

/-! ## `configurenotify` -/

theorem unsized_rehome (m : MonId) (d : ClientId) (s : State) : Unsized s (rehome m d s) := by
  unfold rehome
  exact (Unsized.refl s).modMon.detachstack.modClient.attach.attachstack

theorem unsized_removemon (m : MonId) (s : State) : Unsized s (removemon m s) := by
  have hloop : ∀ (cs : List ClientId) (u : State),
      Unsized u (cs.foldl (fun s c => rehome m c s) u) := by
    intro cs
    induction cs with
    | nil => exact fun u => .refl u
    | cons d cs ih => exact fun u => (unsized_rehome m d u).trans (ih _)
  have hall := hloop (s.monitor m).clients s
  unfold removemon
  generalize (s.monitor m).clients.foldl (fun s c => rehome m c s) s = v at hall ⊢
  dsimp only
  split
  · exact hall.trans (.of_client rfl rfl rfl)
  · exact hall.trans (.of_client rfl rfl rfl)

theorem unsized_removemons (n : Nat) (s : State) (b : Bool) :
    Unsized s (removemons n (s, b)).1 := by
  induction n generalizing s b with
  | zero => exact .refl s
  | succ n ih => exact (unsized_removemon _ s).trans (ih _ _)

theorem unsized_fitAll (n i : Nat) (ms : List MonId) (rs : List Screen) (s : State) (b : Bool) :
    Unsized s (fitAll n i ms rs (s, b)).1 := by
  induction ms generalizing i rs s b with
  | nil => cases rs <;> exact .refl s
  | cons m ms ih =>
      cases rs with
      | nil => exact .refl s
      | cons r rs =>
          rw [fitAll]
          split
          · have hfit : Unsized s (s.modSettings m (Settings.fit s.bh i r)) := (Unsized.refl s).modMon
            exact hfit.trans (ih _ _ _ _)
          · exact ih _ _ _ _

/-- **`updategeom`** places no client. -/
theorem unsized_updategeom (l : Layouts) (s : State) :
    Post (updategeom l s) fun r => Unsized s r.1 := by
  have hadds : ∀ (A : Type) (l : List A) (u : State),
      Unsized u (l.foldl (fun s _ => addmon s) u) := by
    intro A l
    induction l with
    | nil => exact fun u => .refl u
    | cons a l ih =>
        intro u
        have hadd : Unsized u (addmon u) := .of_client rfl rfl rfl
        exact hadd.trans (ih _)
  have hloops : Unsized s (refitScreens l s).1 := by
    unfold refitScreens
    split
    · rename_i info _
      have hadd := hadds _ (List.range ((uniqueScreens info).length - s.mons.length)) s
      unfold refit
      dsimp only
      generalize (List.range ((uniqueScreens info).length - s.mons.length)).foldl
        (fun s _ => addmon s) s = v at hadd ⊢
      have hfit := unsized_fitAll s.mons.length 0 v.mons (uniqueScreens info) v false
      generalize fitAll s.mons.length 0 v.mons (uniqueScreens info) (v, false) = r at hfit ⊢
      exact (hadd.trans hfit).trans (unsized_removemons _ _ _)
    · have hfirst : ∀ u : State, Unsized u (fitFirst u).1 := by
        intro u
        unfold fitFirst
        dsimp only
        split
        · exact .of_client rfl rfl rfl
        · exact .refl u
      have hadd : Unsized s (if s.mons = [] then addmon s else s) := by
        split
        · exact .of_client rfl rfl rfl
        · exact .refl s
      exact hadd.trans (hfirst _)
  unfold updategeom
  split
  · exact post_error _
  · dsimp only
    split
    · exact (post_ok _).mpr (hloops.trans (.of_client rfl rfl rfl))
    · exact (post_ok _).mpr hloops

theorem Saved.refill {l : List ClientId} (h : Saved c k s) (hnd : l.Nodup)
    (hc : c ∈ l → AtHome c s) :
    Saved c k (refill m l s) ∧ (c ∉ l → (refill m l s).geom c = s.geom c) := by
  unfold Dwm.refill
  induction l generalizing s with
  | nil => exact ⟨h, fun _ => rfl⟩
  | cons d l ih =>
      obtain ⟨hd, hnd⟩ := List.nodup_cons.mp hnd
      have hstep : Saved c k (if (s.client d).isfullscreen then s.resizeclient d
            ⟨(s.monitor m).mx, (s.monitor m).my, (s.monitor m).mw, (s.monitor m).mh⟩ else s) ∧
          (c ≠ d → (if (s.client d).isfullscreen then s.resizeclient d
            ⟨(s.monitor m).mx, (s.monitor m).my, (s.monitor m).mw, (s.monitor m).mh⟩
            else s).geom c = s.geom c) := by
        split
        · refine ⟨?_, fun hcd => Dwm.resizeclient_of_ne hcd⟩
          by_cases hcd : c = d
          · subst hcd
            exact h.resizeclient (hc List.mem_cons_self)
          · exact h.resizeclient_of_ne hcd
        · exact ⟨h, fun _ => rfl⟩
      rw [List.foldl_cons]
      have hrest := ih hstep.1 hnd fun hmem => by
        have hcd : c ≠ d := fun hcd => hd (hcd ▸ hmem)
        exact (hc (List.mem_cons_of_mem d hmem)).congr (hstep.2 hcd)
      refine ⟨hrest.1, fun hmem => ?_⟩
      obtain ⟨hcd, hmem⟩ := not_or.mp (mt List.mem_cons.mpr hmem)
      exact (hrest.2 hmem).trans (hstep.2 hcd)

/-- The loops of `configurenotify` come to a client once, on its own monitor. -/
theorem Saved.refillAll {l : List MonId} {L : MonId → List ClientId} (h : Saved c k s)
    (hL : s.clientsOf = L) (hnd : l.Nodup) (hcs : ∀ m ∈ l, (L m).Nodup)
    (hown : ∀ m ∈ l, c ∈ L m → m = s.own c) (hhome : ∀ m ∈ l, c ∈ L m → AtHome c s) :
    Saved c k (l.foldl (fun s m => Dwm.refill m (s.monitor m).clients s) s) := by
  induction l generalizing s with
  | nil => exact h
  | cons m l ih =>
      obtain ⟨hm, hnd⟩ := List.nodup_cons.mp hnd
      have hlist : (s.monitor m).clients = L m := congrFun hL m
      have hred := redrawn_refill m (L m) s
      obtain ⟨hstep, hgeom⟩ := h.refill (m := m) (hcs m List.mem_cons_self)
        (hhome m List.mem_cons_self)
      have hL' : (Dwm.refill m (L m) s).clientsOf = L := by
        rw [hred.unmoved.clientsOf]
        exact hL
      have hown' : (Dwm.refill m (L m) s).own = s.own := hred.unmoved.own
      rw [List.foldl_cons, hlist]
      refine ih hstep hL' hnd (fun i hi => hcs i (List.mem_cons_of_mem m hi))
        (fun i hi hmem => ?_) fun i hi hmem => ?_
      · rw [hown']
        exact hown i (List.mem_cons_of_mem m hi) hmem
      · have hnot : c ∉ L m := fun hmem' => hm (by
          rw [hown m List.mem_cons_self hmem',
            ← hown i (List.mem_cons_of_mem m hi) hmem]
          exact hi)
        exact (hhome i (List.mem_cons_of_mem m hi) hmem).congr (hgeom hnot)

/-- `configurenotify` leaves the saved geometry alone: it has nothing to do, or
the client is on no list, or it has the saved geometry. -/
def RefillSpares (c : ClientId) (w h : Int) (l : Layouts) (s : State) : Prop :=
  ∀ r, updategeom l { s with sw := w, sh := h } = .ok r →
    r.2 = true ∨ (s.sw ≠ w ∨ s.sh ≠ h) → (∃ m ∈ r.1.mons, c ∈ r.1.clientsOf m) → AtHome c s

/-- **`configurenotify`** places every fullscreen client again. -/
theorem Saved.configurenotify {w x : Int} {l : Layouts} (h : Saved c k s)
    (hfiled : Filed lost base s) (hc : RefillSpares c w x l s) :
    Post (configurenotify w x l s) (Saved c k) := by
  have hsize : Filed lost base { s with sw := w, sh := x } :=
    hfiled.redrawn ⟨rfl, rfl, rfl, rfl, rfl, rfl, rfl⟩
  have hun : Unsized s { s with sw := w, sh := x } := .of_client rfl rfl rfl
  have hboth : Post (updategeom l { s with sw := w, sh := x }) fun r =>
      Unsized s r.1 ∧ Filed lost base r.1 ∧
        (r.2 = true ∨ (s.sw ≠ w ∨ s.sh ≠ x) → (∃ m ∈ r.1.mons, c ∈ r.1.clientsOf m) →
          AtHome c s) := fun r hr =>
    ⟨hun.trans (unsized_updategeom l _ r hr), hsize.updategeom l r hr, hc r hr⟩
  unfold Dwm.configurenotify
  refine hboth.bind fun r hr => ?_
  obtain ⟨hun, hfiled', hhome⟩ := hr
  obtain ⟨outC, -, hinv⟩ := hfiled'.inv
  dsimp only
  split
  · rename_i hdirty
    refine (post_pure _).mpr (Saved.focus ?_).arrange
    exact (h.unsized hun).refillAll rfl hinv.nodup (fun m hm => hinv.clients.nodup m hm)
      (fun m hm hmem => (hinv.clients.owned m hm c hmem).2.1.symm)
      fun m hm hmem => (hhome hdirty ⟨m, hm, hmem⟩).congr (congrFun hun.geom c)
  · exact (post_pure _).mpr (h.unsized hun)

end Dwm
