import Zzdwm.Dwm.Mouse
import Zzdwm.Lib.Machine

/-!
# The event handlers

`updategeom`, the handlers of `handler[]`, `setup` and the step function of
the window manager.  `expose`, `focusin` and `mappingnotify` change nothing
that the model keeps.

* `setup` — the state in which the event loop starts;
* `step` — one handled event.

`scan` manages the windows that exist already, each of them once; such a
start is `setup` followed by the map requests of those windows.
-/

namespace Dwm

/-- `createmon`. -/
def createmon : Monitor where
  mfact := mfact
  smfact := smfact
  dmfact := dmfact
  zmfact := zmfact
  nmaster := nmaster
  num := 0
  by' := 0
  mx := 0
  my := 0
  mw := 0
  mh := 0
  wx := 0
  wy := 0
  ww := 0
  wh := 0
  gappx := gappx
  drawwithgaps := startwithgaps
  seltags := false
  sellt := false
  tagset := fun _ => 1#32
  showbar := showbar
  topbar := topbar
  lt := fun b => if b then .floating else .tile
  clients := []
  stack := []
  sel := none
  tagmarked := fun _ => none
  pertag := {
    curtag := 1
    prevtag := 1
    nmasters := fun _ => nmaster
    mfacts := fun _ => mfact
    smfacts := fun _ => smfact
    dmfacts := fun _ => dmfact
    zmfacts := fun _ => zmfact
    sellts := fun _ => false
    ltidxs := fun _ b => if b then .floating else .tile }

/-- Append a new monitor to `mons`. -/
def addmon (s : State) : State :=
  { s with
    mons := s.mons ++ [s.nextmon]
    monitor := Function.update s.monitor s.nextmon createmon
    nextmon := s.nextmon + 1 }

/-- A screen as Xinerama reports it. -/
abbrev Screen := Rect

/-- The unique geometries among the reported screens. -/
def uniqueScreens (info : List Screen) : List Screen :=
  info.foldl (fun u r => if r ∈ u then u else u ++ [r]) []

/-- Fit monitor number `i` to a screen. -/
def Settings.fit (bh : Int) (i : Int) (r : Screen) (m : Settings) : Settings :=
  Settings.updatebarpos bh { m with
    num := i
    mx := r.x, wx := r.x, my := r.y, wy := r.y
    mw := r.w, ww := r.w, mh := r.h, wh := r.h }

/-- The second loop of `updategeom`: fit the monitors to the screens.  `n` is
how many monitors there were before. -/
def fitAll (n : Nat) : Nat → List MonId → List Screen → State × Bool → State × Bool
  | i, m :: ms, r :: rs, (s, dirty) =>
      let k := s.monitor m
      if i ≥ n ∨ r ≠ ⟨k.mx, k.my, k.mw, k.mh⟩ then
        fitAll n (i + 1) ms rs (s.modSettings m (Settings.fit s.bh i r), true)
      else fitAll n (i + 1) ms rs (s, dirty)
  | _, _, _, a => a

/-- One round of the inner loop over a removed monitor: its first client moves
to the first monitor. -/
def rehome (m : MonId) (c : ClientId) (s : State) : State :=
  let s := s.modMon m fun k => { k with clients := k.clients.tail }
  let s := detachstack c s
  let s := s.modClient c fun k => { k with mon := s.mons.headD m }
  attachstack c (attach c s)

/-- `cleanupmon`. -/
def cleanupmon (m : MonId) (s : State) : State := { s with mons := s.mons.erase m }

/-- One round of the third loop of `updategeom`, for the monitor that goes. -/
def removemon (m : MonId) (s : State) : State :=
  let s := (s.monitor m).clients.foldl (fun s c => rehome m c s) s
  let s := if m = s.selmon then { s with selmon := s.mons.headD s.selmon } else s
  cleanupmon m s

/-- The third loop of `updategeom`: the last monitor goes, `n` times. -/
def removemons : Nat → State × Bool → State × Bool
  | 0, a => a
  | n + 1, (s, dirty) =>
      let m := s.mons.getLastD s.selmon
      removemons n (removemon m s, dirty || !(s.monitor m).clients.isEmpty)

/-- What `updategeom` asks the X server for: the screens of an active
Xinerama, and where the pointer is. -/
structure Layouts where
  screens : Option (List Screen)
  pointer : Option (Int × Int)

/-- `wintomon(root)`. -/
def rootmon (pointer : Option (Int × Int)) (s : State) : MonId :=
  match pointer with
  | some (x, y) => recttomon x y 1 1 s
  | none => s.selmon

/-- The loops of `updategeom` over the screens of an active Xinerama. -/
def refit (info : List Screen) (s : State) : State × Bool :=
  let unique := uniqueScreens info
  let n := s.mons.length
  let s := (List.range (unique.length - n)).foldl (fun s _ => addmon s) s
  removemons (n - unique.length) (fitAll n 0 s.mons unique (s, false))

/-- Fit the first monitor to the size of the display. -/
def fitFirst (s : State) : State × Bool :=
  let m := s.mons.headD s.selmon
  let k := s.monitor m
  if k.mw ≠ s.sw ∨ k.mh ≠ s.sh then
    (s.modSettings m fun k => Settings.updatebarpos s.bh { k with
      mw := s.sw, ww := s.sw, mh := s.sh, wh := s.sh }, true)
  else (s, false)

/-- The default monitor setup of `updategeom`. -/
def refitOne (s : State) : State × Bool := fitFirst (if s.mons = [] then addmon s else s)

/-- The loops of `updategeom`. -/
def refitScreens (l : Layouts) (s : State) : State × Bool :=
  match l.screens with
  | some info => refit info s
  | none => refitOne s

/-- The end of `updategeom` if something changed: the monitor under the
pointer is selected. -/
def selectRoot (pointer : Option (Int × Int)) (s : State) : State :=
  let s := { s with selmon := s.mons.headD s.selmon }
  { s with selmon := rootmon pointer s }

/-- `updategeom`.  An active Xinerama reports at least one screen. -/
def updategeom (l : Layouts) (s : State) : Except Fault (State × Bool) :=
  if l.screens = some [] then .error .illegal
  else
    let r := refitScreens l s
    if r.2 then .ok (selectRoot l.pointer r.1, true) else .ok (r.1, false)

/-- `resizeclient` for every fullscreen client of a list. -/
def refill (m : MonId) (cs : List ClientId) (s : State) : State :=
  cs.foldl (fun s c =>
    if (s.client c).isfullscreen then
      s.resizeclient c ⟨(s.monitor m).mx, (s.monitor m).my, (s.monitor m).mw, (s.monitor m).mh⟩
    else s) s

/-- `configurenotify` for the root window. -/
def configurenotify (w h : Int) (l : Layouts) (s : State) : Except Fault State := do
  let resized := s.sw ≠ w ∨ s.sh ≠ h
  let (s, dirty) ← updategeom l { s with sw := w, sh := h }
  if dirty ∨ resized then
    let s := s.mons.foldl (fun s m => refill m (s.monitor m).clients s) s
    return arrange none (focus none s)
  else return s

/-- The client messages that dwm answers.  `_NET_WM_STATE` carries an action
and up to two atoms, `_NET_WM_DESKTOP` a word. -/
inductive Message
  | netWMState (action : Int) (fullscreen sticky : Bool)
  | netActiveWindow
  | netWMDesktop (data : Int)
  | netCloseWindow
  | other

/-- The branch of `clientmessage` for `_NET_ACTIVE_WINDOW`. -/
def activate (c : ClientId) (s : State) : State :=
  let i := lowestTag (s.client c).tags
  if i < ntags then focus (some c) (view (tagBit i) { s with selmon := s.own c }) else s

/-- The branch of `clientmessage` for `_NET_WM_DESKTOP`: the word is stored as
it comes, truncated to an `unsigned int`. -/
def setdesktop (c : ClientId) (data : Int) (s : State) : State :=
  arrange (s.own c) (s.modClient c fun k => { k with tags := BitVec.ofInt 32 data })

/-- `clientmessage`. -/
def clientmessage (w : Window) (m : Message) (s : State) : State :=
  match s.wintoclient w with
  | some c =>
      match m with
      | .netWMState a fullscreen sticky =>
          let s := if fullscreen then
              setfullscreen c (a = 1 || a = 2 && !(s.client c).isfullscreen) s
            else s
          if sticky then setsticky c (a = 1 || a = 2 && !(s.client c).issticky) s else s
      | .netActiveWindow => activate c s
      | .netWMDesktop data => setdesktop c data s
      | .netCloseWindow => s
      | .other => s
  | none => s

/-- The properties whose change dwm follows. -/
inductive Property
  | transientFor (parent : Option Window)
  | windowType (state : NetState) (dialog : Bool)
  | motifHints (border : Option Bool)
  | other

/-- `propertynotify`. -/
def propertynotify (w : Window) (p : Property) (s : State) : State :=
  match s.wintoclient w with
  | some c =>
      match p with
      | .transientFor parent =>
          if !(s.client c).isfloating && (parent.bind s.wintoclient).isSome then
            arrange (s.own c) (s.modClient c fun k => { k with isfloating := true })
          else s
      | .windowType state dialog => updatewindowtype c state dialog s
      | .motifHints border => updatemotifhints c border s
      | .other => s
  | none => s

/-- `destroynotify`, and `unmapnotify` for an event the server sent. -/
def destroynotify (w : Window) (s : State) : State :=
  match s.wintoclient w with
  | some c => unmanage c s
  | none => s

/-- `unmapnotify`.  A synthetic event only sets a property of the window. -/
def unmapnotify (w : Window) (sendevent : Bool) (s : State) : State :=
  if sendevent then s else destroynotify w s

/-- The window a button was pressed on.  For a bar, `part` is where on it. -/
inductive Target
  | root (pointer : Option (Int × Int))
  | bar (m : MonId) (part : Click)
  | window (w : Window)

/-- `wintomon`. -/
def wintomon (t : Target) (s : State) : MonId :=
  match t with
  | .root pointer => rootmon pointer s
  | .bar m _ => if m ∈ s.mons then m else s.selmon
  | .window w =>
      match s.wintoclient w with
      | some c => s.own c
      | none => s.selmon

/-- The parts of a bar that a press can fall on. -/
def Click.onBar : Click → Bool
  | .tagBar i => i < ntags
  | .ltSymbol | .statusText | .winTitle => true
  | _ => false

/-- What `buttonpress` makes of a press before it looks at `buttons[]`. -/
def press (t : Target) (wheel : Bool) (s : State) : State × Click :=
  let m := wintomon t s
  let s := if m ≠ s.selmon ∧ (focusonwheel ∨ !wheel) then
      focus none { unfocus s.sel s with selmon := m }
    else s
  match t with
  | .root _ => (s, .rootWin)
  | .bar m part => (s, if m = s.selmon ∧ part.onBar then part else .rootWin)
  | .window w =>
      match s.wintoclient w with
      | some c => (if focusonwheel ∨ !wheel then focus (some c) s else s, .clientWin)
      | none => (s, .rootWin)

/-- Does a button binding wait for this click? -/
def Click.awaits : Click → Click → Bool
  | .tagBar _, .tagBar _ => true
  | a, b => a = b

/-- The argument that a button binding is run with. -/
def buttonArg (click : Click) (a : Arg) : Arg :=
  match click with
  | .tagBar i => if a.int = 0 then .ui (tagBit i) else a
  | _ => a

/-- `buttonpress`; `b` is the entry of `buttons[]` that button and modifiers
select, if any, and `wheel` tells a scroll button. -/
def buttonpress (t : Target) (wheel : Bool) (b : Option (Click × Binding)) (d : Drag)
    (s : State) : Except Fault State :=
  let (s, click) := press t wheel s
  match b with
  | some (waits, f, a) =>
      if (waits, f, a) ∈ buttons ∧ waits.awaits click then runButton d (f, buttonArg click a) s
      else .ok s
  | none => .ok s

/-- `keypress`; `cls` is what `XGetClassHint` answers meanwhile. -/
def keypress (k : Binding) (cls : Window → Option String) (s : State) : Except Fault State :=
  if k ∈ keys then runKey cls k s else .ok s

/-- The events of `handler[]`. -/
inductive Event
  | buttonpress (t : Target) (wheel : Bool) (b : Option (Click × Binding)) (d : Drag)
  | clientmessage (w : Window) (m : Message)
  | configurenotify (w h : Int) (l : Layouts)
  | configurerequest (w : Window) (r : ConfRequest)
  | destroynotify (w : Window)
  | keypress (k : Binding) (cls : Window → Option String)
  | maprequest (c : ClientId) (w : Window) (i : WinInfo)
  | propertynotify (w : Window) (p : Property)
  | unmapnotify (w : Window) (sendevent : Bool)

/-- `handler[ev.type](&ev)`. -/
def step (e : Event) (s : State) : Except Fault State :=
  match e with
  | .buttonpress t wheel b d => buttonpress t wheel b d s
  | .clientmessage w m => .ok (clientmessage w m s)
  | .configurenotify w h l => configurenotify w h l s
  | .configurerequest w r => .ok (configurerequest w r s)
  | .destroynotify w => .ok (destroynotify w s)
  | .keypress k cls => keypress k cls s
  | .maprequest c w i => maprequest c w i s
  | .propertynotify w p => .ok (propertynotify w p s)
  | .unmapnotify w sendevent => .ok (unmapnotify w sendevent s)

/-- The state before `setup`: no monitor, no client. -/
def State.empty (sw sh bh lrpad : Int) : State where
  client := fun _ => ⟨⟨0, 0#32, 0, false⟩, false, false, false, false, false, false⟩
  geom := fun _ => Geom.zero
  live := fun _ => false
  monitor := fun _ => createmon
  mons := []
  selmon := 0
  nextmon := 0
  prevclient := none
  sw := sw
  sh := sh
  bh := bh
  lrpad := lrpad

/-- `setdeflayouts`. -/
def setdeflayouts (s : State) : State :=
  let s := (taglayouts.zipIdx).foldl (fun s (l, i) =>
    if l ≠ 0 then setlayout layouts[l]? (view (tagBit i) s) else s) s
  view (tagBit ((deftag - 1) % ntags)) s

/-- The display that dwm is started on. -/
structure Display where
  sw : Int
  sh : Int
  bh : Int
  lrpad : Int
  layouts : Layouts

/-- `setup`.  A display has a positive size. -/
def setup (d : Display) : Except Fault State := do
  if d.sw ≤ 0 ∨ d.sh ≤ 0 then throw .illegal
  let (s, _) ← updategeom d.layouts (State.empty d.sw d.sh d.bh d.lrpad)
  return focus none (setdeflayouts s)

/-- The states that the event loop can reach, all events meeting the guard. -/
def Reachable (ok : Event → State → Prop) (s : State) : Prop :=
  ∃ d s₀ es, setup d = .ok s₀ ∧ Machine.Run step ok s₀ es s

/-- Start on a display and handle some events. -/
def play (d : Display) (es : List Event) : Except Fault State :=
  setup d >>= Machine.exec step es

/-- A play of events that meet the guard in every state. -/
theorem reachable_play_of {ok : Event → State → Prop} {d : Display} {es : List Event} {s : State}
    (h : play d es = .ok s) (hok : ∀ e ∈ es, ∀ t, ok e t) : Reachable ok s := by
  unfold play at h
  cases hs : setup d with
  | error f =>
      rw [hs] at h
      cases h
  | ok s₀ =>
      rw [hs] at h
      exact ⟨d, s₀, es, hs, (Machine.Run.exec.mpr h).guarded hok⟩

theorem reachable_play {d : Display} {es : List Event} {s : State} (h : play d es = .ok s) :
    Reachable Machine.Any s :=
  reachable_play_of h fun _ _ _ => trivial

/-- Reaching a state and handling one more event. -/
theorem Reachable.step {ok : Event → State → Prop} {e : Event} {s t : State}
    (h : Reachable ok s) (hok : ok e s) (ht : Dwm.step e s = .ok t) : Reachable ok t := by
  obtain ⟨d, s₀, es, hs, hrun⟩ := h
  exact ⟨d, s₀, es ++ [e], hs, hrun.append (.cons hok ht (.nil t))⟩

/-- **Invariant rule.**  What holds when the event loop starts and is preserved
by every event that meets the guard in a state reached so far holds in every
state it reaches. -/
theorem Reachable.invariant {ok : Event → State → Prop} (P : State → Prop)
    (hstart : ∀ d, Machine.Post (setup d) P)
    (hstep : ∀ e s, Reachable ok s → P s → ok e s → Machine.Post (Dwm.step e s) P)
    {s : State} (h : Reachable ok s) : P s := by
  obtain ⟨d, s₀, es, hs, hrun⟩ := h
  have hstart₀ : Reachable ok s₀ ∧ P s₀ := ⟨⟨d, s₀, [], hs, .nil s₀⟩, hstart d s₀ hs⟩
  refine (hrun.preserves (fun s => Reachable ok s ∧ P s) ?_ hstart₀).2
  rintro e u t ⟨hreach, hP⟩ hok ht
  exact ⟨hreach.step hok ht, hstep e u hreach hP hok t ht⟩

theorem Reachable.mono {ok ok' : Event → State → Prop} (hle : ∀ e s, ok e s → ok' e s)
    {s : State} (h : Reachable ok s) : Reachable ok' s := by
  obtain ⟨d, s₀, es, hs, hrun⟩ := h
  exact ⟨d, s₀, es, hs, hrun.mono hle⟩

/-- A display with one screen. -/
def oneScreen : Display where
  sw := 1000
  sh := 800
  bh := 20
  lrpad := 20
  layouts := ⟨some [⟨0, 0, 1000, 800⟩], some (5, 5)⟩

/-- A window without any hints. -/
def plainWindow : WinInfo where
  x := 0
  y := 0
  width := 300
  height := 200
  border := 0
  desktop := false
  transient := none
  title := ""
  class_ := ""
  instance_ := ""
  state := .other
  dialog := false
  fixed := false
  motif := none

/-- Press a key while no window has a class. -/
def Event.press (f : Func) (a : Arg) : Event := .keypress (f, a) fun _ => none

end Dwm
