import Zzdwm.Dwm.Geometry

/-!
# The client lists and the focus

The routines that splice the two lists of a monitor, and `focus`, `unfocus`,
`pop`, `sendmon`, `manage` and `unmanage`, which are built from them.

`detach` and `detachstack` walk a list until they meet the client; on a list
that does not hold it they leave the list alone (the last link is overwritten
with the `next` of a client that is on no list, which is `NULL`).
-/

namespace Dwm

/-- `detach`.  The marks of the last tag (`i = LENGTH(tags)`) are not cleared:
the loop stops one short of them. -/
def detach (c : ClientId) (s : State) : State :=
  s.modMon (s.own c) fun m => { m with
    tagmarked := fun i =>
      if 1 ≤ i ∧ i < ntags ∧ m.tagmarked i = some c then none else m.tagmarked i
    clients := m.clients.erase c }

/-- `detachstack`. -/
def detachstack (c : ClientId) (s : State) : State :=
  let t := s.modMon (s.own c) fun m => { m with stack := m.stack.erase c }
  if (s.monOf c).sel = some c then
    t.modMon (s.own c) fun m => { m with sel := t.firstVisible (s.own c) }
  else t

/-- `attach`. -/
def attach (c : ClientId) (s : State) : State :=
  s.modMon (s.own c) fun m => { m with clients := c :: m.clients }

/-- `attachstack`. -/
def attachstack (c : ClientId) (s : State) : State :=
  s.modMon (s.own c) fun m => { m with stack := c :: m.stack }

/-- `enqueue`.  On an empty list there is no last client to hang `c` on, and
the list stays empty. -/
def enqueue (c : ClientId) (s : State) : State :=
  s.modMon (s.own c) fun m => { m with
    clients := if m.clients = [] then [] else m.clients ++ [c] }

/-- `enqueuestack`. -/
def enqueuestack (c : ClientId) (s : State) : State :=
  s.modMon (s.own c) fun m => { m with
    stack := if m.stack = [] then [] else m.stack ++ [c] }

/-- Link `c` in before the first `r` of a list. -/
def linkBefore (r c : ClientId) : List ClientId → List ClientId
  | [] => [c]
  | d :: ds => if d = r then c :: d :: ds else d :: linkBefore r c ds

/-- Link `c` in after the first `r` of a list. -/
def linkAfter (r c : ClientId) : List ClientId → List ClientId
  | [] => [c]
  | d :: ds => if d = r then d :: c :: ds else d :: linkAfter r c ds

/-- `attachx`: 1 above, 2 aside, 3 below, 4 bottom, else master. -/
def attachx (mode : Nat) (c : ClientId) (s : State) : State :=
  let m := s.monOf c
  let link (f : List ClientId → List ClientId) :=
    s.modMon (s.own c) fun m => { m with clients := f m.clients }
  match mode, m.sel with
  | 1, some r =>
      if m.clients.head? = some r || (s.client r).isfloating then attach c s
      else link (linkBefore r c)
  | 2, _ =>
      let tiled := m.clients.filter fun a =>
        !(s.client a).isfloating && s.visibleOn a (s.client c).tags
      if m.nmaster = 0 then attach c s
      else match tiled[(max m.nmaster 1).toNat - 1]? with
        | some r => link (linkAfter r c)
        | none => attach c s
  | 3, some r =>
      if (s.client r).isfloating then attach c s else link (linkAfter r c)
  | 4, _ => if m.clients = [] then attach c s else link (· ++ [c])
  | _, _ => attach c s

/-- `unfocus`. -/
def unfocus (c : Option ClientId) (s : State) : State :=
  match c with
  | some c => { s with prevclient := some c }
  | none => s

/-- The client that `focus(c)` settles on. -/
def focusTarget (c : Option ClientId) (s : State) : Option ClientId :=
  match c with
  | some c => if s.visible c then some c else s.firstVisible s.selmon
  | none => s.firstVisible s.selmon

/-- `focus`. -/
def focus (c : Option ClientId) (s : State) : State :=
  let c := focusTarget c s
  let s := if s.sel ≠ none ∧ s.sel ≠ c then unfocus s.sel s else s
  match c with
  | some c =>
      let s := attachstack c (detachstack c { s with selmon := s.own c })
      s.modMon s.selmon fun m => { m with sel := some c }
  | none => s.modMon s.selmon fun m => { m with sel := none }

/-- `pop`. -/
def pop (c : ClientId) (s : State) : State :=
  let i := lowestTag s.selM.tags + 1
  let s := s.modMon (s.own c) fun m => { m with
    tagmarked := Function.update m.tagmarked i (s.tiled (s.own c)).head? }
  let s := focus (some c) (attach c (detach c s))
  arrange (s.own c) s

/-- `sendmon`. -/
def sendmon (c : ClientId) (m : MonId) (s : State) : State :=
  if s.own c = m then s
  else
    let s := detachstack c (detach c (unfocus (some c) s))
    let s := s.modClient c fun k => { k with mon := m, tags := (s.monitor m).tags }
    let s := attachstack c (attachx attachmode c s)
    arrange none (focus none s)

/-- `setfullscreen`. -/
def setfullscreen (c : ClientId) (fullscreen : Bool) (s : State) : State :=
  if fullscreen && !(s.client c).isfullscreen then
    let s := s.modClient c fun k => { k with
      isfullscreen := true, oldstate := k.isfloating, isfloating := true }
    let s := s.modGeom c fun g => { g with oldbw := g.bw, bw := 0 }
    let m := s.monOf c
    s.resizeclient c ⟨m.mx, m.my, m.mw, m.mh⟩
  else if !fullscreen && (s.client c).isfullscreen then
    let s := s.modClient c fun k => { k with isfullscreen := false, isfloating := k.oldstate }
    let s := s.modGeom c fun g => { g with
      bw := g.oldbw, x := g.oldx, y := g.oldy, w := g.oldw, h := g.oldh }
    arrange (s.own c) (s.resizeclient c (s.rect c))
  else s

/-- `setsticky`. -/
def setsticky (c : ClientId) (sticky : Bool) (s : State) : State :=
  if sticky && !(s.client c).issticky then
    s.modClient c fun k => { k with issticky := true }
  else if !sticky && (s.client c).issticky then
    arrange (s.own c) (s.modClient c fun k => { k with issticky := false })
  else s

/-- The value of `_NET_WM_STATE` that `updatewindowtype` reads. -/
inductive NetState
  | fullscreen | sticky | other
  deriving DecidableEq

/-- `updatewindowtype`. -/
def updatewindowtype (c : ClientId) (state : NetState) (dialog : Bool) (s : State) : State :=
  let s := match state with
    | .fullscreen => setfullscreen c true s
    | .sticky => setsticky c true s
    | .other => s
  if dialog then s.modClient c fun k => { k with isfloating := true } else s

/-- `updatemotifhints`, `border` telling whether the hints ask for a border
if there are any. -/
def updatemotifhints (c : ClientId) (border : Option Bool) (s : State) : State :=
  match decorhints, border with
  | true, some b =>
      let g := s.geom c
      let bw := if b then borderpx else 0
      let t := s.modGeom c fun g => { g with bw := bw, oldbw := bw }
      t.resize c ⟨g.x, g.y, g.width - 2 * bw, g.height - 2 * bw⟩ false
  | _, _ => s

/-- What the X server tells about a window that is to be managed. -/
structure WinInfo where
  x : Int
  y : Int
  width : Int
  height : Int
  border : Int
  desktop : Bool
  transient : Option Window
  title : String
  class_ : String
  instance_ : String
  state : NetState
  dialog : Bool
  fixed : Bool
  motif : Option Bool

/-- Does the text stand somewhere in the list? -/
def occurs (needle : List Char) : List Char → Bool
  | [] => needle.isEmpty
  | x :: hay => needle.isPrefixOf (x :: hay) || occurs needle hay

/-- `strstr`. -/
def strstr (hay needle : String) : Bool := occurs needle.toList hay.toList

/-- Does a rule match? -/
def Rule.applies (r : Rule) (i : WinInfo) : Bool :=
  (r.title.all fun t => strstr i.title t) && (r.class_.all fun t => strstr i.class_ t)
    && (r.instance_.all fun t => strstr i.instance_ t)

/-- `applyrules`. -/
def applyrules (c : ClientId) (i : WinInfo) (s : State) : State :=
  let s := s.modClient c fun k => { k with isfloating := false, tags := 0#32 }
  let s := (rules.filter fun r => r.applies i).foldl (fun s r =>
    let m := s.mons.find? fun m => (s.monitor m).num = r.monitor
    s.modClient c fun k => { k with
      isfloating := r.isfloating, tags := k.tags ||| r.tags, mon := m.getD k.mon }) s
  let t := (s.client c).tags &&& tagmask
  s.modClient c fun k => { k with tags := if t ≠ 0#32 then t else (s.monOf c).tags }

/-- The client that `ecalloc` and the first assignments of `manage` make. -/
def newclient (c : ClientId) (w : Window) (i : WinInfo) (s : State) : State :=
  { s with
    client := Function.update s.client c
      ⟨⟨w, 0#32, s.selmon, false⟩, false, false, false, false, false, false⟩
    geom := Function.update s.geom c { Geom.zero with
      x := i.x, oldx := i.x, y := i.y, oldy := i.y, w := i.width, oldw := i.width,
      h := i.height, oldh := i.height, oldbw := i.border }
    live := Function.update s.live c true }

/-- `manage` gives the new client the monitor and the tags of the window it is
transient for, or applies the rules. -/
def adopt (c : ClientId) (t : Option ClientId) (i : WinInfo) (s : State) : State :=
  match t with
  | some t => s.modClient c fun k => { k with
      mon := (s.client t).mon, tags := (s.client t).tags }
  | none => applyrules c i s

/-- `manage` reads the hints of the window and places it. -/
def dress (c : ClientId) (i : WinInfo) (s : State) : State :=
  let m := s.monOf c
  let s := s.modGeom c fun g =>
    let x := if g.x + g.width > m.wx + m.ww then m.wx + m.ww - g.width else g.x
    let y := if g.y + g.height > m.wy + m.wh then m.wy + m.wh - g.height else g.y
    { g with x := max x m.wx, y := max y m.wy, bw := borderpx }
  let s := updatewindowtype c i.state i.dialog s
  let s := s.modClient c fun k => { k with isfixed := i.fixed }
  let s := updatemotifhints c i.motif s
  let s := s.modGeom c fun g => { g with
    x := m.mx + (m.mw - g.width).tdiv 2, y := m.my + (m.mh - g.height).tdiv 2 }
  s.modClient c fun k =>
    let f := i.transient.isSome || k.isfixed
    if k.isfloating then { k with wasfloating := false, ismax := false }
    else { k with wasfloating := false, ismax := false, isfloating := f, oldstate := f }

/-- `manage` puts the client on the lists of its monitor and selects it. -/
def enlist (c : ClientId) (s : State) : State :=
  let s := attachstack c (attachx attachmode c s)
  let s := if s.own c = s.selmon then unfocus s.sel s else s
  arrange (s.own c) (s.modMon (s.own c) fun m => { m with sel := some c })

/-- The end of `manage`. -/
def enroll (c : ClientId) (s : State) : State := focus none (enlist c s)

/-- `manage`: the new client is allocated at the address `c`. -/
def manage (c : ClientId) (w : Window) (i : WinInfo) (s : State) : State :=
  if i.desktop then s
  else
    enroll c (dress c i (adopt c (i.transient.bind s.wintoclient) i (newclient c w i s)))

/-- `unmanage`. -/
def unmanage (c : ClientId) (s : State) : State :=
  let m := s.own c
  let s := detachstack c (detach c s)
  let s := { s with live := Function.update s.live c false }
  arrange m (focus none s)

/-- `maprequest`; the allocator hands out the address `c`. -/
def maprequest (c : ClientId) (w : Window) (i : WinInfo) (s : State) : Except Fault State :=
  if s.live c then .error .illegal
  else if (s.wintoclient w).isSome then .ok s
  else .ok (manage c w i s)

end Dwm
