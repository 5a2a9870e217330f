import Mathlib
import Zzdwm.Dwm.Config

/-!
# The state of dwm (`dwm.c`)

Clients and monitors live in two heaps addressed by `ClientId` and `MonId`.
The intrusive lists `mon->clients` (`next`) and `mon->stack` (`snext`) are
lists of addresses, and so is the list `mons`.  The numbers that only place a
window (`x`, `y`, `w`, `h`, their saved copies, the border width) stand in a
heap of their own, `geom`, beside the fields that steer the control flow, so
that a routine which only places windows visibly leaves all the rest alone.

Left out is what no modelled routine reads: colours, fonts, cursors, atoms,
the texts of the bar (`name`, `ltsymbol`, `stext`), size hints (`resizehints`
and `floathints` are 0, so they are never consulted) and the urgency and input
hints.  Calls that only draw, move the pointer or tell an X client something
are left out for the same reason.
-/

namespace Dwm

/-- The address of a `Client`. -/
abbrev ClientId := Nat
/-- The address of a `Monitor`. -/
abbrev MonId := Nat
abbrev Window := Nat

/-- The geometry of a client. -/
structure Geom where
  x : Int
  y : Int
  w : Int
  h : Int
  oldx : Int
  oldy : Int
  oldw : Int
  oldh : Int
  bw : Int
  oldbw : Int
  beingmoved : Bool

abbrev Geoms := ClientId → Geom

/-- `WIDTH(X)`. -/
def Geom.width (g : Geom) : Int := g.w + 2 * g.bw
/-- `HEIGHT(X)`. -/
def Geom.height (g : Geom) : Int := g.h + 2 * g.bw

/-- What `ecalloc` leaves in the geometry of a new client. -/
def Geom.zero : Geom := ⟨0, 0, 0, 0, 0, 0, 0, 0, 0, 0, false⟩

/-- The fields of a client that say where it belongs and when it is shown. -/
structure Seat where
  win : Window
  tags : TagSet
  mon : MonId
  issticky : Bool

/-- A client, apart from its geometry. -/
structure Client extends Seat where
  ismax : Bool
  wasfloating : Bool
  isfixed : Bool
  isfloating : Bool
  oldstate : Bool
  isfullscreen : Bool

/-- `Pertag`: the settings of every tag (entry `i + 1` for tag `i`) and of the
view of all tags (entry 0). -/
structure Pertag where
  curtag : Nat
  prevtag : Nat
  nmasters : Nat → Int
  mfacts : Nat → Rat
  smfacts : Nat → Rat
  dmfacts : Nat → Rat
  zmfacts : Nat → Rat
  sellts : Nat → Bool
  ltidxs : Nat → Bool → Layout

/-- The fields of a monitor that do not name clients.  `seltags` and `sellt`
only ever hold 0 and 1 and index the two entries of `tagset` and `lt`. -/
structure Settings where
  mfact : Rat
  smfact : Rat
  dmfact : Rat
  zmfact : Rat
  nmaster : Int
  num : Int
  by' : Int
  mx : Int
  my : Int
  mw : Int
  mh : Int
  wx : Int
  wy : Int
  ww : Int
  wh : Int
  gappx : Int
  drawwithgaps : Bool
  seltags : Bool
  sellt : Bool
  tagset : Bool → TagSet
  showbar : Bool
  topbar : Bool
  lt : Bool → Layout
  pertag : Pertag

/-- The tag set in view. -/
def Settings.tags (m : Settings) : TagSet := m.tagset m.seltags
/-- The layout in use. -/
def Settings.layout (m : Settings) : Layout := m.lt m.sellt

/-- The two client lists of a monitor and the selected client. -/
structure Lists where
  clients : List ClientId
  stack : List ClientId
  sel : Option ClientId

/-- A monitor. -/
structure Monitor extends Settings, Lists where
  tagmarked : Nat → Option ClientId

/-- The whole window manager.  `live` tells which client addresses are in use
(managed and not yet unmanaged), `nextmon` is the next monitor address to hand
out; `bh` and `lrpad` come from the font. -/
structure State where
  client : ClientId → Client
  geom : Geoms
  live : ClientId → Bool
  monitor : MonId → Monitor
  mons : List MonId
  selmon : MonId
  nextmon : MonId
  prevclient : Option ClientId
  sw : Int
  sh : Int
  bh : Int
  lrpad : Int

/-- What can go wrong in a handler.  `nullSel` is a dereference of a null
`selmon->sel`, `dangling` one of a client or monitor that is gone, `unset` a
read of an array element that was never written, `offList` a walk past the end
of a list, `hang` a loop that never ends.  `illegal` is no fault of dwm: the
event cannot arise in that state. -/
inductive Fault
  | nullSel | dangling | unset | offList | hang | illegal
  deriving DecidableEq, Repr

namespace State

variable (s : State)

/-- Where every client belongs. -/
def seat (c : ClientId) : Seat := (s.client c).toSeat
/-- The settings of every monitor. -/
def settings (m : MonId) : Settings := (s.monitor m).toSettings
/-- The lists of every monitor. -/
def lists (m : MonId) : Lists := (s.monitor m).toLists

/-- `*selmon`. -/
def selM : Monitor := s.monitor s.selmon
/-- `selmon->sel`. -/
def sel : Option ClientId := s.selM.sel
/-- `selmon->lt[selmon->sellt]->arrange`. -/
def arranges : Bool := s.selM.layout.arranges
/-- `*c->mon`. -/
def monOf (c : ClientId) : Monitor := s.monitor (s.client c).mon

/-- `ISVISIBLEONTAG(C, T)`. -/
def visibleOn (c : ClientId) (t : TagSet) : Bool :=
  (s.client c).tags &&& t ≠ 0#32 || (s.client c).issticky

/-- `ISVISIBLE(C)`. -/
def visible (c : ClientId) : Bool := s.visibleOn c (s.monOf c).tags

/-- The clients that `nexttiled` stops at. -/
def isTiled (c : ClientId) : Bool := !(s.client c).isfloating && s.visible c

/-- All clients `nexttiled` walks through, in order. -/
def tiled (m : MonId) : List ClientId := (s.monitor m).clients.filter s.isTiled

/-- The first visible client of a stack, `NULL` if there is none. -/
def firstVisible (m : MonId) : Option ClientId := (s.monitor m).stack.find? s.visible

/-- `wintoclient`. -/
def wintoclient (w : Window) : Option ClientId :=
  (s.mons.flatMap fun m => (s.monitor m).clients).find? fun c => (s.client c).win = w

/-- The monitor a client names. -/
def own (c : ClientId) : MonId := (s.seat c).mon
/-- The tags of a client. -/
def tagsOf (c : ClientId) : TagSet := (s.seat c).tags
/-- The `clients` lists. -/
def clientsOf (m : MonId) : List ClientId := (s.lists m).clients
/-- The `stack` lists. -/
def stackOf (m : MonId) : List ClientId := (s.lists m).stack

/-- Assign to the fields of one client. -/
def modClient (c : ClientId) (f : Client → Client) : State :=
  { s with client := Function.update s.client c (f (s.client c)) }

/-- Assign to the fields of one monitor. -/
def modMon (m : MonId) (f : Monitor → Monitor) : State :=
  { s with monitor := Function.update s.monitor m (f (s.monitor m)) }

/-- Assign to the settings of one monitor. -/
def modSettings (m : MonId) (f : Settings → Settings) : State :=
  s.modMon m fun M => { M with toSettings := f M.toSettings }

end State

/-- `dirtomon`. -/
def dirtomon (dir : Int) (s : State) : MonId :=
  let i := s.mons.idxOf s.selmon
  if dir > 0 then (s.mons[i + 1]?).getD (s.mons.headD s.selmon)
  else if i = 0 then s.mons.getLastD s.selmon
  else (s.mons[i - 1]?).getD s.selmon

/-- The least tag of a set: `for (i = 0; !(t & 1 << i); i++);`.  The callers
have made sure that there is one. -/
def lowestTag (t : TagSet) : Nat := ((List.range 32).find? fun i => t.getLsbD i).getD 32

/-- `INTERSECT(x, y, w, h, m)` and `INTERSECTC`, over the corners of a second
rectangle. -/
def intersect (x y w h : Int) (x' y' w' h' : Int) : Int :=
  max 0 (min (x + w) (x' + w') - max x x') * max 0 (min (y + h) (y' + h') - max y y')

/-- `recttomon`: the monitor that shares the largest area with the rectangle. -/
def recttomon (x y w h : Int) (s : State) : MonId :=
  (s.mons.foldl (fun (r : MonId × Int) m =>
    let a := intersect x y w h (s.monitor m).wx (s.monitor m).wy (s.monitor m).ww (s.monitor m).wh
    if a > r.2 then (m, a) else r) (s.selmon, 0)).1

/-- `recttoclient`: the tiled client of `selmon` that shares the largest area
with the rectangle. -/
def recttoclient (x y w h : Int) (s : State) : Option ClientId :=
  ((s.tiled s.selmon).foldl (fun (r : Option ClientId × Int) c =>
    let g := s.geom c
    let a := intersect x y w h g.x g.y g.w g.h
    if a > r.2 then (some c, a) else r) (none, 0)).1

end Dwm
