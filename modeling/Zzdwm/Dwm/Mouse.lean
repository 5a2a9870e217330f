import Zzdwm.Dwm.Commands

/-!
# Dragging the pointer

`movemouse`, `placemouse` and `resizemouse` run event loops of their own until
the button is released.  What such a loop reads is an input: whether the grab
succeeds, where the pointer is, the events up to the release and the release
itself.  Motions that come too soon after the last one have no effect and are
not listed.
-/

namespace Dwm

/-- The fields of a configure request that its `value_mask` selects. -/
structure ConfRequest where
  x : Option Int
  y : Option Int
  width : Option Int
  height : Option Int
  border : Option Int

/-- `configurerequest` on the geometry of a managed client. -/
def ConfRequest.place (r : ConfRequest) (m : Monitor) (floating : Bool) (g : Geom) : Geom :=
  let g := match r.x with
    | some x => { g with oldx := g.x, x := m.mx + x }
    | none => g
  let g := match r.y with
    | some y => { g with oldy := g.y, y := m.my + y }
    | none => g
  let g := match r.width with
    | some w => { g with oldw := g.w, w := w }
    | none => g
  let g := match r.height with
    | some h => { g with oldh := g.h, h := h }
    | none => g
  let g := if g.x + g.w > m.mx + m.mw ∧ floating
    then { g with x := m.mx + (m.mw.tdiv 2 - g.width.tdiv 2) } else g
  if g.y + g.h > m.my + m.mh ∧ floating
    then { g with y := m.my + (m.mh.tdiv 2 - g.height.tdiv 2) } else g

/-- `configurerequest`. -/
def configurerequest (w : Window) (r : ConfRequest) (s : State) : State :=
  match s.wintoclient w with
  | some c =>
      match r.border with
      | some b => s.modGeom c fun g => { g with bw := b }
      | none =>
          if (s.client c).isfloating || !s.arranges then
            s.modGeom c (r.place (s.monOf c) (s.client c).isfloating)
          else s
  | none => s

/-- The events a drag loop acts on. -/
inductive DragEvent
  | configurerequest (w : Window) (r : ConfRequest)
  | maprequest (c : ClientId) (w : Window) (i : WinInfo)
  | motion (x y : Int)

/-- What a drag reads: the answers of `XGrabPointer`, `getrootptr` and
`XGetWindowAttributes` (a window has the geometry `wa`), the events, and the
position at the release, in the event window and on the root window. -/
structure Drag where
  grabbed : Bool
  rootptr : Option (Int × Int)
  wa : Rect
  events : List DragEvent
  release : Int × Int
  releaseroot : Int × Int

/-- A drag loop: `motion` says what the loop does with a pointer motion. -/
def dragLoop {σ : Type} (get : σ → State) (set : State → σ → σ) (motion : Int → Int → σ → σ) :
    List DragEvent → σ → Except Fault σ
  | [], a => .ok a
  | .configurerequest w r :: es, a =>
      dragLoop get set motion es (set (configurerequest w r (get a)) a)
  | .maprequest c w i :: es, a => do
      let s ← maprequest c w i (get a)
      dragLoop get set motion es (set s a)
  | .motion x y :: es, a => dragLoop get set motion es (motion x y a)

/-- The end of `movemouse` and `resizemouse`: a client that was dragged to
another monitor is sent there. -/
def followmon (c : ClientId) (s : State) : State :=
  let r := s.rect c
  let m := recttomon r.x r.y r.w r.h s
  if m ≠ s.selmon then focus none { sendmon c m s with selmon := m } else s

/-- Snap a coordinate to the edges `lo` and `hi` of the window area. -/
def snapTo (lo hi n size : Int) : Int :=
  if (lo - n).natAbs < snap then lo
  else if (hi - (n + size)).natAbs < snap then hi - size
  else n

/-- A motion in `movemouse` that has taken the client to `nx` and `ny`. -/
def moveMotion (c : ClientId) (nx ny : Int) (s : State) : State :=
  let m := s.selM
  let g := s.geom c
  let nx := snapTo m.wx (m.wx + m.ww) nx g.width
  let ny := snapTo m.wy (m.wy + m.wh) ny g.height
  let s := if !(s.client c).isfloating && s.arranges
      && ((nx - g.x).natAbs > snap || (ny - g.y).natAbs > snap) then togglefloating s else s
  if !s.arranges || (s.client c).isfloating then
    s.resize c { s.rect c with x := nx, y := ny } true
  else s

/-- `movemouse`. -/
def movemouse (d : Drag) (s : State) : Except Fault State :=
  match s.sel with
  | some c =>
      if (s.client c).isfullscreen then .ok s
      else match d.grabbed, d.rootptr with
      | true, some (x, y) => do
          let r := s.rect c
          let s ← dragLoop id (fun s _ => s)
            (fun mx my => moveMotion c (r.x + (mx - x)) (r.y + (my - y))) d.events s
          return followmon c s
      | _, _ => .ok s
  | none => .ok s

/-- Where `placemouse` wants to put the client: above or below the client
under the pointer. -/
def aboveOf (px py : Int) (r : Rect) : Bool :=
  if ((r.y + r.h - py : Int) : Rat) / r.h > ((r.x + r.w - px : Int) : Rat) / r.w then
    (r.y - py).natAbs < r.h.tdiv 2
  else (r.x - px).natAbs < r.w.tdiv 2

/-- Link `c` in above or below the first `r` of a list. -/
def linkAt (above : Bool) (r c : ClientId) (l : List ClientId) : List ClientId :=
  if above then linkBefore r c l else linkAfter r c l

/-- A re-attach step of `placemouse`: the client `c` is put above or below `r`. -/
def reattach (above : Bool) (c r : ClientId) (s : State) : State :=
  let s := detach c (detachstack c s)
  let s := if s.own c ≠ s.own r then
      (rearrange (s.own c) s).modClient c fun k => { k with tags := (s.monOf r).tags }
    else s
  let s := s.modClient c fun k => { k with mon := s.own r }
  let s := s.modMon (s.own r) fun m => { m with
    sel := some r
    clients := linkAt above r c m.clients }
  rearrange (s.own r) (attachstack c s)

/-- The variables of the loop of `placemouse`: `prevr`, `prevattachmode`
(`none` for -1, else whether it is 1), and whether `nx` and `ny` are set. -/
structure Placing where
  s : State
  prevr : ClientId
  prevabove : Option Bool
  dest : Option (Int × Int)

/-- Re-attach the client unless it is there already. -/
def placeAt (above : Bool) (c r : ClientId) (p : Placing) : Placing :=
  if r ≠ p.prevr ∨ some above ≠ p.prevabove then
    { p with s := reattach above c r p.s, prevr := r, prevabove := some above }
  else p

/-- A motion in `placemouse`; `i` is the argument of the command. -/
def placeMotion (i : Int) (wa : Rect) (x y : Int) (c : ClientId) (mx my : Int)
    (p : Placing) : Placing :=
  let nx := wa.x + (mx - x)
  let ny := wa.y + (my - y)
  let s := { p.s with selmon := recttomon mx my 1 1 p.s }
  let px := if i = 1 then nx + wa.w.tdiv 2 else mx
  let py := if i = 1 then ny + wa.h.tdiv 2 else my
  let p := { p with s := s, dest := some (nx, ny) }
  match recttoclient px py 1 1 s with
  | some r => if r = c then p else placeAt (aboveOf px py (s.rect r)) c r p
  | none => p

/-- The last re-attachment of `placemouse`: the button was released over
another monitor. -/
def placeOn (c : ClientId) (m : MonId) (s : State) : State :=
  if m ≠ s.own c then
    let s := rearrange (s.own c) (detachstack c (detach c s))
    let s := s.modClient c fun k => { k with mon := m, tags := (s.monitor m).tags }
    { attachstack c (attach c s) with selmon := m }
  else s

/-- The end of `placemouse`. -/
def placeEnd (d : Drag) (c : ClientId) (p : Placing) : State :=
  let s := placeOn c (recttomon d.release.1 d.release.2 1 1 p.s) p.s
  let s := (focus (some c) s).modGeom c fun g => { g with beingmoved := false }
  let s := match p.dest with
    | some (nx, ny) => s.resize c { s.rect c with x := nx, y := ny } false
    | none => s
  rearrange (s.own c) s

/-- `placemouse`. -/
def placemouse (i : Int) (d : Drag) (s : State) : Except Fault State :=
  match s.sel with
  | some c =>
      if !(s.monOf c).layout.arranges || (s.client c).isfullscreen || !d.grabbed then .ok s
      else
        let s := s.modClient c fun k => { k with isfloating := false }
        let s := s.modGeom c fun g => { g with beingmoved := true }
        match d.rootptr with
        | some (x, y) => do
            let p ← dragLoop Placing.s (fun s p => { p with s := s })
              (placeMotion i d.wa x y c) d.events ⟨s, c, none, none⟩
            return placeEnd d c p
        | none => .ok s
  | none => .ok s

/-- `moveorplace`. -/
def moveorplace (i : Int) (d : Drag) (s : State) : Except Fault State :=
  if !s.arranges || (s.sel.any fun c => (s.client c).isfloating) then movemouse d s
  else placemouse i d s

/-- The fraction that `resizemouse` sets in an arranging layout: only the live
copy is written. -/
def Settings.resizemouse (x y : Int) (m : Settings) : Settings :=
  match m.layout with
  | .doubledeck => { m with dmfact := ((x - m.mx : Int) : Rat) / m.ww }
  | .zetadeck => { m with zmfact := ((y - m.my : Int) : Rat) / m.wh }
  | _ => { m with mfact := ((x - m.mx : Int) : Rat) / m.ww }

/-- `resizemouse`.  In an arranging layout a motion has no effect, because the
client is not floating. -/
def resizemouse (d : Drag) (s : State) : Except Fault State :=
  match s.sel with
  | some c =>
      if (s.client c).isfullscreen || !d.grabbed then .ok s
      else
        let r := s.rect c
        let free := (s.client c).isfloating || !(s.monOf c).layout.arranges
        match free, d.rootptr with
        | true, none => .ok s
        | _, _ => do
            let (x, y) := d.rootptr.getD (0, 0)
            let s ← dragLoop id (fun s _ => s) (fun mx my s =>
              if !s.arranges || (s.client c).isfloating then
                s.resize c { s.rect c with
                  w := max (r.w + (mx - x)) 1, h := max (r.h + (my - y)) 1 } true
              else s) d.events s
            let s :=
              if (s.client c).isfloating || !(s.monOf c).layout.arranges then s
              else arrangesel (s.modSettings s.selmon
                (Settings.resizemouse d.releaseroot.1 d.releaseroot.2))
            return followmon c s
  | none => .ok s

/-- A command that `buttons[]` binds. -/
def runButton (d : Drag) (k : Binding) (s : State) : Except Fault State :=
  match k.1 with
  | .moveorplace => moveorplace k.2.int d s
  | .resizemouse => resizemouse d s
  | _ => runKey (fun _ => none) k s

end Dwm
