import Zzdwm.Dwm.State

/-!
# Placing windows

`resize`, the layouts and `arrange`.  Every routine here reads the state and
maps the heap of geometries to a new one; `arrange` is the only one that is
lifted to the state, so that it changes nothing but `geom` by definition.

An `int` is an integer.  Where the source mixes `int` and `unsigned int`, the
conversions `u32` and `i32` stand where C converts.
-/

namespace Dwm

/-- Conversion to `unsigned int`. -/
def u32 (x : Int) : Int := x % 4294967296
/-- Conversion of an `unsigned int` to `int`. -/
def i32 (x : Int) : Int := Int.bmod x 4294967296
/-- Conversion of a `float` to an integer. -/
def trunc (q : Rat) : Int := q.num.tdiv q.den

/-- A position and a size. -/
structure Rect where
  x : Int
  y : Int
  w : Int
  h : Int
  deriving DecidableEq

/-- A rectangle computed in `unsigned int` and passed on as `int`. -/
def Rect.signed (r : Rect) : Rect := ⟨i32 r.x, i32 r.y, i32 r.w, i32 r.h⟩

variable (s : State)

/-- `applysizehints`: the adjusted rectangle, `none` if it is the one the
client has already. -/
def applysizehints (g : Geoms) (c : ClientId) (r : Rect) (interact : Bool) : Option Rect :=
  let m := s.monOf c
  let k := g c
  let w := max 1 r.w
  let h := max 1 r.h
  let x :=
    if interact then
      let x := if r.x > s.sw then s.sw - k.width else r.x
      if x + w + 2 * k.bw < 0 then 0 else x
    else
      let x := if r.x ≥ m.wx + m.ww then m.wx + m.ww - k.width else r.x
      if x + w + 2 * k.bw ≤ m.wx then m.wx else x
  let y :=
    if interact then
      let y := if r.y > s.sh then s.sh - k.height else r.y
      if y + h + 2 * k.bw < 0 then 0 else y
    else
      let y := if r.y ≥ m.wy + m.wh then m.wy + m.wh - k.height else r.y
      if y + h + 2 * k.bw ≤ m.wy then m.wy else y
  let h := if h < s.bh then s.bh else h
  let w := if w < s.bh then s.bh else w
  if x ≠ k.x ∨ y ≠ k.y ∨ w ≠ k.w ∨ h ≠ k.h then some ⟨x, y, w, h⟩ else none

/-- `resizeclient`. -/
def resizeclient (c : ClientId) (r : Rect) (g : Geoms) : Geoms :=
  let k := g c
  let k := { k with
    oldx := k.x, x := r.x, oldy := k.y, y := r.y,
    oldw := k.w, w := r.w, oldh := k.h, h := r.h }
  let m := s.monOf c
  -- a lone or monocle window gives its border up to its contents
  if !k.beingmoved && !s.selM.drawwithgaps
      && (s.tiled (s.own c) = [c] || m.layout = .monocle)
      && !(s.client c).isfullscreen && !(s.client c).isfloating && m.layout.arranges then
    Function.update g c { k with w := k.w + k.bw * 2, h := k.h + k.bw * 2 }
  else Function.update g c k

/-- `resize`. -/
def resize (c : ClientId) (r : Rect) (interact : Bool) (g : Geoms) : Geoms :=
  match applysizehints s g c r interact with
  | some r => resizeclient s c r g
  | none => g

/-- `minwsz` of `tile` and `bstack`. -/
def minwsz : Int := trunc (s.bh * minwfact + vertgappx * 2)

/-- The loop of `tile` with gaps, from client number `i` on.  `ms` is the slot
of the last client that was given one in the master area. -/
def tileGaps (m : Monitor) (n maxn mw : Int) :
    Int → List ClientId → Int → Int → Rect → Geoms → Geoms
  | _, [], _, _, _, g => g
  | i, c :: rest, my, ty, ms, g =>
      if i < m.nmaster then
        let h := (m.wh - my).tdiv (min n m.nmaster - i) - m.gappx
        let ms : Rect := ⟨u32 (m.wx + m.gappx), u32 (m.wy + my),
          u32 (mw - 2 * (g c).bw - m.gappx), u32 (h - 2 * (g c).bw)⟩
        let g := resize s c ms.signed false g
        let my := if my + (g c).height + m.gappx < m.wh
          then my + (g c).height + m.gappx else my
        tileGaps m n maxn mw (i + 1) rest my ty ms g
      else if i ≥ maxn then
        tileGaps m n maxn mw (i + 1) rest my ty ms (resize s c ms.signed false g)
      else
        let smh := u32 (trunc (m.mh * m.smfact))
        let room := if rest.isEmpty then u32 (m.wh - ty) else u32 (m.wh - smh - ty)
        let h := i32 (room / u32 (min n maxn - i) - m.gappx)
        if h < minwsz s ∨ h < 2 * (g c).bw then
          tileGaps m n maxn mw (i + 1) rest my ty ms (resize s c ms.signed false g)
        else
          let g := resize s c ⟨i32 (m.wx + mw + m.gappx), i32 (m.wy + ty),
            i32 (m.ww - mw - 2 * (g c).bw - 2 * m.gappx), h - 2 * (g c).bw⟩ false g
          let ty := if rest.isEmpty then u32 (ty + (g c).height + smh + m.gappx)
            else u32 (ty + (g c).height + m.gappx)
          tileGaps m n maxn mw (i + 1) rest my ty ms g

/-- The loop of `tile` without gaps. -/
def tileBare (m : Monitor) (n maxn mw : Int) :
    Int → List ClientId → Int → Int → Rect → Geoms → Geoms
  | _, [], _, _, _, g => g
  | i, c :: rest, my, ty, ms, g =>
      if i < m.nmaster then
        let h := (m.wh - my).tdiv (min n m.nmaster - i)
        let ms : Rect := ⟨u32 m.wx, u32 (m.wy + my),
          u32 (mw - 2 * (g c).bw), u32 (h - 2 * (g c).bw)⟩
        let g := resize s c ms.signed false g
        tileBare m n maxn mw (i + 1) rest (my + (g c).height) ty ms g
      else if i ≥ maxn then
        tileBare m n maxn mw (i + 1) rest my ty ms (resize s c ms.signed false g)
      else
        let smh := u32 (trunc (m.mh * m.smfact))
        let room := if rest.isEmpty then u32 (m.wh - ty) else u32 (m.wh - smh - ty)
        let h := i32 (room / u32 (min n maxn - i))
        if h < minwsz s ∨ h < 2 * (g c).bw then
          tileBare m n maxn mw (i + 1) rest my ty ms (resize s c ms.signed false g)
        else
          let g := resize s c ⟨i32 (m.wx + mw), i32 (m.wy + ty),
            i32 (m.ww - mw - 2 * (g c).bw), h - 2 * (g c).bw⟩ false g
          let ty := if rest.isEmpty then u32 (ty + (g c).height + smh)
            else u32 (ty + (g c).height)
          tileBare m n maxn mw (i + 1) rest my ty ms g

/-- `tile`. -/
def tile (i : MonId) (g : Geoms) : Geoms :=
  let m := s.monitor i
  let cs := s.tiled i
  let n : Int := cs.length
  let master : Int := if m.nmaster ≠ 0 then trunc (m.ww * m.mfact) else 0
  if n = 0 then g
  else if m.drawwithgaps then
    let maxn := if m.wh - m.gappx > 0 ∧ m.gappx + minwsz s > 0
      then (m.wh - m.gappx).tdiv (m.gappx + minwsz s) + m.nmaster else m.nmaster
    let mw := u32 (if n > m.nmaster then master else m.ww - m.gappx)
    tileGaps s m n maxn mw 0 cs m.gappx (u32 m.gappx) ⟨0, 0, 0, 0⟩ g
  else
    let maxn := if minwsz s > 0 then m.wh.tdiv (minwsz s) + m.nmaster else m.nmaster
    let mw := u32 (if n > m.nmaster then master else m.ww)
    tileBare s m n maxn mw 0 cs 0 0 ⟨0, 0, 0, 0⟩ g

/-- The loop of `bstack` with gaps. -/
def bstackGaps (m : Monitor) (n maxn mh : Int) :
    Int → List ClientId → Int → Int → Rect → Geoms → Geoms
  | _, [], _, _, _, g => g
  | i, c :: rest, mx, tx, ms, g =>
      if i < m.nmaster then
        let w := (m.ww - mx).tdiv (min n m.nmaster - i) - m.gappx
        let ms : Rect := ⟨u32 (m.wx + mx), u32 (m.wy + m.gappx),
          u32 (w - 2 * (g c).bw), u32 (mh - 2 * (g c).bw - m.gappx)⟩
        let g := resize s c ms.signed false g
        let mx := if mx + (g c).width + m.gappx < m.ww
          then mx + (g c).width + m.gappx else mx
        bstackGaps m n maxn mh (i + 1) rest mx tx ms g
      else if i ≥ maxn then
        bstackGaps m n maxn mh (i + 1) rest mx tx ms (resize s c ms.signed false g)
      else
        let smw := u32 (trunc (m.mw * m.smfact))
        let w := if rest.isEmpty
          then (m.ww - tx).tdiv (min n maxn - i) - m.gappx
          else i32 (u32 (m.ww - smw - tx) / u32 (min n maxn - i) - m.gappx)
        if w < minwsz s ∨ w < 2 * (g c).bw then
          bstackGaps m n maxn mh (i + 1) rest mx tx ms (resize s c ms.signed false g)
        else
          let g := resize s c ⟨m.wx + tx, m.wy + mh + m.gappx,
            w - 2 * (g c).bw, m.wh - mh - 2 * (g c).bw - 2 * m.gappx⟩ false g
          let tx := if rest.isEmpty then i32 (tx + (g c).width + smw + m.gappx)
            else tx + (g c).width + m.gappx
          bstackGaps m n maxn mh (i + 1) rest mx tx ms g

/-- The loop of `bstack` without gaps. -/
def bstackBare (m : Monitor) (n mh tw ty : Int) :
    Int → List ClientId → Int → Int → Geoms → Geoms
  | _, [], _, _, g => g
  | i, c :: rest, mx, tx, g =>
      if i < m.nmaster then
        let w := (m.ww - mx).tdiv (min n m.nmaster - i)
        let g := resize s c ⟨m.wx + mx, m.wy, w - 2 * (g c).bw, mh - 2 * (g c).bw⟩ false g
        bstackBare m n mh tw ty (i + 1) rest (mx + (g c).width) tx g
      else
        let h := m.wh - mh
        let g := resize s c ⟨tx, ty, tw - 2 * (g c).bw, h - 2 * (g c).bw⟩ false g
        bstackBare m n mh tw ty (i + 1) rest mx (if tw ≠ m.ww then tx + (g c).width else tx) g

/-- `bstack`. -/
def bstack (i : MonId) (g : Geoms) : Geoms :=
  let m := s.monitor i
  let cs := s.tiled i
  let n : Int := cs.length
  let master : Int := if m.nmaster ≠ 0 then trunc (m.wh * m.mfact) else 0
  if n = 0 then g
  else if m.drawwithgaps then
    let maxn := if m.ww - m.gappx > 0 ∧ m.gappx + minwsz s > 0
      then (m.ww - m.gappx).tdiv (m.gappx + minwsz s) + m.nmaster else m.nmaster
    let mh := if n > m.nmaster then master else m.wh - m.gappx
    bstackGaps s m n maxn mh 0 cs m.gappx m.gappx ⟨0, 0, 0, 0⟩ g
  else if n > m.nmaster then
    bstackBare s m n master (m.ww.tdiv (n - m.nmaster)) (m.wy + master) 0 cs 0 m.wx g
  else bstackBare s m n m.wh m.ww m.wy 0 cs 0 m.wx g

/-- `doubledeck`. -/
def doubledeck (i : MonId) (g : Geoms) : Geoms :=
  let m := s.monitor i
  let cs := s.tiled i
  let n : Int := cs.length
  let gap := if m.drawwithgaps then m.gappx else 0
  let mw := u32 (if n > m.nmaster
    then (if m.nmaster ≠ 0 then trunc (m.ww * m.dmfact) else 0) else m.ww - gap)
  (cs.zipIdx).foldl (fun g (c, i) =>
    if (i : Int) < m.nmaster then
      resize s c ⟨m.wx + gap, m.wy + gap,
        i32 (mw - 2 * (g c).bw - gap), m.wh - 2 * (g c).bw - 2 * gap⟩ false g
    else
      resize s c ⟨i32 (m.wx + mw + gap), m.wy + gap,
        i32 (m.ww - mw - 2 * (g c).bw - 2 * gap), m.wh - 2 * (g c).bw - 2 * gap⟩ false g) g

/-- `zetadeck`.  Without gaps the master windows are as wide as the screen
(`mw`), the others as the window area (`ww`). -/
def zetadeck (i : MonId) (g : Geoms) : Geoms :=
  let m := s.monitor i
  let cs := s.tiled i
  let n : Int := cs.length
  let gap := if m.drawwithgaps then m.gappx else 0
  let mh := u32 (if n > m.nmaster
    then (if m.nmaster ≠ 0 then trunc (m.wh * m.zmfact) else 0) else m.wh - gap)
  (cs.zipIdx).foldl (fun g (c, i) =>
    if (i : Int) < m.nmaster then
      resize s c ⟨m.wx + gap, m.wy + gap,
        (if m.drawwithgaps then m.ww else m.mw) - 2 * (g c).bw - 2 * gap,
        i32 (mh - 2 * (g c).bw - gap)⟩ false g
    else
      resize s c ⟨m.wx + gap, i32 (m.wy + mh + gap),
        m.ww - 2 * (g c).bw - 2 * gap, i32 (m.wh - mh - 2 * (g c).bw - 2 * gap)⟩ false g) g

/-- `monocle`. -/
def monocle (i : MonId) (g : Geoms) : Geoms :=
  let m := s.monitor i
  (s.tiled i).foldl (fun g c =>
    if s.selM.drawwithgaps then
      resize s c ⟨m.wx, m.wy, m.ww - 2 * (g c).bw, m.wh - 2 * (g c).bw⟩ false g
    else resize s c ⟨m.wx - (g c).bw, m.wy, m.ww, m.wh⟩ false g) g

/-- The row count `grid` starts from: the first `rows ≤ n / 2` with
`rows * rows ≥ n`, else `n / 2 + 1`. -/
def gridRows (n : Nat) : Nat :=
  ((List.range (n / 2 + 1)).find? fun rows => rows * rows ≥ n).getD (n / 2 + 1)

/-- The column count `grid` starts from. -/
def gridCols (n : Nat) : Nat :=
  if gridRows n ≠ 0 ∧ (gridRows n - 1) * gridRows n ≥ n then gridRows n - 1 else gridRows n

/-- `grid`, all of it in `unsigned int`. -/
def grid (i : MonId) (g : Geoms) : Geoms :=
  let m := s.monitor i
  let cs := s.tiled i
  let n := cs.length
  let gap := if m.drawwithgaps then m.gappx else 0
  let cellh := if mincellh + gap ≠ 0 then mincellh + gap else 1
  let cellw := if mincellw + gap ≠ 0 then mincellw + gap else 1
  let rows := min (gridRows n : Int) (u32 ((m.wh - gap).tdiv cellh))
  let cols := min (gridCols n : Int) (u32 ((m.ww - gap).tdiv cellw))
  let rows' := if rows ≠ 0 then rows else 1
  let cols' := if cols ≠ 0 then cols else 1
  if m.drawwithgaps then
    let roomh := u32 (m.wh - 2 * gap - gap * u32 (rows - 1))
    let roomw := u32 (m.ww - 2 * gap - gap * u32 (cols - 1))
    let ch := roomh / rows'
    let cw := roomw / cols'
    let chrest := u32 (roomh - ch * rows)
    let cwrest := u32 (roomw - cw * cols)
    (cs.zipIdx).foldl (fun g (c, i) =>
      let cc := (i : Int) / rows
      let cr := (i : Int) % rows
      resize s c ⟨i32 (m.wx + gap + cc * (cw + gap) + min cc cwrest),
        i32 (m.wy + gap + cr * (ch + gap) + min cr chrest),
        i32 (cw + (if cc < cwrest then 1 else 0) - 2 * (g c).bw),
        i32 (ch + (if cr < chrest then 1 else 0) - 2 * (g c).bw)⟩ false g) g
  else
    let ch := u32 m.wh / rows'
    let cw := u32 m.ww / cols'
    (cs.zipIdx).foldl (fun g (c, i) =>
      let ah := if ((i : Int) + 1) % rows = 0 then u32 (m.wh - ch * rows) else 0
      let aw := if (i : Int) ≥ u32 (rows * u32 (cols - 1)) then u32 (m.ww - cw * cols) else 0
      resize s c ⟨i32 (m.wx + (i : Int) / rows * cw), i32 (m.wy + (i : Int) % rows * ch),
        i32 (cw - 2 * (g c).bw + aw), i32 (ch - 2 * (g c).bw + ah)⟩ false g) g

/-- `arrangemon`.  `clear` moves windows off the screen without touching the
geometry dwm keeps of them. -/
def arrangemon (i : MonId) (g : Geoms) : Geoms :=
  match (s.monitor i).layout with
  | .tile => tile s i g
  | .floating => g
  | .monocle => monocle s i g
  | .grid => grid s i g
  | .doubledeck => doubledeck s i g
  | .zetadeck => zetadeck s i g
  | .bstack => bstack s i g
  | .clear => g

/-- `showhide`, top down over the visible clients of a stack. -/
def showhide (cs : List ClientId) (g : Geoms) : Geoms :=
  cs.foldl (fun g c =>
    if s.visible c && (!(s.monOf c).layout.arranges || (s.client c).isfloating)
        && !(s.client c).isfullscreen then
      resize s c ⟨(g c).x, (g c).y, (g c).w, (g c).h⟩ false g
    else g) g

/-- The geometry after `arrange(m)`, `none` standing for `arrange(NULL)`. -/
def arrangeGeom (m : Option MonId) (g : Geoms) : Geoms :=
  let ms := match m with
    | some i => [i]
    | none => s.mons
  let g := ms.foldl (fun g i => showhide s (s.monitor i).stack g) g
  ms.foldl (fun g i => arrangemon s i g) g

/-- `arrange`. -/
def arrange (m : Option MonId) (s : State) : State :=
  { s with geom := arrangeGeom s m s.geom }

/-- `arrangemon` on the whole state. -/
def rearrange (m : MonId) (s : State) : State := { s with geom := arrangemon s m s.geom }

/-- Assign to the geometry of one client. -/
def State.modGeom (s : State) (c : ClientId) (f : Geom → Geom) : State :=
  { s with geom := Function.update s.geom c (f (s.geom c)) }

/-- `resizeclient` and `resize` on the whole state. -/
def State.resizeclient (s : State) (c : ClientId) (r : Rect) : State :=
  { s with geom := Dwm.resizeclient s c r s.geom }

def State.resize (s : State) (c : ClientId) (r : Rect) (interact : Bool) : State :=
  { s with geom := Dwm.resize s c r interact s.geom }

/-- The rectangle a client has. -/
def State.rect (s : State) (c : ClientId) : Rect :=
  ⟨(s.geom c).x, (s.geom c).y, (s.geom c).w, (s.geom c).h⟩

end Dwm
