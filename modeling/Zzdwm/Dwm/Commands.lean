import Zzdwm.Dwm.Clients

/-!
# The commands of the keyboard

Every function that `keys[]` names, and those of `buttons[]` that do not drag
the pointer.  A command that can run into undefined behaviour returns
`Except Fault State`; the others map states to states.  What a command asks
the X server for is an argument of it.

* `selfloats`, `theSel` — how the source reads `selmon->sel->…`;
* `Settings.view`, `Settings.toggleview` — the part of a view change that
  stays inside the monitor.
-/

namespace Dwm

/-- `selmon->sel->…`. -/
def State.theSel (s : State) : Except Fault ClientId :=
  match s.sel with
  | some c => .ok c
  | none => .error .nullSel

/-- `!selmon->lt[selmon->sellt]->arrange || selmon->sel->isfloating`: only an
arranging layout makes the second operand run. -/
def State.selfloats (s : State) : Except Fault Bool :=
  if s.arranges then do
    let c ← s.theSel
    return (s.client c).isfloating
  else .ok true

/-- `arrange(selmon)`. -/
def arrangesel (s : State) : State := arrange s.selmon s

/-- Copy the settings of `pertag->curtag` to the live ones, as `view` and
`toggleview` do. -/
def Settings.loadPertag (m : Settings) : Settings :=
  let p := m.pertag
  let t := p.curtag
  { m with
    nmaster := p.nmasters t, mfact := p.mfacts t, smfact := p.smfacts t
    dmfact := p.dmfacts t, zmfact := p.zmfacts t
    sellt := p.sellts t, lt := p.ltidxs t }

/-- `view` on the selected monitor, past its early return. -/
def Settings.view (arg : TagSet) (m : Settings) : Settings :=
  let m := { m with seltags := !m.seltags }
  let p := m.pertag
  if arg &&& tagmask ≠ 0#32 then
    Settings.loadPertag { m with
      tagset := Function.update m.tagset m.seltags (arg &&& tagmask)
      pertag := { p with
        prevtag := p.curtag
        curtag := if arg = BitVec.allOnes 32 then 0 else lowestTag arg + 1 } }
  else
    Settings.loadPertag { m with
      pertag := { p with prevtag := p.curtag, curtag := p.prevtag } }

/-- `view`. -/
def view (arg : TagSet) (s : State) : State :=
  if arg &&& tagmask = s.selM.tags then s
  else arrangesel (focus none (s.modSettings s.selmon (Settings.view arg)))

/-- `1 << (curtag - 1)`.  For `curtag = 0` the shift is out of range; the
machine shifts modulo 32, and bit 31 is in no tag set. -/
def curtagBit (curtag : Nat) : TagSet := if curtag = 0 then tagBit 31 else tagBit (curtag - 1)

/-- `toggleview` on the selected monitor for the new, non-empty tag set. -/
def Settings.toggleview (newtagset : TagSet) (m : Settings) : Settings :=
  let m := { m with tagset := Function.update m.tagset m.seltags newtagset }
  let p := m.pertag
  let p := if newtagset = BitVec.allOnes 32 then { p with prevtag := p.curtag, curtag := 0 } else p
  let p := if newtagset &&& curtagBit p.curtag = 0#32
    then { p with prevtag := p.curtag, curtag := lowestTag newtagset + 1 } else p
  Settings.loadPertag { m with pertag := p }

/-- `toggleview`. -/
def toggleview (arg : TagSet) (s : State) : State :=
  let newtagset := s.selM.tags ^^^ (arg &&& tagmask)
  if newtagset ≠ 0#32 then
    arrangesel (focus none (s.modSettings s.selmon (Settings.toggleview newtagset)))
  else s

/-- The tag set `rotatetags` turns to. -/
def rotated (i : Int) (tagset : TagSet) : TagSet :=
  let rot := i.natAbs
  (if i < 0 then tagset >>> rot ||| tagset <<< (ntags - rot)
   else tagset <<< rot ||| tagset >>> (ntags - rot)) &&& tagmask

/-- Set the tag set in view and nothing else. -/
def Settings.setTags (t : TagSet) (m : Settings) : Settings :=
  { m with tagset := Function.update m.tagset m.seltags t }

/-- `rotatetags`. -/
def rotatetags (i : Int) (s : State) : State :=
  let newtagset := rotated i s.selM.tags
  if newtagset ≠ 0#32 then
    arrangesel (focus none (s.modSettings s.selmon (Settings.setTags newtagset)))
  else s

/-- One round of the loop of `shiftviewclients`. -/
def shiftStep (i : Int) (t : TagSet) : TagSet :=
  let n := i.natAbs
  if i > 0 then t <<< n ||| t >>> (ntags - n) else t >>> n ||| t <<< (ntags - n)

/-- The loop of `shiftviewclients`.  A tag set has 32 bits, so a loop that is
still running after `2 ^ 32` rounds never ends. -/
def shiftLoop (i : Int) (mask : TagSet) : Nat → TagSet → Option TagSet
  | 0, _ => none
  | n + 1, t =>
      let t := shiftStep i t
      if mask ≠ 0#32 ∧ t &&& mask = 0#32 then shiftLoop i mask n t else some t

/-- The view `shiftviewclients` turns to. -/
def shifted (i : Int) (s : State) : Option TagSet :=
  shiftLoop i (s.selM.clients.foldl (fun t c => t ||| (s.client c).tags) 0#32) (2 ^ 32) s.selM.tags

/-- `shiftviewclients`. -/
def shiftviewclients (i : Int) (s : State) : Except Fault State :=
  match shifted i s with
  | some t => .ok (view t s)
  | none => .error .hang

/-- What `swaptag` does to the tags of one client. -/
def swapped (curtag newtag t : TagSet) : TagSet :=
  let t := if t &&& newtag ≠ 0#32 ∨ t &&& curtag ≠ 0#32 then t ^^^ (curtag ^^^ newtag) else t
  if t = 0#32 then newtag else t

/-- `swaptag`. -/
def swaptag (arg : TagSet) (s : State) : State :=
  let newtag := arg &&& tagmask
  let curtag := s.selM.tags
  if newtag = curtag ∨ curtag = 0#32 ∨ curtag &&& (curtag - 1#32) ≠ 0#32 then s
  else
    let s := s.selM.clients.foldl (fun s c =>
      s.modClient c fun k => { k with tags := swapped curtag newtag k.tags }) s
    arrangesel (focus none (s.modSettings s.selmon (Settings.setTags newtag)))

/-- `tag`.  The last call reads `selmon->sel` again. -/
def tag (arg : TagSet) (s : State) : Except Fault State :=
  match s.sel with
  | some c =>
      if arg &&& tagmask ≠ 0#32 then do
        let s := s.modClient c fun k => { k with tags := arg &&& tagmask }
        let s := arrangesel (focus none s)
        let s := if viewontag ∧ arg &&& tagmask ≠ tagmask then view arg s else s
        let _ ← s.theSel
        return s
      else .ok s
  | none => .ok s

/-- `toggletag`. -/
def toggletag (arg : TagSet) (s : State) : State :=
  match s.sel with
  | some c =>
      let newtags := (s.client c).tags ^^^ (arg &&& tagmask)
      if newtags ≠ 0#32 then
        arrangesel (focus none (s.modClient c fun k => { k with tags := newtags }))
      else s
  | none => s

/-- `setlayout` on the selected monitor. -/
def Settings.setlayout (arg : Option Layout) (m : Settings) : Settings :=
  let t := m.pertag.curtag
  let m := if arg ≠ some m.layout then
      let b := !m.pertag.sellts t
      { m with sellt := b, pertag := { m.pertag with
          sellts := Function.update m.pertag.sellts t b } }
    else m
  match arg with
  | some l =>
      let p := m.pertag
      let lts := Function.update (p.ltidxs t) m.sellt l
      { m with
        lt := Function.update m.lt m.sellt l
        pertag := { p with ltidxs := Function.update p.ltidxs t lts } }
  | none => m

/-- `setlayout`. -/
def setlayout (arg : Option Layout) (s : State) : State :=
  let s := s.modSettings s.selmon (Settings.setlayout arg)
  if s.sel ≠ none then arrangesel s else s

/-- The layout `cyclelayout` turns to. -/
def nextlayout (i : Int) (l : Layout) : Layout :=
  let n := layouts.idxOf l
  if i > 0 then (layouts[n + 1]?).getD .tile
  else if n = 0 then .clear else (layouts[n - 1]?).getD .clear

/-- `cyclelayout`. -/
def cyclelayout (i : Int) (s : State) : State :=
  setlayout (some (nextlayout i s.selM.layout)) s

/-- `MIN(MAX(n, nminmaster), nmaxmaster)`. -/
def clampmaster (n : Int) : Int := min (max n nminmaster) nmaxmaster

/-- `incnmaster` on the selected monitor. -/
def Settings.incnmaster (i : Int) (m : Settings) : Settings :=
  let n :=
    if m.nmaster > 0 then clampmaster (m.nmaster + i)
    else if m.nmaster < 0 then nminmaster
    else if i > 0 then clampmaster (m.nmaster + i)
    else nminmaster
  { m with nmaster := n, pertag := { m.pertag with
      nmasters := Function.update m.pertag.nmasters m.pertag.curtag n } }

/-- `incnmaster`; its `incfloat` only restacks windows on the screen. -/
def incnmaster (i : Int) (s : State) : Except Fault State := do
  if ← s.selfloats then return s
  return arrangesel (s.modSettings s.selmon (Settings.incnmaster i))

/-- `resetnmaster`. -/
def resetnmaster (arg : TagSet) (s : State) : State :=
  arrangesel (s.modSettings s.selmon fun m => { m with nmaster := clampmaster arg.toNat })

/-- `moveclient`. -/
def moveclient (r : Rect) (s : State) : State :=
  match s.sel with
  | some c =>
      if (s.client c).isfixed then s
      else if !s.arranges || (s.client c).isfloating then
        let s := s.modGeom c fun g => { g with oldx := g.x, oldy := g.y, oldw := g.w, oldh := g.h }
        s.resize c r true
      else s
  | none => s

/-- `togglefloating`. -/
def togglefloating (s : State) : State :=
  match s.sel with
  | some c =>
      if (s.client c).isfullscreen then s
      else
        let s := s.modClient c fun k => { k with isfloating := !k.isfloating || k.isfixed }
        let s := if (s.client c).isfloating then s.resize c (s.rect c) false else s
        let m := s.monOf c
        let bar := if floatoffset && s.selM.showbar then s.bh else 0
        let s := s.modGeom c fun g => { g with
          x := m.mx + (m.mw - g.width).tdiv 2
          y := m.my + bar + (m.mh - bar - g.height).tdiv 2 }
        arrangesel s
  | none => s

/-- The dead band that the settable fractions keep to. -/
def inBand (lo hi f : Rat) : Bool := lo ≤ f && f ≤ hi

/-- `setmfact` in an arranging layout, `none` where it returns early. -/
def Settings.setmfact (arg : Rat) (m : Settings) : Option Settings :=
  let p := m.pertag
  if m.layout = .doubledeck then
    let f := if arg < 1 then arg + m.dmfact else arg - 1
    if inBand (5 / 100) (95 / 100) f then
      some { m with dmfact := f, pertag := { p with dmfacts := Function.update p.dmfacts p.curtag f } }
    else none
  else
    let f := if arg < 1 then arg + m.mfact else arg - 1
    if inBand (5 / 100) (95 / 100) f then
      some { m with mfact := f, pertag := { p with mfacts := Function.update p.mfacts p.curtag f } }
    else none

/-- `setsmfact` in an arranging layout, `none` where it returns early. -/
def Settings.setsmfact (arg : Rat) (m : Settings) : Option Settings :=
  let p := m.pertag
  if m.layout = .zetadeck then
    let f := if arg < 1 then arg + m.zmfact else arg - 1
    if inBand (5 / 100) (95 / 100) f then
      some { m with zmfact := f, pertag := { p with zmfacts := Function.update p.zmfacts p.curtag f } }
    else none
  else
    let f := if arg < 1 then arg + m.smfact else arg - 1
    if inBand 0 (90 / 100) f then
      some { m with smfact := f, pertag := { p with smfacts := Function.update p.smfacts p.curtag f } }
    else none

/-- The shape that `setmfact` and `setsmfact` share: move a floating client,
else set a fraction. -/
def setfact (move : ClientId → State → State) (set : Settings → Option Settings)
    (s : State) : Except Fault State := do
  if ← s.selfloats then
    let c ← s.theSel
    return arrangesel (move c s)
  match set (s.settings s.selmon) with
  | some m => return arrangesel (s.modSettings s.selmon fun _ => m)
  | none => return s

/-- A step that is below 1 is a fraction of 500 pixels. -/
def pixels (arg : Rat) : Rat := if arg < 1 then arg * 500 else arg

/-- `setmfact`. -/
def setmfact (arg : Rat) (s : State) : Except Fault State :=
  setfact (fun c s =>
    let f := pixels arg
    let m := s.selM
    let r := s.rect c
    let fits : Bool := if f > 0 then r.x < m.mw - s.lrpad && r.x + f < m.mw - s.lrpad
      else r.x + r.w > m.mx + s.lrpad && r.x + r.w + f > m.mx + s.lrpad
    if fits then moveclient { r with x := trunc (r.x + f) } s else s)
    (Settings.setmfact arg) s

/-- `setsmfact`.  The first comparison of its second branch subtracts the
height of the bar where the second adds it. -/
def setsmfact (arg : Rat) (s : State) : Except Fault State :=
  setfact (fun c s =>
    let f := pixels arg
    let m := s.selM
    let r := s.rect c
    let bar := if m.showbar then s.bh else 0
    let fits : Bool := if f > 0 then r.y < m.mh - s.lrpad && r.y + f < m.mh - s.lrpad
      else r.y + r.h - bar > m.my + s.lrpad && r.y + r.h + bar + f > m.my + s.lrpad
    if fits then moveclient { r with y := trunc (r.y + f) } s else s)
    (Settings.setsmfact arg) s

/-- `resetmfact` on the selected monitor. -/
def Settings.resetmfact (m : Settings) : Settings :=
  let p := m.pertag
  match m.layout with
  | .doubledeck => { m with
      dmfact := Dwm.dmfact
      pertag := { p with dmfacts := Function.update p.dmfacts p.curtag Dwm.dmfact } }
  | .zetadeck => { m with
      zmfact := Dwm.zmfact
      pertag := { p with zmfacts := Function.update p.zmfacts p.curtag Dwm.zmfact } }
  | _ => { m with
      mfact := Dwm.mfact
      smfact := Dwm.smfact
      pertag := { p with
        mfacts := Function.update p.mfacts p.curtag Dwm.mfact
        smfacts := Function.update p.smfacts p.curtag Dwm.smfact } }

/-- `resetmfact`. -/
def resetmfact (s : State) : State :=
  if s.arranges then arrangesel (s.modSettings s.selmon Settings.resetmfact) else s

/-- The shape that `setwfact` and `sethfact` share: both do nothing but
rearrange where the selected client is tiled. -/
def setsize (r : Rat → State → Rect → Rect) (arg : Rat) (s : State) : Except Fault State := do
  if ← s.selfloats then
    let c ← s.theSel
    return arrangesel (moveclient (r (pixels arg) s (s.rect c)) s)
  return arrangesel s

/-- `setwfact`. -/
def setwfact : Rat → State → Except Fault State :=
  setsize fun f s r => { r with
    w := trunc (if f > 0 then min (r.w + f) (s.selM.mw * (3 / 2)) else max (r.w + f) mincellw) }

/-- `sethfact`. -/
def sethfact : Rat → State → Except Fault State :=
  setsize fun f s r => { r with
    h := trunc (if f > 0 then min (r.h + f) (s.selM.mh * (3 / 2)) else max (r.h + f) mincellh) }

/-- `maximize`. -/
def maximize (r : Rect) (s : State) : State :=
  match s.sel with
  | some c =>
      if (s.client c).isfixed then s
      else if !(s.client c).ismax then
        let s :=
          if !s.arranges || (s.client c).isfloating then
            s.modClient c fun k => { k with wasfloating := true }
          else (togglefloating s).modClient c fun k => { k with wasfloating := false }
        let s := s.modGeom c fun g => { g with oldx := g.x, oldy := g.y, oldw := g.w, oldh := g.h }
        (s.resize c r true).modClient c fun k => { k with ismax := true }
      else
        let g := s.geom c
        let s := s.resize c ⟨g.oldx, g.oldy, g.oldw, g.oldh⟩ true
        let s := if !(s.client c).wasfloating then togglefloating s else s
        s.modClient c fun k => { k with ismax := false }
  | none => s

/-- `fmaximize`. -/
def fmaximize (arg : TagSet) (s : State) : Except Fault State := do
  let m := s.selM
  let w := m.ww - 2 * borderpx
  let h := m.wh - 2 * borderpx
  match arg.toNat with
  | 0 => return maximize ⟨m.wx, m.wy, w, h⟩ s
  | 1 =>
      let r := s.rect (← s.theSel)
      return maximize ⟨m.wx, r.y, w, r.h⟩ s
  | 2 =>
      let r := s.rect (← s.theSel)
      return maximize ⟨r.x, m.wy, r.w, h⟩ s
  | _ => return s

/-- `fsnap`. -/
def fsnap (arg : TagSet) (s : State) : Except Fault State := do
  let m := s.selM
  let gap := if m.drawwithgaps then gappx else 0
  let hf := if m.showbar then s.bh else 0
  match arg.toNat with
  | 0 =>
      let r := s.rect (← s.theSel)
      return moveclient { r with x := m.wx + gap } s
  | 1 =>
      let r := s.rect (← s.theSel)
      return moveclient { r with y := m.wh - 2 * borderpx - gap - r.h + hf } s
  | 2 =>
      let r := s.rect (← s.theSel)
      return moveclient { r with y := m.wy + gap } s
  | 3 =>
      let r := s.rect (← s.theSel)
      return moveclient { r with x := m.ww - 2 * borderpx - gap - r.w } s
  | _ => return s

/-- `fdeck`. -/
def fdeck (arg : TagSet) (s : State) : State :=
  let m := s.selM
  let gap := if m.drawwithgaps then gappx else 0
  let hf := if m.showbar then s.bh else 0
  let fw := m.ww - 2 * gap - 2 * borderpx
  let fh := m.wh - 2 * gap - 2 * borderpx
  let hw := (m.ww - 3 * gap - 2 * borderpx).tdiv 2
  let hh := (m.wh - 3 * gap - 2 * borderpx).tdiv 2
  match arg.toNat with
  | 0 => moveclient ⟨m.wx + gap + borderpx, m.wy + gap, hw, fh⟩ s
  | 1 => moveclient ⟨m.wx + gap, m.wh.tdiv 2 + borderpx + gap.tdiv 2 + hf, fw, hh⟩ s
  | 2 => moveclient ⟨m.wx + gap, m.wy + gap, fw, hh⟩ s
  | 3 => moveclient ⟨m.ww.tdiv 2 + borderpx + gap.tdiv 2, m.wy + gap, hw, fh⟩ s
  | _ => s

/-- `togglefullscr`. -/
def togglefullscr (s : State) : State :=
  match s.sel with
  | some c => setfullscreen c (!(s.client c).isfullscreen) s
  | none => s

/-- `togglesticky`. -/
def togglesticky (s : State) : State :=
  match s.sel with
  | some c => arrangesel (setsticky c (!(s.client c).issticky) s)
  | none => s

/-- `updatebarpos`. -/
def Settings.updatebarpos (bh : Int) (m : Settings) : Settings :=
  if m.showbar then { m with
    wh := m.mh - bh
    by' := if m.topbar then m.my else m.my + (m.mh - bh)
    wy := if m.topbar then m.my + bh else m.my }
  else { m with wy := m.my, wh := m.mh, by' := -bh }

/-- `togglebar`. -/
def togglebar (s : State) : State :=
  arrangesel (s.modSettings s.selmon fun m =>
    Settings.updatebarpos s.bh { m with showbar := !m.showbar })

/-- `setgaps`. -/
def setgaps (i : Int) (s : State) : State :=
  arrangesel (s.modSettings s.selmon fun m =>
    if i = GAP_TOGGLE then { m with drawwithgaps := !m.drawwithgaps }
    else if i = GAP_RESET then { m with gappx := Dwm.gappx }
    else if m.gappx + i < 0 then { m with gappx := 0 }
    else { m with gappx := min (m.gappx + i) maxgappx })

/-- `zoom`. -/
def zoom (s : State) : State :=
  let tiled := s.tiled s.selmon
  let t := { s with prevclient := tiled.head? }
  match s.sel with
  | some c =>
      if !s.arranges || (s.client c).isfloating then t
      else if tiled.head? = some c then
        match tiled[1]? with
        | some d => pop d { s with prevclient := some d }
        | none => { s with prevclient := none }
      else pop c t
  | none => t

/-- `rotatestack`. -/
def rotatestack (i : Int) (s : State) : State :=
  match s.sel with
  | some f =>
      if i > 0 then
        match (s.tiled s.selmon).getLast? with
        | some c => focus (some f)
            (arrangesel (attachstack c (detachstack c (attach c (detach c s)))))
        | none => s
      else
        match (s.tiled s.selmon).head? with
        | some c => focus (some f)
            (arrangesel (enqueuestack c (detachstack c (enqueue c (detach c s)))))
        | none => s
  | none => s

/-- `focusmaster`.  `tagmarked` may hold a client that is gone. -/
def focusmaster (s : State) : Except Fault State :=
  match s.sel, (s.tiled s.selmon).head? with
  | some c, some master =>
      let i := lowestTag s.selM.tags + 1
      if s.selM.nmaster > 1 ∨ (s.client c).isfullscreen ∧ lockfullscreen then .ok s
      else if c = master then
        match s.selM.tagmarked i with
        | some d =>
            if s.live d = false ∨ s.own d ∉ s.mons then .error .dangling
            else if s.visible d then .ok (focus (some d) s) else .ok s
        | none => .ok s
      else
        .ok (focus (some master) (s.modMon s.selmon fun m => { m with
          tagmarked := Function.update m.tagmarked i (some c) }))
  | _, _ => .ok s

/-- `focusmon`. -/
def focusmon (i : Int) (s : State) : State :=
  let m := dirtomon i s
  if s.mons.length < 2 ∨ m = s.selmon then s
  else focus none { unfocus s.sel s with selmon := m }

/-- The client `focusstack` turns to, upwards or downwards from `c`. -/
def stackNeighbour (i : Int) (c : ClientId) (s : State) : Except Fault (Option ClientId) :=
  let cs := s.selM.clients
  if i > 0 then
    .ok (((cs.dropWhile (· ≠ c)).tail.find? s.visible).or (cs.find? s.visible))
  else if c ∈ cs then
    .ok (((cs.takeWhile (· ≠ c)).filter s.visible).getLast?.or
      ((cs.dropWhile (· ≠ c)).filter s.visible).getLast?)
  else .error .offList

/-- `focusstack`. -/
def focusstack (i : Int) (s : State) : Except Fault State :=
  match s.sel with
  | some c =>
      if (s.client c).isfullscreen ∧ lockfullscreen then .ok s
      else do
        match ← stackNeighbour i c s with
        | some d => return focus (some d) s
        | none => return s
  | none => .ok s

/-- The first 32 clients of `selmon` that are on a tag in view and have the
class. -/
def sameclass (cls : Window → Option String) (class_ : String) (s : State) : List ClientId :=
  (s.selM.clients.filter fun c =>
    (s.client c).tags &&& s.selM.tags ≠ 0#32 && cls (s.client c).win = some class_).take 32

/-- `focussame`; `cls` is what `XGetClassHint` answers.  With no client in the
array, the fallback reads an element that was never written. -/
def focussame (cls : Window → Option String) (i : Int) (s : State) : Except Fault State :=
  match s.sel with
  | some c =>
      match cls (s.client c).win with
      | some class_ =>
          let cs := sameclass cls class_ s
          let n := cs.length
          let at? := cs.findIdx? fun d => (s.client d).win = (s.client c).win
          let target :=
            if i = 1 then cs[((at?.map fun k => (k + 1) % n).getD 0)]?
            else if i = -1 then cs[((at?.map fun k => (k + n - 1) % n).getD (n - 1))]?
            else none
          match target with
          | some d => .ok (focus (some d) s)
          | none => if i = 1 ∨ i = -1 then .error .unset else .ok s
      | none => .ok s
  | none => .ok s

/-- `swapfocus`. -/
def swapfocus (s : State) : Except Fault State :=
  match s.prevclient, s.sel with
  | some p, some c =>
      if c ≠ p then .ok (if p ∈ s.selM.clients then focus (some p) s else s)
      else focusstack (-1) s
  | _, _ => .ok s

/-- `tagmon`. -/
def tagmon (i : Int) (s : State) : State :=
  match s.sel with
  | some c => if s.mons.length < 2 then s else sendmon c (dirtomon i s) s
  | none => s

/-- One round of the first two loops of `tagswapmon`. -/
def withdraw (c : ClientId) (s : State) : State := detachstack c (detach c (unfocus (some c) s))

/-- One round of the last two loops of `tagswapmon`. -/
def settle (m : MonId) (c : ClientId) (s : State) : State :=
  let s := s.modClient c fun k => { k with mon := m, tags := (s.monitor m).tags }
  let s := attachstack c (attach c s)
  if (s.client c).isfullscreen then
    s.resizeclient c ⟨(s.monitor m).mx, (s.monitor m).my, (s.monitor m).mw, (s.monitor m).mh⟩
  else s

/-- `tagswapmon`.  The two auxiliary lists come out reversed. -/
def tagswapmon (i : Int) (s : State) : State :=
  if s.mons.length < 2 then s
  else
    let m := dirtomon i s
    let sc := s.selM.clients.filter s.visible
    let s := sc.foldl (fun s c => withdraw c s) s
    let mc := (s.monitor m).clients.filter s.visible
    let s := mc.foldl (fun s c => withdraw c s) s
    let s := sc.reverse.foldl (fun s c => settle m c s) s
    let s := mc.reverse.foldl (fun s c => settle s.selmon c s) s
    arrange none (focus none s)

/-- A command that `keys[]` binds; `cls` is what `XGetClassHint` answers.
`spawn`, `killclient`, `quit` and `incfloat` change nothing that dwm keeps, and
the mouse commands are bound to no key. -/
def runKey (cls : Window → Option String) (k : Binding) (s : State) : Except Fault State :=
  let arg := k.2
  match k.1 with
  | .spawn | .killclient | .quit | .incfloat | .moveorplace | .resizemouse => .ok s
  | .togglebar => .ok (togglebar s)
  | .incnmaster => incnmaster arg.int s
  | .resetnmaster => .ok (resetnmaster arg.tags s)
  | .zoom => .ok (zoom s)
  | .view => .ok (view arg.tags s)
  | .setlayout => .ok (setlayout arg.layout s)
  | .togglefloating => .ok (togglefloating s)
  | .focusmaster => focusmaster s
  | .resetmfact => .ok (resetmfact s)
  | .togglefullscr => .ok (togglefullscr s)
  | .togglesticky => .ok (togglesticky s)
  | .swapfocus => swapfocus s
  | .tag => tag arg.tags s
  | .setmfact => setmfact arg.fact s
  | .setgaps => .ok (setgaps arg.int s)
  | .focusmon => .ok (focusmon arg.int s)
  | .tagmon => .ok (tagmon arg.int s)
  | .tagswapmon => .ok (tagswapmon arg.int s)
  | .rotatetags => .ok (rotatetags arg.int s)
  | .rotatestack => .ok (rotatestack arg.int s)
  | .cyclelayout => .ok (cyclelayout arg.int s)
  | .shiftviewclients => shiftviewclients arg.int s
  | .focusstack => focusstack arg.int s
  | .setsmfact => setsmfact arg.fact s
  | .fmaximize => fmaximize arg.tags s
  | .setwfact => setwfact arg.fact s
  | .sethfact => sethfact arg.fact s
  | .fsnap => fsnap arg.tags s
  | .fdeck => .ok (fdeck arg.tags s)
  | .focussame => focussame cls arg.int s
  | .toggleview => .ok (toggleview arg.tags s)
  | .swaptag => .ok (swaptag arg.tags s)
  | .toggletag => .ok (toggletag arg.tags s)

end Dwm
