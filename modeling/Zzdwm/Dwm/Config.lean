/-!
# The configuration of dwm (`config.def.h`)

The constants, tag rules, layouts, key bindings and button bindings that dwm
is compiled with.  Modifiers, key symbols, colours, fonts and the texts that
only the bar shows are left out: any bound key may be pressed at any time.
-/

namespace Dwm

/-- A tag set is an `unsigned int` used as a bit array. -/
abbrev TagSet := BitVec 32

/-- `LENGTH(tags)`: the tags are "1" to "9". -/
def ntags : Nat := 9

/-- `TAGMASK`. -/
def tagmask : TagSet := 1#32 <<< ntags - 1#32

/-- `1 << i`. -/
def tagBit (i : Nat) : TagSet := 1#32 <<< i

/-- The entries of `layouts[]`, named after their arrange functions.
`floating` is the entry without one. -/
inductive Layout
  | tile | floating | monocle | grid | doubledeck | zetadeck | bstack | clear
  deriving DecidableEq, Repr

/-- `layouts[]` without its terminator. -/
def layouts : List Layout :=
  [.tile, .floating, .monocle, .grid, .doubledeck, .zetadeck, .bstack, .clear]

/-- Is `lt->arrange` set? -/
def Layout.arranges (l : Layout) : Bool := l ≠ .floating

/-- The union `Arg`, by the member the binding fills in. -/
inductive Arg
  | i (n : Int)
  | ui (t : TagSet)
  | f (x : Rat)
  | v (l : Layout)
  deriving DecidableEq

/-- `arg->i`. -/
def Arg.int : Arg → Int
  | .i n => n
  | .ui t => t.toInt
  | _ => 0

/-- `arg->ui`. -/
def Arg.tags : Arg → TagSet
  | .i n => BitVec.ofInt 32 n
  | .ui t => t
  | _ => 0#32

/-- `arg->f` and `arg->sf`, which are one float. -/
def Arg.fact : Arg → Rat
  | .f x => x
  | _ => 0

/-- `arg->v` where it points at a layout; the argument `{0}` holds `NULL`. -/
def Arg.layout : Arg → Option Layout
  | .v l => some l
  | _ => none

/-- A tag rule. -/
structure Rule where
  class_ : Option String
  instance_ : Option String
  title : Option String
  tags : TagSet
  isfloating : Bool
  monitor : Int

def rules : List Rule :=
  [⟨some "Gimp", none, none, 0#32, true, -1⟩,
   ⟨some "Firefox", none, none, tagBit 8, false, -1⟩]

def borderpx : Int := 1
def snap : Int := 32
def deftag : Nat := 1
def startwithgaps : Bool := true
def gappx : Int := 5
def maxgappx : Int := 50
def vertgappx : Int := 4
def showbar : Bool := false
def topbar : Bool := true
def focusonwheel : Bool := false
def viewontag : Bool := true
def attachmode : Nat := 0
def mincellw : Int := 200
def mincellh : Int := 120
def floatoffset : Bool := true
def minwfact : Rat := 2
def decorhints : Bool := true
def lockfullscreen : Bool := true

def mfact : Rat := 55 / 100
def smfact : Rat := 0
def dmfact : Rat := 50 / 100
def zmfact : Rat := 50 / 100
def nmaster : Int := 1
def nmaxmaster : Int := 4
def nminmaster : Int := 0

def taglayouts : List Nat := [2, 2, 0, 0, 0, 0, 0, 0, 0]

def GAP_TOGGLE : Int := 100
def GAP_RESET : Int := 0

/-- The command functions that `keys[]` and `buttons[]` name. -/
inductive Func
  | spawn | togglebar | incnmaster | resetnmaster | zoom | view | killclient
  | setlayout | togglefloating | focusmaster | resetmfact | togglefullscr
  | togglesticky | swapfocus | tag | setmfact | setgaps | focusmon | tagmon
  | tagswapmon | rotatetags | rotatestack | cyclelayout | shiftviewclients
  | focusstack | setsmfact | fmaximize | setwfact | sethfact | fsnap | fdeck
  | focussame | toggleview | swaptag | toggletag | quit
  | moveorplace | resizemouse | incfloat
  deriving DecidableEq, Repr

/-- A bound command with its configured argument. -/
abbrev Binding := Func × Arg

instance : LawfulBEq Binding := inferInstance

/-- `TAGKEYS(KEY, TAG)`. -/
def tagkeys (tag : Nat) : List Binding :=
  [(.view, .ui (tagBit tag)), (.toggleview, .ui (tagBit tag)),
   (.tag, .ui (tagBit tag)), (.swaptag, .ui (tagBit tag)),
   (.toggletag, .ui (tagBit tag))]

/-- `keys[]`. -/
def keys : List Binding :=
  ([(.spawn, .i 0), (.spawn, .i 0),
   (.togglebar, .i 0),
   (.incnmaster, .i 1), (.incnmaster, .i (-1)),
   (.resetnmaster, .ui (BitVec.ofInt 32 nmaxmaster)),
   (.resetnmaster, .ui (BitVec.ofInt 32 nminmaster)),
   (.zoom, .i 0), (.view, .i 0),
   (.killclient, .i 0), (.killclient, .ui 1#32), (.killclient, .ui 2#32),
   (.setlayout, .v .tile), (.setlayout, .v .floating), (.setlayout, .v .monocle),
   (.setlayout, .v .grid), (.setlayout, .v .doubledeck), (.setlayout, .v .zetadeck),
   (.setlayout, .v .bstack), (.setlayout, .v .clear), (.setlayout, .i 0),
   (.togglefloating, .i 0), (.focusmaster, .i 0), (.resetmfact, .i 0),
   (.setlayout, .i 0),
   (.togglefloating, .i 0), (.focusmaster, .i 0), (.resetmfact, .i 0),
   (.togglefullscr, .i 0), (.togglesticky, .i 0), (.swapfocus, .i 0),
   (.view, .ui (BitVec.allOnes 32)), (.tag, .ui (BitVec.allOnes 32)),
   (.setmfact, .f (-5 / 100)), (.setmfact, .f (5 / 100)),
   (.setgaps, .i (-5)), (.setgaps, .i 5),
   (.setgaps, .i GAP_RESET), (.setgaps, .i GAP_TOGGLE),
   (.focusmon, .i (-1)), (.focusmon, .i 1),
   (.tagmon, .i (-1)), (.tagmon, .i 1),
   (.tagswapmon, .i (-1)), (.tagswapmon, .i 1),
   (.rotatetags, .i (-1)), (.rotatetags, .i 1),
   (.rotatestack, .i (-1)), (.rotatestack, .i 1),
   (.cyclelayout, .i (-1)), (.cyclelayout, .i 1),
   (.shiftviewclients, .i (-1)), (.shiftviewclients, .i 1),
   (.focusstack, .i 1), (.focusstack, .i (-1)),
   (.setmfact, .f (-5 / 100)), (.setmfact, .f (5 / 100)),
   (.setsmfact, .f (5 / 100)), (.setsmfact, .f (-5 / 100)),
   (.fmaximize, .ui 0#32), (.fmaximize, .ui 1#32), (.fmaximize, .ui 2#32),
   (.setwfact, .f (-5 / 100)), (.setwfact, .f (5 / 100)),
   (.sethfact, .f (5 / 100)), (.sethfact, .f (-5 / 100)),
   (.fsnap, .ui 0#32), (.fsnap, .ui 1#32), (.fsnap, .ui 2#32), (.fsnap, .ui 3#32),
   (.fdeck, .ui 0#32), (.fdeck, .ui 1#32), (.fdeck, .ui 2#32), (.fdeck, .ui 3#32),
   (.focussame, .i 1), (.focussame, .i (-1))] : List Binding) ++
  (List.range 9).flatMap tagkeys ++
  [(.quit, .i 0), (.quit, .i 1)]

/-- Where a button was pressed. -/
inductive Click
  | tagBar (i : Nat) | ltSymbol | statusText | winTitle | clientWin | rootWin
  deriving DecidableEq

instance : LawfulBEq (Click × Binding) := inferInstance

/-- `buttons[]`: the click a binding waits for (`tagBar` stands for every
tag), the command and its argument. -/
def buttons : List (Click × Binding) :=
  [(.ltSymbol, .setlayout, .i 0), (.ltSymbol, .setlayout, .v .monocle),
   (.winTitle, .zoom, .i 0), (.statusText, .spawn, .i 0),
   (.clientWin, .moveorplace, .i 1), (.clientWin, .togglefloating, .i 0),
   (.clientWin, .resizemouse, .i 0),
   (.clientWin, .incfloat, .i 1), (.clientWin, .incfloat, .i (-1)),
   (.tagBar 0, .view, .i 0), (.tagBar 0, .toggleview, .i 0),
   (.tagBar 0, .tag, .i 0), (.tagBar 0, .toggletag, .i 0),
   (.tagBar 0, .rotatetags, .i (-1)), (.tagBar 0, .rotatetags, .i 1),
   (.tagBar 0, .shiftviewclients, .i (-1)), (.tagBar 0, .shiftviewclients, .i 1)]

end Dwm
