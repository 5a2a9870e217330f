import Zzdwm.Lib.Ascii

/-!
# Compiling regular expressions (`regexp.c`)

A pattern becomes a program in one pass over its text.  Nodes are emitted one behind the
other, an operator that comes after its operand is put in front of it, and the ends of
the chains are linked when it is known what follows.

* `Cell` — a node of a program, or a byte of the string behind it;
* `regnode`, `reginsert`, `regtail`, `regoptail` — the emitter;
* `regatom`, `regpiece`, `regbranch`, `reg` — the recursive descent;
* `regcomp` — the compiler, and what it notes for the search.

The source runs the descent twice, the first time to count; the count is taken from the
program here.  A node is one cell, so the offsets count cells.
-/

namespace Regexp

open Ascii (Byte bytes)

inductive Op
  | END | BOL | EOL | ANY | ANYOF | ANYBUT | BRANCH | BACK | EXACTLY | NOTHING | STAR | PLUS
  | OPEN (no : Nat)
  | CLOSE (no : Nat)
deriving DecidableEq, Repr

/-- An opcode with the offset of its "next" pointer, 0 for none, or a byte of an operand. -/
inductive Cell
  | node (op : Op) (next : Nat)
  | char (c : Byte)
deriving DecidableEq, Repr

/-- `program`. -/
abbrev Code := List Cell

def NSUBEXP : Nat := 10
def MAGIC : Byte := 0x9C
def META : List Byte := bytes "^$.[()|?+*\\"

def ISMULT (c : Byte) : Bool := c = 0x2A || c = 0x2B || c = 0x3F

/-- The bytes of a program. -/
def Code.size (code : Code) : Nat :=
  (code.map fun
    | .node _ _ => 3
    | .char _ => 1).sum

/-- `OP`. -/
def Code.op (code : Code) (p : Nat) : Option Op :=
  match code[p]? with
  | some (.node op _) => some op
  | _ => none

/-- The string in front of a zero byte. -/
def cstr : List Cell → List Byte
  | .char c :: cells => if c = 0 then [] else c :: cstr cells
  | _ => []

/-- The string behind a node: `OPERAND` as a string. -/
def Code.operand (code : Code) (p : Nat) : List Byte := cstr (code.drop (p + 1))

/-- `regnext`. -/
def regnext (code : Code) (p : Nat) : Option Nat :=
  match code[p]? with
  | some (.node op next) =>
      if next = 0 then none else if op = .BACK then some (p - next) else some (p + next)
  | _ => none

/-! ## Emitting -/

/-- `regparse`, `regnpar` and `regcode`. -/
structure Comp where
  regparse : List Byte
  regnpar : Nat
  regcode : Code

/-- `regnode`; the node's place is the end of the program so far. -/
def Comp.regnode (op : Op) (c : Comp) : Comp := { c with regcode := c.regcode ++ [.node op 0] }

/-- `regc` for a string and its zero byte. -/
def Comp.regcs (cs : List Byte) (c : Comp) : Comp :=
  { c with regcode := c.regcode ++ (cs.map Cell.char ++ [.char 0]) }

/-- `reginsert`. -/
def Comp.reginsert (op : Op) (opnd : Nat) (c : Comp) : Comp :=
  { c with regcode := c.regcode.take opnd ++ .node op 0 :: c.regcode.drop opnd }

/-- The loop of `regtail`: the last node of a chain. -/
def lastNode (code : Code) : Nat → Nat → Nat
  | 0, p => p
  | f + 1, p =>
      match regnext code p with
      | none => p
      | some q => lastNode code f q

/-- A "next" pointer is set. -/
def Code.link (code : Code) (p val : Nat) : Code :=
  match code[p]? with
  | some (.node op _) => code.set p (.node op (if op = .BACK then p - val else val - p))
  | _ => code

/-- `regtail`. -/
def Comp.regtail (p val : Nat) (c : Comp) : Comp :=
  { c with regcode := c.regcode.link (lastNode c.regcode c.regcode.length p) val }

/-- `regoptail`. -/
def Comp.regoptail (p val : Nat) (c : Comp) : Comp :=
  if c.regcode.op p = some .BRANCH then c.regtail (p + 1) val else c

/-! ## The descent -/

/-- `HASWIDTH`, `SIMPLE` and `SPSTART`. -/
structure Flags where
  hasWidth : Bool
  simple : Bool
  spStart : Bool

/-- `WORST`. -/
def worst : Flags := ⟨false, false, false⟩

/-- What a function of the descent returns: the first node, the flags and the rest. -/
abbrev Parsed := Except String (Nat × Flags × Comp)

/-- The characters behind one, up to another. -/
def between (last d : Byte) : List Byte :=
  (List.range' (last.toNat + 1) (d.toNat - last.toNat)).map Nat.toUInt8

/-- The loop over the characters of `[…]`; `last` is the character before.  What is left
begins with the bracket that closes it. -/
def classLoop : Byte → List Byte → Except String (List Byte × List Byte)
  | _, [] => .ok ([], [])
  | last, c :: rest =>
      if c = 0x5D then .ok ([], c :: rest)
      else if c = 0x2D then
        match rest with
        | [] => .ok ([0x2D], [])
        | d :: rest =>
            if d = 0x5D then .ok ([0x2D], d :: rest)
            else if last.toNat + 1 > d.toNat + 1 then .error "invalid [] range"
            else do
              let (cs, rest) ← classLoop d rest
              return (between last d ++ cs, rest)
      else do
        let (cs, rest) ← classLoop c rest
        return (c :: cs, rest)

/-- A "]" or "-" that comes first stands for itself. -/
def classFirst (last : Byte) (text : List Byte) : Except String (List Byte × List Byte) :=
  match text with
  | c :: rest =>
      if c = 0x5D ∨ c = 0x2D then do
        let (cs, rest) ← classLoop c rest
        return (c :: cs, rest)
      else classLoop last text
  | [] => classLoop last text

/-- The node of the characters that are listed, and the bracket that closes them. -/
def listNode (op : Op) (last : Byte) (text : List Byte) (c : Comp) : Parsed := do
  let (cs, text) ← classFirst last text
  match text with
  | [] => .error "unmatched []"
  | _ :: text =>
      return (c.regcode.length, ⟨true, true, false⟩,
        (({ c with regparse := text }.regnode op).regcs cs))

/-- `[…]`, from behind the bracket that opens it. -/
def regclass (c : Comp) : Parsed :=
  match c.regparse with
  | b :: rest =>
      if b = 0x5E then listNode .ANYBUT b rest c else listNode .ANYOF 0x5B c.regparse c
  | [] => listNode .ANYOF 0x5B [] c

/-- How many ordinary characters become one node: not the one that an operator follows,
unless it is alone. -/
def runLength (text : List Byte) : Nat :=
  let len := (text.takeWhile (· ∉ META)).length
  if len > 1 ∧ (text.drop len).head?.any ISMULT then len - 1 else len

/-- `regatom`; `sub` is `reg (1, …)`. -/
def regatom (sub : Comp → Parsed) (c : Comp) : Parsed :=
  match c.regparse with
  | [] => .error "internal urp"
  | b :: rest =>
      let ret := c.regcode.length
      let after := { c with regparse := rest }
      if b = 0x5E then .ok (ret, worst, after.regnode .BOL)
      else if b = 0x24 then .ok (ret, worst, after.regnode .EOL)
      else if b = 0x2E then .ok (ret, ⟨true, true, false⟩, after.regnode .ANY)
      else if b = 0x5B then regclass after
      else if b = 0x28 then do
        let (ret, flags, c) ← sub after
        return (ret, ⟨flags.hasWidth, false, flags.spStart⟩, c)
      else if b = 0x7C ∨ b = 0x29 then .error "internal urp"
      else if ISMULT b then .error "?+* follows nothing"
      else if b = 0x5C then
        match rest with
        | [] => .error "trailing \\"
        | d :: rest =>
            .ok (ret, ⟨true, true, false⟩,
              ({ c with regparse := rest }.regnode .EXACTLY).regcs [d])
      else
        let len := runLength c.regparse
        if len = 0 then .error "internal disaster"
        else .ok (ret, ⟨true, len = 1, false⟩,
          ({ c with regparse := c.regparse.drop len }.regnode .EXACTLY).regcs
            (c.regparse.take len))

/-- What `regpiece` emits for an operator, `ret` being its operand. -/
def repeated (op : Byte) (simple : Bool) (ret : Nat) (c : Comp) : Comp :=
  if op = 0x2A then
    if simple then c.reginsert .STAR ret
    else
      -- x* as (x&|), where & means "self"
      let c := c.reginsert .BRANCH ret
      let back := c.regcode.length
      let c := ((c.regnode .BACK).regoptail ret back).regoptail ret ret
      let branch := c.regcode.length
      let c := (c.regnode .BRANCH).regtail ret branch
      let nothing := c.regcode.length
      (c.regnode .NOTHING).regtail ret nothing
  else if op = 0x2B then
    if simple then c.reginsert .PLUS ret
    else
      -- x+ as x(&|)
      let next := c.regcode.length
      let c := (c.regnode .BRANCH).regtail ret next
      let back := c.regcode.length
      let c := (c.regnode .BACK).regtail back ret
      let branch := c.regcode.length
      let c := (c.regnode .BRANCH).regtail next branch
      let nothing := c.regcode.length
      (c.regnode .NOTHING).regtail ret nothing
  else
    -- x? as (x|)
    let c := c.reginsert .BRANCH ret
    let branch := c.regcode.length
    let c := (c.regnode .BRANCH).regtail ret branch
    let next := c.regcode.length
    ((c.regnode .NOTHING).regtail ret next).regoptail ret next

/-- `regpiece`. -/
def regpiece (sub : Comp → Parsed) (c : Comp) : Parsed := do
  let (ret, flags, c) ← regatom sub c
  match c.regparse with
  | [] => return (ret, flags, c)
  | op :: rest =>
      if !ISMULT op then return (ret, flags, c)
      else if !flags.hasWidth && op != 0x3F then .error "*+ operand could be empty"
      else
        let c := repeated op flags.simple ret c
        if rest.head?.any ISMULT then .error "nested *?+"
        else return (ret, if op = 0x2B then ⟨true, false, false⟩ else ⟨false, false, true⟩,
          { c with regparse := rest })

/-- The loop of `regbranch`; `chain` is the piece before. -/
def pieces (sub : Comp → Parsed) :
    Nat → Option Nat → Flags → Comp → Except String (Option Nat × Flags × Comp)
  | 0, chain, flags, c => .ok (chain, flags, c)
  | f + 1, chain, flags, c =>
      if c.regparse.head?.all fun b => b = 0x7C || b = 0x29 then .ok (chain, flags, c)
      else do
        let (latest, piece, c) ← regpiece sub c
        let flags := { flags with hasWidth := flags.hasWidth || piece.hasWidth }
        match chain with
        | none =>
            pieces sub f (some latest)
              { flags with spStart := flags.spStart || piece.spStart } c
        | some chain => pieces sub f (some latest) flags (c.regtail chain latest)

/-- `regbranch`. -/
def regbranch (sub : Comp → Parsed) (c : Comp) : Parsed := do
  let ret := c.regcode.length
  let (chain, flags, c) ← pieces sub c.regparse.length none worst (c.regnode .BRANCH)
  match chain with
  | some _ => return (ret, flags, c)
  | none => return (ret, flags, c.regnode .NOTHING)

/-- What a branch leaves of the flags of an expression. -/
def Flags.join (flags branch : Flags) : Flags :=
  ⟨flags.hasWidth && branch.hasWidth, false, flags.spStart || branch.spStart⟩

/-- The loop of `reg` over the branches behind the first one. -/
def branches (sub : Comp → Parsed) (ret : Nat) :
    Nat → Flags → Comp → Except String (Flags × Comp)
  | 0, flags, c => .ok (flags, c)
  | f + 1, flags, c =>
      match c.regparse with
      | [] => .ok (flags, c)
      | b :: rest =>
          if b ≠ 0x7C then .ok (flags, c)
          else do
            let (br, branch, c) ← regbranch sub { c with regparse := rest }
            branches sub ret f (flags.join branch) (c.regtail ret br)

/-- The tails of the branches are hooked to the closing node. -/
def hookTails (ender : Nat) : Nat → Nat → Comp → Comp
  | 0, _, c => c
  | f + 1, br, c =>
      let c := c.regoptail br ender
      match regnext c.regcode br with
      | none => c
      | some br => hookTails ender f br c

/-- `reg`.  Ten levels are enough, since the eleventh finds no number left. -/
def reg : Nat → Bool → Comp → Parsed
  | 0, _, _ => .error "too many ()"
  | depth + 1, paren, c =>
      if paren && NSUBEXP ≤ c.regnpar then .error "too many ()"
      else do
        let parno := c.regnpar
        let place := c.regcode.length
        let c := if paren then { c with regnpar := parno + 1 }.regnode (.OPEN parno) else c
        let (br, flags, c) ← regbranch (reg depth true) c
        let c := if paren then c.regtail place br else c
        let (flags, c) ←
          branches (reg depth true) place c.regparse.length ⟨flags.hasWidth, false, flags.spStart⟩ c
        let ender := c.regcode.length
        let c := (c.regnode (if paren then .CLOSE parno else .END)).regtail place ender
        let c := hookTails ender c.regcode.length place c
        match c.regparse with
        | [] => if paren then .error "unmatched ()" else return (place, flags, c)
        | b :: rest =>
            if b = 0x29 then
              if paren then return (place, flags, { c with regparse := rest })
              else .error "unmatched ()"
            else if paren then .error "unmatched ()"
            else .error "junk on end"

/-! ## The program -/

/-- `regexp`, without the spans. -/
structure Prog where
  regstart : Option Byte
  reganch : Bool
  regmust : Option (List Byte)
  program : Code

/-- The longest string on a chain, the last one of that length. -/
def longestString (code : Code) : Nat → Option Nat → Option (List Byte) → Option (List Byte)
  | 0, _, longest => longest
  | _ + 1, none, longest => longest
  | f + 1, some scan, longest =>
      longestString code f (regnext code scan)
        (if code.op scan = some .EXACTLY ∧
            (longest.getD []).length ≤ (code.operand scan).length then some (code.operand scan)
         else longest)

/-- What `regcomp` digs out of a program. -/
def digOut (spStart : Bool) (code : Code) : Prog :=
  match regnext code 1 with
  | some next =>
      if code.op next = some .END then
        ⟨if code.op 2 = some .EXACTLY then (code.operand 2).head? else none,
          code.op 2 = some .BOL,
          if spStart then longestString code code.length (some 2) none else none, code⟩
      else ⟨none, false, none, code⟩
  | none => ⟨none, false, none, code⟩

/-- `regcomp`. -/
def regcomp (exp : List Byte) : Except String Prog := do
  let (_, flags, c) ← reg NSUBEXP false ⟨exp.takeWhile (· ≠ 0), 1, [.char MAGIC]⟩
  if 32767 ≤ Code.size c.regcode then .error "regexp too big"
  else return digOut flags.spStart c.regcode

end Regexp
