import Zzdwm.Lib.Ascii

/-!
# Reading and writing Lisp objects (src/tools/MicroEMACS/tinylisp.c)

* `Object` — numbers, symbols, strings and conses;
* `writeObject` — an object in readable form, written into a buffer that is large
  enough;
* `readNext`, `readNumberOrSymbol`, `readString` — the tokens;
* `readExpr`, `readList` — the reader: an object and the text behind it, or an exception.
-/

namespace Lisp

open Ascii

def quote : Byte := 0x22
def backslash : Byte := 0x5C
def newline : Byte := 0x0A
def dot : Byte := 0x2E

/-- A number is a double: that of a `long`, or the one that `strtod` makes of a text. -/
inductive Number
  | long (n : Int)
  | real (text : List Byte)
deriving DecidableEq

/-- Symbols are interned: they are their names. -/
inductive Object
  | number (x : Number)
  | symbol (name : List Byte)
  | string (s : List Byte)
  | cons (car cdr : Object)
deriving DecidableEq

def nil : Object := .symbol (bytes "nil")

/-! ## Writing -/

/-- Six digits of a number that has more, rounded to even, and the exponent of the
first of them. -/
def significant (n : Nat) : Nat × Nat :=
  let e := (decimal n).length - 1
  let unit := 10 ^ (e - 5)
  let q := n / unit
  let r := n % unit
  let q' := if unit < 2 * r ∨ 2 * r = unit ∧ q % 2 = 1 then q + 1 else q
  if q' = 10 ^ 6 then (10 ^ 5, e + 1) else (q', e)

/-- The digits behind the point, without the zeros at the end. -/
def fractionText (digits : List Byte) : List Byte :=
  match (digits.reverse.dropWhile (· = 0x30)).reverse with
  | [] => []
  | d :: ds => dot :: d :: ds

/-- An exponent has two digits or more. -/
def exponentText (e : Nat) : List Byte := if e < 10 then 0x30 :: decimal e else decimal e

/-- A natural number, as `%g` prints it. -/
def formatNat (n : Nat) : List Byte :=
  if n < 10 ^ 6 then decimal n
  else
    let (q, e) := significant n
    (decimal q).take 1 ++ fractionText ((decimal q).drop 1) ++ bytes "e+" ++ exponentText e

/-- A whole number, as `%g` prints it. -/
def formatG (n : Int) : List Byte :=
  if n < 0 then 0x2D :: formatNat n.natAbs else formatNat n.natAbs

/-- How one character of a string is written. -/
def escaped (b : Byte) : List Byte :=
  if b = quote then [backslash, quote]
  else if b = 0x09 then [backslash, 0x74]
  else if b = 0x0D then [backslash, 0x72]
  else if b = newline then [backslash, 0x6E]
  else if b = backslash then [backslash, backslash]
  else [b]

def writeString (s : List Byte) : List Byte := quote :: (s.flatMap escaped ++ [quote])

section Writing

-- what `%g` prints of the numbers that are not whole
variable (printReal : List Byte → List Byte)

/-- An object that is no cons. -/
def writeAtom : Object → List Byte
  | .number (.long n) => formatG n
  | .number (.real text) => printReal text
  | .symbol name => name
  | .string s => writeString s
  | .cons _ _ => []

mutual

def writeObject : Object → List Byte
  | .cons car cdr => 0x28 :: (writeObject car ++ writeTail cdr)
  | o => writeAtom printReal o

/-- The rest of a list, with its bracket. -/
def writeTail : Object → List Byte
  | .cons car cdr => 0x20 :: (writeObject car ++ writeTail cdr)
  | o => if o = nil then [0x29] else bytes " . " ++ writeAtom printReal o ++ [0x29]

end

end Writing

/-! ## Tokens -/

def isSymbolChar (b : Byte) : Bool := isAlnum b || (bytes "!#$%&*+-./:<=>?@^_~").elem b

/-- Does the text start with a character of this kind? -/
def starts (p : Byte → Bool) : List Byte → Bool
  | [] => false
  | b :: _ => p b

/-- The next character that is neither white space nor in a comment (`none`: the end),
and the text behind it; the flag says that a comment has begun. -/
def readNext : Bool → List Byte → Option (Byte × List Byte)
  | _, [] => none
  | true, b :: rest => readNext (b ≠ newline) rest
  | false, b :: rest =>
      if b = 0x23 && starts (· = 0x21) rest then readNext true rest
      else if b = 0x3B then readNext true rest
      else if isSpace b then readNext false rest
      else some (b, rest)

/-- The text without a sign in front. -/
def unsigned : List Byte → List Byte
  | [] => []
  | b :: rest => if b = 0x2B || b = 0x2D then rest else b :: rest

/-- `strtol`, with its limits. -/
def strtol (text : List Byte) : Int :=
  let n : Int := value ((unsigned text).takeWhile isDigit)
  let n := if starts (· = 0x2D) text then -n else n
  max (-2 ^ 63) (min n (2 ^ 63 - 1))

def readSymbol (text : List Byte) : Object × List Byte :=
  (.symbol (text.takeWhile isSymbolChar), text.dropWhile isSymbolChar)

def readNumberOrSymbol (text : List Byte) : Object × List Byte :=
  let rest := unsigned text
  if starts (fun ch => ch = dot || isDigit ch) rest then
    let rest := rest.dropWhile isDigit
    if !starts isSymbolChar rest then (.number (.long (strtol text)), rest)
    else if starts (· = dot) rest && starts isDigit rest.tail then
      let rest := rest.tail.dropWhile isDigit
      if !starts isSymbolChar rest then
        (.number (.real (text.take (text.length - rest.length))), rest)
      else readSymbol text
    else readSymbol text
  else readSymbol text

/-! ## Strings -/

/-- What stands between the quotes; the flag says that the next character is escaped. -/
def scanString : Bool → List Byte → Option (List Byte × List Byte)
  | _, [] => none
  | isEscaped, b :: rest =>
      if b = quote && !isEscaped then some ([], rest)
      else (scanString (b = backslash && !isEscaped) rest).map fun r => (b :: r.1, r.2)

/-- What the character after a backslash stands for. -/
def unescape (b : Byte) : Option Byte :=
  if b = backslash || b = quote then some b
  else if b = 0x74 then some 0x09
  else if b = 0x72 then some 0x0D
  else if b = 0x6E then some newline
  else none

/-- The pass that counts the escapes. -/
def countEscapes : List Byte → Nat
  | a :: b :: rest =>
      if a = backslash ∧ (unescape b).isSome then countEscapes rest + 1 else countEscapes (b :: rest)
  | _ => 0

/-- The pass that copies the characters. -/
def copyString : List Byte → List Byte
  | a :: b :: rest =>
      if a = backslash then
        match unescape b with
        | some c => c :: copyString rest
        | none => backslash :: copyString (b :: rest)
      else a :: copyString (b :: rest)
  | text => text

/-- The string ends where the first pass says. -/
def newStringWithLength (text : List Byte) : Object :=
  .string ((copyString text).take (text.length - countEscapes text))

/-! ## The reader -/

/-- An exception, or a reader that was given too little fuel. -/
inductive ReadError
  | exception (message : List Byte)
  | fuel
deriving DecidableEq

def exception {A : Type} (message : String) : Except ReadError A := .error (.exception (bytes message))

def readString (text : List Byte) : Except ReadError (Option Object × List Byte) :=
  match scanString false text with
  | none => .error (.exception (bytes "unexpected end of stream in string literal \"" ++ text ++ [quote]))
  | some (raw, rest) => .ok (some (newStringWithLength raw), rest)

/-- The objects that were read, the last one first, as a list that ends in `tail`. -/
def listOf (items : List Object) (tail : Object) : Object := items.foldl (fun o item => .cons item o) tail

mutual

def readUnary (symbol : String) : Nat → List Byte → Except ReadError (Option Object × List Byte)
  | 0, _ => .error .fuel
  | fuel + 1, text =>
      match readNext false text with
      | none => exception ("unexpected end of stream in " ++ symbol)
      | some _ => do
          let (o, rest) ← readExpr fuel text
          return (o.map fun o => .cons (.symbol (bytes symbol)) (.cons o nil), rest)

/-- The loop over the objects of a list. -/
def readList (items : List Object) : Nat → List Byte → Except ReadError (Option Object × List Byte)
  | 0, _ => .error .fuel
  | fuel + 1, text =>
      match readNext false text with
      | none => exception "unexpected end of stream in list"
      | some (ch, rest) =>
          if ch = 0x29 then .ok (some (listOf items nil), rest)
          else if ch = dot && !starts isSymbolChar rest then
            if items.headD nil = nil then exception "unexpected dot at start of list"
            else
              match readNext false rest with
              | some (0x29, _) => exception "expected object at end of dotted list"
              | _ => do
                  let (o, rest) ← readExpr fuel rest
                  match o with
                  | none => exception "unexpected end of stream in dotted list"
                  | some o =>
                      match readNext false rest with
                      | some (0x29, rest) => return (some (listOf items o), rest)
                      | _ => exception "unexpected object at end of dotted list"
          else do
            let (o, rest) ← readExpr fuel (ch :: rest)
            match o with
            | none => exception "unexpected end of stream in list"
            | some o => readList (o :: items) fuel rest

def readExpr : Nat → List Byte → Except ReadError (Option Object × List Byte)
  | 0, _ => .error .fuel
  | fuel + 1, text =>
      match readNext false text with
      | none => .ok (none, [])
      | some (ch, rest) =>
          if ch = 0x23 && starts (· = 0x27) rest then readUnary "function" fuel rest.tail
          else if ch = 0x27 then readUnary "quote" fuel rest
          else if ch = quote then readString rest
          else if ch = 0x28 then readList [] fuel rest
          else if isSymbolChar ch && (ch ≠ dot || starts isSymbolChar rest) then
            let (o, rest) := readNumberOrSymbol (ch :: rest)
            .ok (some o, rest)
          else .error (.exception (bytes "unexpected character, `" ++ [ch] ++ bytes "'"))

end

/-- Read a text, with fuel for all of it. -/
def readText (text : List Byte) : Except ReadError (Option Object × List Byte) :=
  readExpr (2 * text.length + 1) text

end Lisp
