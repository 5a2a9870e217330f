import Zzdwm.Lib.Regular
import Zzdwm.Regexp.Compile

/-!
# Running a program (`regexp.c`)

The matcher follows the chains of a program and calls itself where there is a choice.
What the recursion may set in the arrays of the groups it sets on its way back.

* `regrepeat`, `tryBranches`, `backUp`, `regmatch` — the matcher;
* `regtry`, `regexec` — a match at a place, and the search.
-/

namespace Regexp

open Ascii (Byte)
open Regular (Spans)

/-- What `regerror` says, or that the fuel is used up. -/
inductive Report
  | fuel
  | memory
  | pointers
  | foulup
deriving DecidableEq

/-- `reginput` as a place in the string, and the arrays. -/
structure Input where
  reginput : Nat
  spans : Spans

abbrev Answer := Except Report (Option Input)

/-- How many of the next characters a simple node matches; `regrepeat`. -/
def regrepeat (code : Code) (s : List Byte) (p i : Nat) : Except Report Nat :=
  match code.op p with
  | some .ANY => .ok (s.length - i)
  | some .EXACTLY => .ok ((s.drop i).takeWhile (some · = (code.operand p).head?)).length
  | some .ANYOF => .ok ((s.drop i).takeWhile (· ∈ code.operand p)).length
  | some .ANYBUT => .ok ((s.drop i).takeWhile (· ∉ code.operand p)).length
  | _ => .error .foulup

/-- What is tried if a run fails. -/
def retry (first second : Answer) : Answer := do
  match ← first with
  | some r => return some r
  | none => second

/-- The loop over the branches of a choice. -/
def tryBranches (call : Nat → Input → Answer) (code : Code) : Nat → Nat → Input → Answer
  | 0, _, _ => .error .fuel
  | f + 1, scan, st =>
      retry (call (scan + 1) st)
        (match regnext code scan with
        | none => .ok none
        | some scan =>
            if code.op scan = some .BRANCH then tryBranches call code f scan st else .ok none)

/-- The loop that gives characters back; `worth` is the lookahead. -/
def backUp (call : Nat → Answer) (worth : Nat → Bool) (least : Nat) : Nat → Answer
  | 0 => if 0 < least then .ok none else if worth 0 then call 0 else .ok none
  | no + 1 =>
      if no + 1 < least then .ok none
      else retry (if worth (no + 1) then call (no + 1) else .ok none)
        (backUp call worth least no)

/-- One round of the loop of `regmatch`, `call` being `regmatch` from another node. -/
def matchNode (call : Nat → Input → Answer) (code : Code) (s : List Byte) (scan : Nat)
    (st : Input) : Answer :=
  let rest := s.drop st.reginput
  let go (st : Input) : Answer :=
    match regnext code scan with
    | some next => call next st
    | none => .error .pointers
  match code.op scan with
  | some .BOL => if st.reginput ≠ 0 then .ok none else go st
  | some .EOL => if rest ≠ [] then .ok none else go st
  | some .ANY => if rest = [] then .ok none else go { st with reginput := st.reginput + 1 }
  | some .EXACTLY =>
      let opnd := code.operand scan
      -- the first character comes first, for speed
      if opnd.head? ≠ rest.head? then .ok none
      else if opnd.length > 1 ∧ rest.take opnd.length ≠ opnd then .ok none
      else go { st with reginput := st.reginput + opnd.length }
  | some .ANYOF =>
      if rest.head?.all (· ∉ code.operand scan) then .ok none
      else go { st with reginput := st.reginput + 1 }
  | some .ANYBUT =>
      if rest.head?.all (· ∈ code.operand scan) then .ok none
      else go { st with reginput := st.reginput + 1 }
  | some .NOTHING | some .BACK => go st
  | some (.OPEN no) =>
      if no = 0 ∨ NSUBEXP ≤ no then .error .memory
      else do
        match ← go st with
        | some r => return some { r with spans := r.spans.add (.opens no st.reginput) }
        | none => return none
  | some (.CLOSE no) =>
      if no = 0 ∨ NSUBEXP ≤ no then .error .memory
      else do
        match ← go st with
        | some r => return some { r with spans := r.spans.add (.closes no st.reginput) }
        | none => return none
  | some .BRANCH =>
      match regnext code scan with
      | none => .error .pointers
      | some next =>
          if code.op next ≠ some .BRANCH then call (scan + 1) st
          else tryBranches call code code.length scan st
  | some .STAR => many 0
  | some .PLUS => many 1
  | some .END => .ok (some st)
  | none => .error .memory
where
  /-- `STAR` and `PLUS`. -/
  many (least : Nat) : Answer :=
    match regnext code scan with
    | none => .error .pointers
    | some next => do
        let no ← regrepeat code s (scan + 1) st.reginput
        let nextch := if code.op next = some .EXACTLY then (code.operand next).head? else none
        backUp (fun n => call next { st with reginput := st.reginput + n })
          (fun n => nextch = none || s[st.reginput + n]? = nextch) least no

/-- `regmatch`. -/
def regmatch (code : Code) (s : List Byte) : Nat → Nat → Input → Answer
  | 0, _, _ => .error .fuel
  | f + 1, scan, st => matchNode (regmatch code s f) code s scan st

/-- `regtry`. -/
def regtry (f : Nat) (prog : Prog) (s : List Byte) (i : Nat) : Answer :=
  regmatch prog.program s f 1 ⟨i, .none⟩

/-- A match: where it begins, and what `regtry` leaves. -/
abbrev Found := Nat × Input

/-- Match attempts from place to place. -/
def search (f : Nat) (prog : Prog) (s : List Byte) : List Nat → Except Report (Option Found)
  | [] => .ok none
  | i :: is => do
      match ← regtry f prog s i with
      | some r => return some (i, r)
      | none => search f prog s is

/-- Whether the string that must appear does, the loop with `strchr` and `strncmp`. -/
def appears (must : List Byte) : List Byte → Bool
  | [] => must = []
  | c :: rest =>
      if must.head? = some c ∧ (c :: rest).take must.length = must then true else appears must rest

/-- `regexec`. -/
def regexec (f : Nat) (prog : Prog) (string : List Byte) : Except Report (Option Found) :=
  let s := string.takeWhile (· ≠ 0)
  if prog.regmust.any fun must => !appears must s then .ok none
  else if prog.reganch then search f prog s [0]
  else
    match prog.regstart with
    | some c => search f prog s ((List.range s.length).filter fun i => s[i]? = some c)
    | none => search f prog s (List.range (s.length + 1))

end Regexp
