import Zzdwm.Lib.Cheney
import Zzdwm.Lib.Machine

/-!
# The Lisp engine: memory, roots and nested evaluations (src/tools/MicroEMACS/tinylisp.c)

What the interpreter computes is left open: it allocates objects, traces and drops roots,
changes objects and prints, in any order.  What is modelled is what the rest rests on:

* `Node`, `moveRoots` — the list of root objects on the C stack (`GC_TRACE`);
* `gc`, `memoryAllocObject` — the collector and the allocator;
* `evalSource`, `raise`, `finish`, `callHost`, `hostReturn` — nested evaluations, and the
  globals that each saves and restores;
* `Event`, `step` — the machine.
-/

namespace Lisp

open Cheney

/-- A pointer that is NULL, and the symbol `nil`, which is no heap object. -/
def null : Ptr := .static 0
def nilPtr : Ptr := .static 1

/-- An entry of the list of roots.  The rest of the list is named by how many entries
there are from it down to the bottom of the stack; no entries are `nil`. -/
structure Node where
  car : Ptr
  cdr : Nat
deriving DecidableEq

/-- The root at a place of the list, the last one traced first. -/
def carAt : List Node → Nat → Option Ptr
  | [], _ => none
  | node :: nodes, root => if root = nodes.length + 1 then some node.car else carAt nodes root

def setCar (p : Ptr) : List Node → Nat → List Node
  | [], _ => []
  | node :: nodes, root =>
      if root = nodes.length + 1 then { node with car := p } :: nodes
      else node :: setCar p nodes root

/-- Move the roots of the list that starts here. -/
def moveRoots : List Node → Nat → Collector Nat → List Node × Collector Nat
  | [], _, c => ([], c)
  | node :: nodes, root, c =>
      if root = nodes.length + 1 then
        let (car, c) := moveObject node.car c
        let (nodes, c) := moveRoots nodes node.cdr c
        ({ node with car } :: nodes, c)
      else
        let (nodes, c) := moveRoots nodes root c
        (node :: nodes, c)

structure Buffer where
  data : Nat
  capacity : Nat
  length : Nat
deriving DecidableEq

/-- What an evaluation saves.  A jump buffer is named by the context it belongs to. -/
structure EvalContext where
  exception : Nat
  previousOutput : Buffer
  previousException : Option Nat
deriving DecidableEq

/-- How far an evaluation has come: before `newRootEnv` has made its environment, inside
of it, between two expressions of the source, or in one of them. -/
inductive Phase
  | starting
  | rooting
  | between
  | busy
deriving DecidableEq

/-- The C functions on the stack that matter: `eval_source`, with its context and its
root, and `callHost`, with what it saves. -/
inductive Frame
  | evalSource (context envRoot : Nat) (phase : Phase)
  | callHost (previousHostRoots : Nat)
deriving DecidableEq

/-- The globals that an evaluation or a call of a host function saves. -/
structure Globals where
  outputBuffer : Buffer
  exceptionEnv : Option Nat
  evalContextCount : Nat
  hostRoots : Nat
deriving DecidableEq

structure Engine extends Globals where
  -- from-space: which half it is, and its objects; an object's tag is its serial number
  half : Bool
  space : List (Obj Nat)
  nextTag : Nat
  symbols : Ptr
  roots : List Node
  environment : Ptr
  initialized : Bool
  evalContexts : Nat → EvalContext
  stack : List Frame
  -- which object the root environment is, and how many collections there have been since
  -- `environment` was assigned
  rootEnv : Nat
  collections : Nat

inductive Fault
  | notNow
  | noHandler
deriving DecidableEq

def MEMORY_SIZE : Nat := 131072
def MAX_EVAL_CONTEXTS : Nat := 32

/-- `sizeof (Object)` -/
def objectSize : Nat := 40

namespace Engine

/-- No evaluation yet. -/
def init : Engine where
  outputBuffer := ⟨0, 0, 0⟩
  exceptionEnv := none
  evalContextCount := 0
  hostRoots := 0
  half := false
  space := []
  nextTag := 0
  symbols := null
  roots := []
  environment := null
  initialized := false
  evalContexts _ := ⟨0, ⟨0, 0, 0⟩, none⟩
  stack := []
  rootEnv := 0
  collections := 0

/-! ## Memory -/

/-- The root list of the running function starts at the root that was traced last. -/
def gc (s : Engine) : Engine :=
  let (symbols, c) := moveObject s.symbols ⟨s.half, s.space, []⟩
  let (roots, c) := moveRoots s.roots s.roots.length c
  let c := scan s.space.length 0 c
  { s with half := !s.half, space := c.toSpace, symbols, roots, collections := s.collections + 1 }

def memoryAlign (size alignment : Nat) : Nat := (size + alignment - 1) / alignment * alignment

/-- An object with some bytes more than the least, as it is allocated. -/
def newObject (tag extra : Nat) (fields : List Ptr) : Obj Nat where
  tag
  size := memoryAlign (objectSize + extra) 8
  size_pos := by
    unfold memoryAlign objectSize
    omega
  fields
  forward := none

/-- Is there no room for so many bytes? -/
def full (s : Engine) (size : Nat) : Bool := MEMORY_SIZE ≤ total s.space + size

/-- The new object, or `none`: out of memory. -/
def memoryAllocObject (extra : Nat) (fields : List Ptr) (s : Engine) : Option Ptr × Engine :=
  let o := newObject s.nextTag extra fields
  let s := if s.full o.size then s.gc else s
  if s.full o.size then (none, s)
  else
    (some (.heap s.half (total s.space)), { s with space := s.space ++ [o], nextTag := s.nextTag + 1 })

/-! ## Evaluations -/

def setGlobals (g : Globals) (s : Engine) : Engine := { s with toGlobals := g }

/-- What the globals are when the function on top of the stack has returned. -/
def restored (contexts : Nat → EvalContext) : Frame → Globals → Globals
  | .evalSource context _ _, g =>
      { g with
        outputBuffer := (contexts context).previousOutput
        exceptionEnv := (contexts context).previousException
        evalContextCount := g.evalContextCount - 1 }
  | .callHost previousHostRoots, g => { g with hostRoots := previousHostRoots }

/-- Where the environment pointer is assigned. -/
def setEnvironment (p : Ptr) (s : Engine) : Engine := { s with environment := p, collections := 0 }

/-- Replace the phase of the evaluation on top. -/
def setPhase (phase : Phase) (s : Engine) : Engine :=
  match s.stack with
  | .evalSource context envRoot _ :: rest => { s with stack := .evalSource context envRoot phase :: rest }
  | _ => s

/-- Drop the roots above a place. -/
def dropRoots (n : Nat) (s : Engine) : Engine := { s with roots := s.roots.drop (s.roots.length - n) }

/-- `eval_source` up to its first expression; the output buffer is the caller's. -/
def evalSource (data capacity : Nat) (s : Engine) : Engine :=
  if capacity = 0 then s
  else if s.evalContextCount = MAX_EVAL_CONTEXTS then
    -- the message is written and the buffer is put back
    let previousOutput := s.outputBuffer
    let s := { s with outputBuffer := ⟨data, capacity, 0⟩ }
    { s with outputBuffer := previousOutput }
  else
    let k := s.evalContextCount
    { s with
      evalContexts := Function.update s.evalContexts k ⟨k, s.outputBuffer, s.exceptionEnv⟩
      evalContextCount := k + 1
      outputBuffer := ⟨data, capacity, 0⟩
      exceptionEnv := some k
      roots := ⟨if s.initialized then s.environment else null, s.hostRoots⟩ :: s.roots
      stack := .evalSource k (s.roots.length + 1) (if s.initialized then .between else .starting) :: s.stack }

/-- The functions above an evaluation are left. -/
def unwind (context : Nat) : List Frame → List Frame
  | [] => []
  | .evalSource k envRoot phase :: rest =>
      if k = context then .evalSource k envRoot phase :: rest else unwind context rest
  | .callHost _ :: rest => unwind context rest

/-- The evaluation on top returns: its context is left and its roots are gone. -/
def leave (s : Engine) : Engine :=
  match s.stack with
  | .evalSource context envRoot phase :: rest =>
      { s with
        toGlobals := restored s.evalContexts (.evalSource context envRoot phase) s.toGlobals
        roots := s.roots.drop (s.roots.length - (envRoot - 1))
        stack := rest }
  | _ => s

/-- The handler of an evaluation. -/
def caught (envRoot : Nat) (s : Engine) : Engine :=
  let s := if s.initialized then s.setEnvironment ((carAt s.roots envRoot).getD null) else s
  s.leave

/-- An exception: the handler is that of the evaluation that `exceptionEnv` names. -/
def raise (s : Engine) : Except Fault Engine :=
  match s.exceptionEnv with
  | none => .error .noHandler
  | some context =>
      match unwind context s.stack with
      | .evalSource k envRoot phase :: rest =>
          .ok ({ s with stack := .evalSource k envRoot phase :: rest }.caught envRoot)
      | _ => .error .noHandler

/-- `newRootEnv` makes an environment and traces it. -/
def newEnv (s : Engine) : Except Fault Engine :=
  match s.memoryAllocObject 0 [nilPtr, nilPtr, nilPtr] with
  | (some p, s') =>
      .ok ({ s' with roots := ⟨p, s'.roots.length⟩ :: s'.roots, rootEnv := s.nextTag }.setPhase .rooting)
  | (none, s') => s'.raise

/-- `newRootEnv` returns its environment. -/
def rootEnvironment (envRoot : Nat) (s : Engine) : Engine :=
  let p := (carAt s.roots (envRoot + 1)).getD null
  let s := { s with roots := setCar p s.roots envRoot, initialized := true }
  ((s.setEnvironment p).dropRoots envRoot).setPhase .between

/-- A host function is called with the roots of the running function. -/
def callHost (s : Engine) : Engine :=
  { s with hostRoots := s.roots.length, stack := .callHost s.hostRoots :: s.stack }

end Engine

/-! ## The machine -/

inductive Event
  -- the editor, or a host function, evaluates a source
  | evalSource (data capacity : Nat)
  -- `newRootEnv` makes the environment, and returns it
  | newEnv
  | rootEnv
  -- the next expression is read, and it has been evaluated; the source has ended
  | readExpr
  | evaluated
  | finish
  -- the interpreter
  | alloc (extra : Nat) (fields : List Ptr)
  | trace (p : Ptr)
  | untrace
  | assign (root : Nat) (p : Ptr)
  | store (offset : Nat) (fields : List Ptr)
  | intern (p : Ptr)
  | print (n : Nat)
  | fboundp
  | exception
  | callHost
  -- a host function returns
  | hostReturn
deriving DecidableEq

open Engine

/-- The first root that the interpreter may drop or assign: above the root of the
evaluation, and above the environment that `newRootEnv` holds. -/
def ownRoots (envRoot : Nat) : Phase → Nat
  | .rooting => envRoot + 1
  | _ => envRoot

/-- What the interpreter does. -/
def interpret (envRoot : Nat) (phase : Phase) : Event → Engine → Except Fault Engine
  | .alloc extra fields, s =>
      match s.memoryAllocObject extra fields with
      | (some _, s) => .ok s
      | (none, s) => s.raise
  | .trace p, s => .ok { s with roots := ⟨p, s.roots.length⟩ :: s.roots }
  | .untrace, s =>
      if ownRoots envRoot phase < s.roots.length then .ok { s with roots := s.roots.tail }
      else .error .notNow
  | .assign root p, s =>
      if ownRoots envRoot phase < root then .ok { s with roots := setCar p s.roots root }
      else .error .notNow
  | .store offset fields, s =>
      .ok { s with space := changeAt (fun o => { o with fields }) s.space offset }
  | .intern p, s => .ok { s with symbols := p }
  | .print n, s =>
      .ok { s with outputBuffer := { s.outputBuffer with
        length := min (s.outputBuffer.length + n) (s.outputBuffer.capacity - 1) } }
  -- the pointer is read, and nothing is written
  | .fboundp, s => .ok s
  | .exception, s => s.raise
  | .callHost, s => .ok s.callHost
  | _, _ => .error .notNow

def step (e : Event) (s : Engine) : Except Fault Engine :=
  match s.stack with
  | [] =>
      match e with
      | .evalSource data capacity => .ok (s.evalSource data capacity)
      | _ => .error .notNow
  | .callHost previousHostRoots :: rest =>
      match e with
      | .evalSource data capacity => .ok (s.evalSource data capacity)
      | .hostReturn =>
          .ok { s with
            toGlobals := restored s.evalContexts (.callHost previousHostRoots) s.toGlobals
            stack := rest }
      | _ => .error .notNow
  | .evalSource _ envRoot .starting :: _ =>
      match e with
      | .newEnv => s.newEnv
      -- the first symbols
      | .alloc extra fields => interpret envRoot .starting (.alloc extra fields) s
      | .intern p => interpret envRoot .starting (.intern p) s
      | _ => .error .notNow
  | .evalSource _ envRoot .rooting :: _ =>
      match e with
      | .rootEnv => .ok (s.rootEnvironment envRoot)
      -- the standard library calls no host function, and does not look itself up
      | .callHost => .error .notNow
      | .fboundp => .error .notNow
      | e => interpret envRoot .rooting e s
  | .evalSource _ envRoot .between :: _ =>
      match e with
      | .readExpr => .ok (s.setPhase .busy)
      | .finish => .ok s.leave
      | .exception => s.raise
      | .print n => interpret envRoot .between (.print n) s
      | _ => .error .notNow
  | .evalSource _ envRoot .busy :: _ =>
      match e with
      | .evaluated => .ok ((s.setEnvironment ((carAt s.roots envRoot).getD null)).setPhase .between)
      | e => interpret envRoot .busy e s

end Lisp
