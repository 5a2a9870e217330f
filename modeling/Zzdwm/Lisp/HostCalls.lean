import Mathlib
import Zzdwm.Lib.Numerals
import Zzdwm.Lisp.RoundTrip

/-!
# Calls of editor functions from Lisp (src/tools/MicroEMACS/tinylisp.c, lisp.c)

* `hostArguments`, `callHost` — the arguments become texts, and the editor function is called;
* `lispInteger` — how an editor function reads a count or a line number;
* `callHost_passes_iff` — **when every argument arrives**: there are at most eight, and no number
  has more than six digits.
-/

namespace Lisp

open Ascii

def MAX_HOST_ARGS : Nat := 8
def HOST_ARG_SIZE : Nat := 32
def TINY_LISP_HOST_NIL : Int := 2
def TINY_LISP_HOST_STRING : Int := 3

def t : Object := .symbol (bytes "t")

/-- An exception is its message. -/
def exceptionWithObject {A : Type} (object : List Byte) (message : String) : Except (List Byte) A :=
  .error (bytes "error: " ++ object ++ [0x20] ++ bytes message)

/-- The status of an editor function, and the string that it has left in the result. -/
abbrev HostFunction := List (List Byte) → Int × List Byte

/-! ## The call -/

section Calls

-- what `%g` prints of the numbers that are not whole, and the name of the function
variable (printReal : List Byte → List Byte) (name : List Byte)

/-- The function, as it is written. -/
def functionText : List Byte := bytes "#<Function " ++ name ++ bytes ">"

/-- What fits a buffer of this size, which ends in a zero. -/
def snprintf (size : Nat) (text : List Byte) : List Byte := text.take (size - 1)

def hostArgument : Object → Except (List Byte) (List Byte)
  | .number (.long n) => .ok (snprintf HOST_ARG_SIZE (formatG n))
  | .number (.real text) => .ok (snprintf HOST_ARG_SIZE (printReal text))
  | .string s => .ok s
  | .symbol s => .ok s
  | .cons car cdr =>
      exceptionWithObject (writeObject printReal (.cons car cdr)) "is not a number or string"

/-- The loop over the arguments. -/
def hostArguments : Nat → Object → Except (List Byte) (List (List Byte))
  | argc, .cons car cdr =>
      if argc = MAX_HOST_ARGS then
        exceptionWithObject (functionText name) "expects at most 8 arguments"
      else do
        let text ← hostArgument printReal car
        let texts ← hostArguments (argc + 1) cdr
        return text :: texts
  | argc, object =>
      if object = nil then .ok []
      else if argc = MAX_HOST_ARGS then
        exceptionWithObject (functionText name) "expects at most 8 arguments"
      else exceptionWithObject (writeObject printReal object) "is not a list"

/-- What the call gives, from what the editor function has given. -/
def hostValue : Int × List Byte → Except (List Byte) Object
  | (status, result) =>
      if status = 0 then .error (bytes "error: host command failed: " ++ name)
      else if status = TINY_LISP_HOST_NIL then .ok nil
      else if status = TINY_LISP_HOST_STRING then .ok (.string result)
      else .ok t

def callHost (eval : HostFunction) (args : Object) : Except (List Byte) Object := do
  let argv ← hostArguments printReal name 0 args
  hostValue name (eval argv)

end Calls

def lispInteger (text : List Byte) : Option Int :=
  if text = [] then none
  else
    let (parsed, rest) := Numerals.strtol text
    if rest ≠ [] ∨ parsed < -2 ^ 31 ∨ 2 ^ 31 - 1 < parsed then none else some parsed

/-! ## Numbers -/

theorem formatG_of_lt {n : Int} (h : n.natAbs < 10 ^ 6) :
    formatG n = if n < 0 then 0x2D :: decimal n.natAbs else decimal n.natAbs := by
  have hformat : formatNat n.natAbs = decimal n.natAbs := if_pos h
  rw [formatG, hformat]

theorem endsDigits_nil : Numerals.EndsDigits [] := nofun

/-- **A number of six digits or fewer is read back.** -/
theorem lispInteger_decimal {n : Int} (h : n.natAbs < 10 ^ 6) :
    lispInteger (snprintf HOST_ARG_SIZE (formatG n)) = some n := by
  have hdigits : ∀ b ∈ decimal n.natAbs, isDigit b = true := fun b hb => isDigit_of_mem_decimal hb
  have hlength : (decimal n.natAbs).length ≤ 6 := decimal_length_le (by decide) h
  have hread : formatG n ≠ [] ∧ Numerals.strtol (formatG n) = (n, []) := by
    rw [formatG_of_lt h]
    split
    next hneg =>
      refine ⟨nofun, ?_⟩
      have hstrtol := Numerals.strtol_negative (decimal_ne_nil _) hdigits endsDigits_nil
      rw [List.append_nil, value_decimal] at hstrtol
      rw [hstrtol, Prod.mk.injEq]
      exact ⟨by omega, rfl⟩
    next hpos =>
      refine ⟨decimal_ne_nil _, ?_⟩
      have hstrtol := Numerals.strtol_digits (decimal_ne_nil _) hdigits endsDigits_nil
      rw [List.append_nil, value_decimal] at hstrtol
      rw [hstrtol, Prod.mk.injEq]
      exact ⟨by omega, rfl⟩
  have hfits : snprintf HOST_ARG_SIZE (formatG n) = formatG n := by
    refine List.take_of_length_le ?_
    rw [formatG_of_lt h]
    split
    · rw [List.length_cons]
      exact Nat.succ_le_succ (hlength.trans (by decide))
    · exact hlength.trans (by decide)
  obtain ⟨hne, hstrtol⟩ := hread
  rw [hfits, lispInteger, if_neg hne, hstrtol]
  dsimp only
  rw [if_neg]
  push Not
  exact ⟨rfl, by omega, by omega⟩

/-- A digit that a point or an exponent follows. -/
theorem formatNat_long {n : Nat} (h : ¬ n < 10 ^ 6) :
    ∃ d c rest, formatNat n = d :: c :: rest ∧ isDigit d = true ∧ isDigit c = false := by
  obtain ⟨d, frac, rest, htext, hd, hfrac, -⟩ := formatNat_exponent h
  rcases hfrac with rfl | ⟨e, ds, rfl, -⟩
  · exact ⟨d, 0x65, rest, htext, hd, by decide⟩
  · exact ⟨d, dot, e :: ds ++ 0x65 :: rest, htext, hd, by decide⟩

/-- **A number of seven digits or more is not read back**: the digits end at a point or an
exponent, and the rest is not taken. -/
theorem lispInteger_exponent {n : Int} (h : ¬ n.natAbs < 10 ^ 6) :
    lispInteger (snprintf HOST_ARG_SIZE (formatG n)) = none := by
  obtain ⟨d, c, rest, htext, hd, hc⟩ := formatNat_long h
  have hdigits : ∀ b ∈ [d], isDigit b = true := List.forall_mem_singleton.mpr hd
  have hends : ∀ tail, Numerals.EndsDigits (c :: tail) := fun tail b hb => by
    rw [← Option.some.inj hb]
    exact hc
  have hrest : ∃ text value tail, snprintf HOST_ARG_SIZE (formatG n) = text ∧ text ≠ [] ∧
      Numerals.strtol text = (value, c :: tail) := by
    unfold formatG
    split
    · rw [htext]
      exact ⟨_, _, _, rfl, nofun,
        Numerals.strtol_negative (List.cons_ne_nil d []) hdigits (hends (rest.take 28))⟩
    · rw [htext]
      exact ⟨_, _, _, rfl, nofun,
        Numerals.strtol_digits (List.cons_ne_nil d []) hdigits (hends (rest.take 29))⟩
  obtain ⟨text, value, tail, htext, hne, hstrtol⟩ := hrest
  rw [htext, lispInteger, if_neg hne, hstrtol]
  exact if_pos (Or.inl nofun)

/-! ## Every argument arrives -/

/-- An argument that an editor function takes. -/
inductive HostArg
  | number (n : Int)
  | string (s : List Byte)
deriving DecidableEq

def HostArg.object : HostArg → Object
  | .number n => .number (.long n)
  | .string s => .string s

/-- The arguments as the interpreter has them. -/
def hostList (args : List HostArg) : Object := args.foldr (fun arg o => .cons arg.object o) nil

/-- The text that arrives is the string, or is read as the number. -/
def ReadBack : HostArg → List Byte → Prop
  | .number n, text => lispInteger text = some n
  | .string s, text => text = s

/-- An argument as it is passed. -/
def HostArg.text : HostArg → List Byte
  | .number n => snprintf HOST_ARG_SIZE (formatG n)
  | .string s => s

section Arrives

variable (printReal : List Byte → List Byte) (name : List Byte)

theorem hostArgument_object (arg : HostArg) :
    hostArgument printReal arg.object = .ok arg.text := by
  cases arg <;> rfl

theorem readBack_text_iff (arg : HostArg) :
    ReadBack arg arg.text ↔ ∀ n, arg = .number n → n.natAbs < 10 ^ 6 := by
  cases arg with
  | string s => exact iff_of_true rfl nofun
  | number n =>
      by_cases h : n.natAbs < 10 ^ 6
      · refine iff_of_true (lispInteger_decimal h) fun m hm => ?_
        rw [← HostArg.number.inj hm]
        exact h
      · refine iff_of_false (fun hread => ?_) fun hall => h (hall n rfl)
        have hnone := (lispInteger_exponent h).symm.trans hread
        cases hnone

/-- **The loop**: the texts of the arguments, if there is room for them. -/
theorem hostArguments_hostList (args : List HostArg) : ∀ argc ≤ MAX_HOST_ARGS,
    hostArguments printReal name argc (hostList args) =
      if argc + args.length ≤ MAX_HOST_ARGS then .ok (args.map HostArg.text)
      else exceptionWithObject (functionText name) "expects at most 8 arguments" := by
  induction args with
  | nil => exact fun argc hargc => (if_pos hargc).symm
  | cons arg args ih =>
      intro argc hargc
      have hlist : hostList (arg :: args) = .cons arg.object (hostList args) := rfl
      rw [hlist, hostArguments, List.length_cons]
      by_cases hfull : argc = MAX_HOST_ARGS
      · rw [if_pos hfull, if_neg (by omega)]
      · rw [if_neg hfull, hostArgument_object, ih (argc + 1) (by omega)]
        by_cases hroom : argc + 1 + args.length ≤ MAX_HOST_ARGS
        · rw [if_pos hroom, if_pos (by omega)]
          rfl
        · rw [if_neg hroom, if_neg (by omega)]
          rfl

/-- The function is called with texts that stand for the arguments. -/
def Arrives (args : List HostArg) : Prop :=
  ∃ argv, (∀ eval, callHost printReal name eval (hostList args) = hostValue name (eval argv)) ∧
    List.Forall₂ ReadBack args argv

theorem arrives_iff_texts (args : List HostArg) :
    Arrives printReal name args ↔
      args.length ≤ MAX_HOST_ARGS ∧ ∀ arg ∈ args, ReadBack arg arg.text := by
  have hloop := hostArguments_hostList printReal name args 0 (Nat.zero_le _)
  rw [Nat.zero_add] at hloop
  have hread : List.Forall₂ ReadBack args (args.map HostArg.text) ↔
      ∀ arg ∈ args, ReadBack arg arg.text := by
    rw [List.forall₂_map_right_iff, List.forall₂_same]
  by_cases hroom : args.length ≤ MAX_HOST_ARGS
  · rw [if_pos hroom] at hloop
    have hcall : ∀ eval, callHost printReal name eval (hostList args) =
        hostValue name (eval (args.map HostArg.text)) := fun eval => by
      rw [callHost, hloop]
      rfl
    constructor
    · rintro ⟨argv, hpassed, hargv⟩
      -- a function that tells these texts from all others
      have hsame := hpassed fun texts => if texts = args.map HostArg.text then (1, []) else (0, [])
      rw [hcall, if_pos rfl] at hsame
      have heq : argv = args.map HostArg.text := by
        by_contra hne
        rw [if_neg hne] at hsame
        cases hsame
      rw [heq, hread] at hargv
      exact ⟨hroom, hargv⟩
    · rintro ⟨-, hall⟩
      exact ⟨_, hcall, hread.mpr hall⟩
  · rw [if_neg hroom] at hloop
    refine iff_of_false ?_ fun h => hroom h.1
    rintro ⟨argv, hpassed, -⟩
    have hsame := hpassed fun _ => (1, [])
    rw [callHost, hloop] at hsame
    cases hsame

/-- **Every argument arrives** just when there are at most eight and each number is one of six
digits or fewer: `%g` prints the others with an exponent, which no editor function reads. -/
theorem callHost_passes_iff (args : List HostArg) :
    Arrives printReal name args ↔
      args.length ≤ MAX_HOST_ARGS ∧ ∀ n, .number n ∈ args → n.natAbs < 10 ^ 6 := by
  rw [arrives_iff_texts]
  refine and_congr_right fun _ => ?_
  constructor
  · intro hall n hn
    exact (readBack_text_iff _).mp (hall _ hn) n rfl
  · intro hall arg harg
    refine (readBack_text_iff arg).mpr fun n hn => hall n ?_
    rw [← hn]
    exact harg

end Arrives

/-- The first number of seven digits: line 1000000. -/
theorem callHost_million :
    ¬ ∀ printReal name args, (∀ n, HostArg.number n ∈ args → n.natAbs < 2 ^ 31) →
      Arrives printReal name args := by
  intro hall
  have harrives := hall id [] [.number 1000000] fun n hn => by
    rw [List.mem_singleton, HostArg.number.injEq] at hn
    rw [hn]
    decide
  obtain ⟨-, hread⟩ := (arrives_iff_texts id [] _).mp harrives
  have hsix := (readBack_text_iff _).mp (hread _ List.mem_cons_self) 1000000 rfl
  exact absurd hsix (by decide)

end Lisp
