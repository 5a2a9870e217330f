import Mathlib
import Zzdwm.Emacs.Utf8
import Zzdwm.Lib.Numerals

/-!
# The tags file (`tags.c`)

`find-tag` reads the file `TAGS` into a list of references, and walks that list.

* `ffgetline`, `readtagline`, `readtagfile` — the file, line by line;
* `addtagref` — one more reference;
* `findtag` — a search from the top of the list, or from the reference found last;
* `Tag`, `Section` — what a well-formed file consists of, and `tagsText`, its bytes;
* `readtagfile_kept_iff` — **every tag is in the list, and is visited**, exactly where no two tags
  of a section have one line, no tag starts with a form feed and every line fits in an `int`.

A line finds room in the buffer of
`ffgetline`, and memory is never short; what the lines of the file do to the flag `b_crlf` of the
current buffer is left out.  `tagjump` is what follows a tag that is found.
-/

namespace Emacs

open Ascii (Byte bytes decimal isDigit)
open Numerals (strtol)

/-! ## The lists -/

structure tagref where
  string : List Byte
  line : Int
  offset : Int
  exact : Bool
  file : Nat
deriving DecidableEq

/-- The lists of `tags.c`, and what a search leaves behind.  A file is its number in `tagfilelist`,
and `lastref` a number of `tagreflist`. -/
structure TagTable where
  tagfilelist : List (List Byte)
  tagreflist : List tagref
  havetags : Bool
  tagpat : List Byte
  lastref : Option Nat
  message : List Byte

/-- `addtagref` on the list of references: a reference to a line that has one is dropped. -/
def addtagref (string : List Byte) (file : Nat) (line offset : Int) (exact : Bool)
    (refs : List tagref) : List tagref :=
  if refs.any fun next => file = next.file ∧ line = next.line then refs
  else
    let newref : tagref := ⟨string, line, offset, exact, file⟩
    if exact then
      refs.takeWhile (fun r => r.exact) ++ newref :: refs.dropWhile (fun r => r.exact)
    else refs ++ [newref]

/-! ## The file -/

/-- What `ffgetline` says of a line. -/
inductive Fio where
  | FIOSUC
  | FIOEOF
deriving DecidableEq

/-- `ffgetline`: the status, the line, and what is left of the file. -/
def ffgetline : List Byte → Fio × List Byte × List Byte
  | [] => (.FIOEOF, [], [])
  | c :: rest =>
      if c = 0x0A then (.FIOSUC, [], rest)
      else if c = 0x0D ∧ rest.head? = some 0x0A then (.FIOSUC, [], rest.tail)
      else
        let (s, line, left) := ffgetline rest
        (s, c :: line, left)

theorem ffgetline_shrinks (text : List Byte) (h : text ≠ []) :
    (ffgetline text).2.2.length < text.length := by
  induction text with
  | nil => exact absurd rfl h
  | cons c rest ih =>
      unfold ffgetline
      split
      · exact Nat.lt_succ_self _
      · split
        · rw [List.length_tail, List.length_cons]
          omega
        · cases rest with
          | nil => exact Nat.zero_lt_succ _
          | cons d rest => exact Nat.lt_succ_of_lt (ih (List.cons_ne_nil d rest))

/-- `strchr`: a text in front of the first `c` and behind it. -/
def strchr (c : Byte) (s : List Byte) : Option (List Byte × List Byte) :=
  match s.dropWhile (· ≠ c) with
  | [] => none
  | _ :: rest => some (s.takeWhile (· ≠ c), rest)

/-- `strrchr`: a text in front of the last `c`. -/
def strrchr (c : Byte) (s : List Byte) : Option (List Byte) :=
  match s.reverse.dropWhile (· ≠ c) with
  | [] => none
  | _ :: front => some front.reverse

/-- A `long` as an `int`. -/
def toInt (n : Int) : Int := n.bmod (2 ^ 32)

/-- The variables of `readtagfile`, and the lists. -/
structure TagReader where
  istagline : Bool
  curfile : Option Nat
  files : List (List Byte)
  refs : List tagref
  message : List Byte

/-- A line as a C string in the loop of `readtagfile`.  A line that ends the loop gives what
`havetags` becomes. -/
def readtagline (line : List Byte) (r : TagReader) : TagReader × Option Bool :=
  if line.head? = some 0x0C then ({ r with istagline := false }, none)
  else if r.istagline then
    match r.curfile with
    | none => ({ r with message := bytes "Reference without file" }, some true)
    | some curfile =>
        match strchr 0x7F line with
        | none => ({ r with message := bytes "Tag line missing 0x7f" }, some false)
        | some (string, rest) =>
            let eol := ((strchr 0x01 rest).map Prod.snd).getD rest
            let (value, eol) := strtol eol
            let lineno := toInt value
            if lineno = 0 ∨ eol.head? ≠ some 0x2C then
              ({ r with message := bytes "Badly formed line number for " ++ string }, none)
            else
              let offset := (strtol eol.tail).1
              ({ r with refs := addtagref string curfile lineno offset false r.refs }, none)
  else
    match strrchr 0x2C line with
    | none => ({ r with message := bytes "Filename not followed by comma" }, some false)
    | some fname =>
        ({ r with
          istagline := true, curfile := some r.files.length, files := r.files ++ [fname] }, none)

/-- The loop of `readtagfile`, and `havetags`. -/
def readtagLoop (text : List Byte) (r : TagReader) : TagReader × Bool :=
  let got := ffgetline text
  if got.1 ≠ .FIOSUC ∧ got.2.1 = [] then (r, true)
  else
    match readtagline (got.2.1.takeWhile (· ≠ 0)) r with
    | (r, some havetags) => (r, havetags)
    | (r, none) => if got.1 = .FIOSUC then readtagLoop got.2.2 r else (r, true)
termination_by text.length
decreasing_by
  apply ffgetline_shrinks
  rintro rfl
  rename_i hsuc
  exact nomatch (show Fio.FIOEOF = Fio.FIOSUC from hsuc)

/-- `readtagfile` for a file with the bytes `text`, if it can be opened. -/
def readtagfile (fname : List Byte) (text : Option (List Byte)) (s : TagTable) :
    TagTable × Bool :=
  match text with
  | none => ({ s with message := bytes "Unable to open tag file " ++ fname }, false)
  | some text =>
      let (r, havetags) := readtagLoop text ⟨true, none, [], [], s.message⟩
      ({ s with
        tagfilelist := r.files, tagreflist := r.refs, havetags := havetags,
        message := r.message }, havetags)

def preptag (text : Option (List Byte)) (s : TagTable) : TagTable × Bool :=
  if !s.havetags then readtagfile (bytes "TAGS") text s else (s, true)

/-! ## Searches -/

/-- `strstr` in a reference: does it contain the pattern? -/
def matchtag (string tagpat : List Byte) : Bool := decide (tagpat <:+: string)

/-- The references from `r` up to the header, in the direction of `n`. -/
def ahead (n : Int) (refs : List tagref) : Option Nat → List Nat
  | none => []
  | some r => if 0 ≤ n then List.range' r (refs.length - r) else (List.range (r + 1)).reverse

/-- The reference that follows one in the direction of `n`; a list without references has none. -/
def follow (n : Int) (refs : List tagref) (r : Nat) : Option Nat :=
  if 0 ≤ n then if r + 1 < refs.length then some (r + 1) else none
  else if r = 0 then none else some (r - 1)

/-- `searchtag` from the reference `r`, up to the tag that is found. -/
def searchfrom (f : Bool) (n : Int) (r : Option Nat) (s : TagTable) : TagTable × Option tagref :=
  match (ahead n s.tagreflist r).find? fun i =>
      (s.tagreflist[i]?).any fun r => matchtag r.string s.tagpat with
  | none =>
      ({ s with
        message := bytes (if f then "No more tags for " else "No tags for ") ++ s.tagpat }, none)
  | some i => ({ s with lastref := some i }, s.tagreflist[i]?)

/-- `findtag` without an argument: the pattern has been read, and `text` is the tags file. -/
def findtag (text : Option (List Byte)) (pat : List Byte) (s : TagTable) :
    TagTable × Option tagref :=
  let (s, prepared) := preptag text { s with tagpat := pat }
  if !prepared then (s, none)
  else searchfrom false 1 (if s.tagreflist = [] then none else some 0) s

/-- `findtag` with the argument `n`. -/
def findtagNext (n : Int) (s : TagTable) : TagTable × Option tagref :=
  searchfrom true n (s.lastref.bind (follow n s.tagreflist)) s

/-! ## References one by one -/

/-- Exact references stand in front of the others. -/
def ExactFirst (refs : List tagref) : Prop := refs.Pairwise fun a b => b.exact → a.exact

theorem ExactFirst.takeWhile_eq_filter {refs : List tagref} (h : ExactFirst refs) :
    (∀ r ∈ refs.takeWhile (fun r => r.exact), r.exact = true) ∧
      ∀ r ∈ refs.dropWhile (fun r => r.exact), r.exact = false := by
  constructor
  · intro r hr
    exact List.mem_takeWhile_imp hr
  · induction refs with
    | nil => nofun
    | cons a rest ih =>
        obtain ⟨hfirst, hrest⟩ := List.pairwise_cons.mp h
        rw [List.dropWhile_cons]
        split
        next => exact ih hrest
        next hexact =>
          intro r hr
          rcases List.mem_cons.mp hr with rfl | hr
          · exact eq_false_of_ne_true hexact
          · exact eq_false_of_ne_true fun hr' => hexact (hfirst r hr hr')

/-- **A new reference has its place among the exact ones, or at the end.** -/
theorem addtagref_exactFirst {refs : List tagref} (h : ExactFirst refs) (string : List Byte)
    (file : Nat) (line offset : Int) (exact : Bool) :
    ExactFirst (addtagref string file line offset exact refs) := by
  unfold addtagref
  split
  · exact h
  · obtain ⟨hexact, hothers⟩ := h.takeWhile_eq_filter
    dsimp only
    split
    · have hsplit := List.takeWhile_append_dropWhile (p := fun r : tagref => r.exact) (l := refs)
      unfold ExactFirst at h ⊢
      rw [← hsplit] at h
      obtain ⟨hfront, hback, -⟩ := List.pairwise_append.mp h
      refine List.pairwise_append.mpr ⟨hfront, List.pairwise_cons.mpr ⟨?_, hback⟩, ?_⟩
      · intro b hb _
        assumption
      · intro a ha b _ _
        exact hexact a ha
    · refine List.pairwise_append.mpr ⟨h, List.pairwise_singleton _ _, ?_⟩
      intro a _ b hb hb'
      rw [List.mem_singleton.mp hb] at hb'
      exact absurd hb' (by assumption)

theorem addtagref_length_le (string : List Byte) (file : Nat) (line offset : Int) (exact : Bool)
    (refs : List tagref) :
    (addtagref string file line offset exact refs).length ≤ refs.length + 1 := by
  unfold addtagref
  split
  · omega
  · dsimp only
    split
    · have hsplit := congrArg List.length
        (List.takeWhile_append_dropWhile (p := fun r : tagref => r.exact) (l := refs))
      rw [List.length_append] at hsplit ⊢
      rw [List.length_cons]
      omega
    · rw [List.length_append, List.length_singleton]

/-- The lists that `readtagfile` may reach. -/
structure Grown (refs refs' : List tagref) (n : Nat) : Prop where
  exactFirst : ExactFirst refs → ExactFirst refs'
  length_le : refs'.length ≤ refs.length + n

theorem readtagline_grown (line : List Byte) (r : TagReader) :
    Grown r.refs (readtagline line r).1.refs (if line.head? = some 0x0C then 0 else 1) := by
  unfold readtagline
  split
  · exact ⟨id, Nat.le_add_right _ _⟩
  · split
    · split
      · exact ⟨id, Nat.le_add_right _ _⟩
      · split
        · exact ⟨id, Nat.le_add_right _ _⟩
        · dsimp only
          split
          · exact ⟨id, Nat.le_add_right _ _⟩
          · exact ⟨fun h => addtagref_exactFirst h .., addtagref_length_le ..⟩
    · split
      · exact ⟨id, Nat.le_add_right _ _⟩
      · exact ⟨id, Nat.le_add_right _ _⟩

/-- **Whatever the file, exact references stand in front.** -/
theorem readtagLoop_exactFirst (text : List Byte) (r : TagReader) (h : ExactFirst r.refs) :
    ExactFirst (readtagLoop text r).1.refs := by
  fun_induction readtagLoop text r with
  | case1 => exact h
  | case2 text r got hmore r' havetags hline =>
      have hgrown := readtagline_grown (got.2.1.takeWhile (· ≠ 0)) r
      rw [hline] at hgrown
      exact hgrown.exactFirst h
  | case3 text r got hmore r' hline hsuc ih =>
      have hgrown := readtagline_grown (got.2.1.takeWhile (· ≠ 0)) r
      rw [hline] at hgrown
      exact ih (hgrown.exactFirst h)
  | case4 text r got hmore r' hline hsuc =>
      have hgrown := readtagline_grown (got.2.1.takeWhile (· ≠ 0)) r
      rw [hline] at hgrown
      exact hgrown.exactFirst h

/-! ## Well-formed files -/

/-- A tag of a file: the text in front of the rubout, the name of a macro if there is one, and
where the tag is. -/
structure Tag where
  text : List Byte
  name : Option (List Byte)
  line : Nat
  offset : Nat
  text_plain : ∀ b ∈ text, b ≠ 0 ∧ b ≠ 0x0A ∧ b ≠ 0x7F
  name_plain : ∀ n ∈ name, ∀ b ∈ n, b ≠ 0 ∧ b ≠ 0x0A ∧ b ≠ 0x01
  line_pos : 0 < line

/-- The tags of one source file; `size` is the number of characters that is written behind the
name. -/
structure Section where
  fname : List Byte
  size : Nat
  tags : List Tag
  fname_plain : ∀ b ∈ fname, b ≠ 0 ∧ b ≠ 0x0A
  fname_first : fname.head? ≠ some 0x0C

def Tag.bytes (tag : Tag) : List Byte :=
  tag.text ++ 0x7F ::
    ((tag.name.map (· ++ [0x01])).getD [] ++ (decimal tag.line ++ 0x2C :: decimal tag.offset))

def Section.header (sec : Section) : List Byte := sec.fname ++ 0x2C :: decimal sec.size

def Section.lines (sec : Section) : List (List Byte) :=
  [0x0C] :: sec.header :: sec.tags.map Tag.bytes

/-- The lines of a file, each with its line feed. -/
def tagsText (sections : List Section) : List Byte :=
  (sections.flatMap Section.lines).flatMap fun line => line ++ [0x0A]

/-! ## Lines -/

/-- A line that is read as it stands. -/
structure PlainLine (line : List Byte) : Prop where
  plain : ∀ b ∈ line, b ≠ 0 ∧ b ≠ 0x0A
  end_ne : line.getLast? ≠ some 0x0D

theorem ffgetline_line {line : List Byte} (h : PlainLine line) (rest : List Byte) :
    ffgetline (line ++ 0x0A :: rest) = (.FIOSUC, line, rest) := by
  obtain ⟨hplain, hend⟩ := h
  induction line with
  | nil => rfl
  | cons c line ih =>
      have hc : c ≠ 0x0A := (hplain c List.mem_cons_self).2
      have hend' : line.getLast? ≠ some 0x0D := by
        intro hlast
        cases line with
        | nil => exact absurd hlast nofun
        | cons d line => exact hend (by rw [List.getLast?_cons_cons]; exact hlast)
      have hcr : ¬ (c = 0x0D ∧ (line ++ 0x0A :: rest).head? = some 0x0A) := by
        rintro ⟨rfl, hhead⟩
        cases line with
        | nil => exact hend rfl
        | cons d line =>
            have hd : d ≠ 0x0A := (hplain d (by simp)).2
            exact hd (Option.some.inj hhead)
      rw [List.cons_append, ffgetline, if_neg hc, if_neg hcr,
        ih (fun b hb => hplain b (List.mem_cons_of_mem c hb)) hend']

/-- The loop over lines that are read as they stand. -/
def readtaglines : List (List Byte) → TagReader → TagReader × Bool
  | [], r => (r, true)
  | line :: lines, r =>
      match readtagline line r with
      | (r, some havetags) => (r, havetags)
      | (r, none) => readtaglines lines r

theorem takeWhile_plain {line : List Byte} (h : ∀ b ∈ line, b ≠ 0 ∧ b ≠ 0x0A) :
    line.takeWhile (· ≠ 0) = line := by
  apply List.takeWhile_eq_self_iff.mpr
  intro b hb
  simpa using (h b hb).1

theorem readtagLoop_lines {lines : List (List Byte)} (h : ∀ line ∈ lines, PlainLine line)
    (r : TagReader) :
    readtagLoop (lines.flatMap fun line => line ++ [0x0A]) r = readtaglines lines r := by
  induction lines generalizing r with
  | nil =>
      rw [List.flatMap_nil, readtagLoop]
      rfl
  | cons line lines ih =>
      have hline : PlainLine line := h line List.mem_cons_self
      have hrest : ∀ l ∈ lines, PlainLine l := fun l hl => h l (List.mem_cons_of_mem line hl)
      have htext : (line :: lines).flatMap (fun line => line ++ [0x0A]) =
          line ++ 0x0A :: lines.flatMap fun line => line ++ [0x0A] := by
        rw [List.flatMap_cons, List.append_assoc]
        rfl
      rw [htext, readtagLoop, ffgetline_line hline]
      dsimp only
      rw [takeWhile_plain hline.plain, readtaglines]
      simp only [ne_eq, not_true_eq_false, false_and, if_false, if_true]
      split
      next => rfl
      next => exact ih hrest _

theorem decimal_plain {n : Nat} : ∀ b ∈ decimal n, b ≠ 0 ∧ b ≠ 0x0A ∧ b ≠ 0x01 ∧ b ≠ 0x2C := by
  intro b hb
  have hdigit : isDigit b = true := Ascii.isDigit_of_mem_decimal hb
  refine ⟨?_, ?_, ?_, ?_⟩ <;>
    · rintro rfl
      exact absurd hdigit (by decide)

/-- A line that ends in a number is read as it stands. -/
theorem plainLine_number {front : List Byte} (h : ∀ b ∈ front, b ≠ 0 ∧ b ≠ 0x0A) (n : Nat) :
    PlainLine (front ++ decimal n) where
  plain := by
    intro b hb
    rcases List.mem_append.mp hb with hb | hb
    · exact h b hb
    · exact ⟨(decimal_plain b hb).1, (decimal_plain b hb).2.1⟩
  end_ne := by
    intro hlast
    rw [List.getLast?_append_of_ne_nil _ (Ascii.decimal_ne_nil n)] at hlast
    have hdigit : isDigit 0x0D = true :=
      Ascii.isDigit_of_mem_decimal (List.mem_of_getLast? hlast)
    exact absurd hdigit (by decide)

theorem Tag.bytes_plain (tag : Tag) : PlainLine tag.bytes := by
  have hfront : ∀ b ∈ tag.text ++ 0x7F ::
      ((tag.name.map (· ++ [0x01])).getD [] ++ (decimal tag.line ++ [0x2C])),
      b ≠ 0 ∧ b ≠ 0x0A := by
    intro b hb
    rcases List.mem_append.mp hb with hb | hb
    · exact ⟨(tag.text_plain b hb).1, (tag.text_plain b hb).2.1⟩
    · rcases List.mem_cons.mp hb with rfl | hb
      · decide
      · rcases List.mem_append.mp hb with hb | hb
        · cases hname : tag.name with
          | none =>
              rw [hname] at hb
              cases hb
          | some name =>
              rw [hname] at hb
              rcases List.mem_append.mp hb with hb | hb
              · exact ⟨(tag.name_plain name hname b hb).1, (tag.name_plain name hname b hb).2.1⟩
              · rw [List.mem_singleton.mp hb]
                decide
        · rcases List.mem_append.mp hb with hb | hb
          · exact ⟨(decimal_plain b hb).1, (decimal_plain b hb).2.1⟩
          · rw [List.mem_singleton.mp hb]
            decide
  have hbytes : tag.bytes = tag.text ++ 0x7F ::
      ((tag.name.map (· ++ [0x01])).getD [] ++ (decimal tag.line ++ [0x2C])) ++
        decimal tag.offset := by
    unfold Tag.bytes
    simp only [List.append_assoc, List.cons_append, List.nil_append]
  rw [hbytes]
  exact plainLine_number hfront tag.offset

theorem Section.lines_plain (sec : Section) : ∀ line ∈ sec.lines, PlainLine line := by
  intro line hline
  rcases List.mem_cons.mp hline with rfl | hline
  · refine ⟨?_, by decide⟩
    intro b hb
    rw [List.mem_singleton.mp hb]
    decide
  · rcases List.mem_cons.mp hline with rfl | hline
    · have hfront : ∀ b ∈ sec.fname ++ [0x2C], b ≠ 0 ∧ b ≠ 0x0A := by
        intro b hb
        rcases List.mem_append.mp hb with hb | hb
        · exact sec.fname_plain b hb
        · rw [List.mem_singleton.mp hb]
          decide
      have hheader : sec.header = sec.fname ++ [0x2C] ++ decimal sec.size := by
        unfold Section.header
        rw [List.append_assoc]
        rfl
      rw [hheader]
      exact plainLine_number hfront sec.size
    · obtain ⟨tag, -, rfl⟩ := List.mem_map.mp hline
      exact tag.bytes_plain

/-! ## One line of the file -/

theorem strchr_append {c : Byte} {front : List Byte} (h : ∀ b ∈ front, b ≠ c) (rest : List Byte) :
    strchr c (front ++ c :: rest) = some (front, rest) := by
  have hfront : ∀ b ∈ front, decide (b ≠ c) = true := fun b hb => decide_eq_true (h b hb)
  rw [strchr, List.dropWhile_append_of_pos hfront, List.takeWhile_append_of_pos hfront,
    List.dropWhile_cons_of_neg (by simp), List.takeWhile_cons_of_neg (by simp), List.append_nil]

theorem strchr_none {c : Byte} {s : List Byte} (h : ∀ b ∈ s, b ≠ c) : strchr c s = none := by
  have hdrop : s.dropWhile (· ≠ c) = [] := by
    apply List.dropWhile_eq_nil_iff.mpr
    intro b hb
    exact decide_eq_true (h b hb)
  rw [strchr, hdrop]

theorem strrchr_append {c : Byte} {rest : List Byte} (h : ∀ b ∈ rest, b ≠ c) (front : List Byte) :
    strrchr c (front ++ c :: rest) = some front := by
  have hrest : ∀ b ∈ rest.reverse, decide (b ≠ c) = true := by
    intro b hb
    exact decide_eq_true (h b (List.mem_reverse.mp hb))
  rw [strrchr, List.reverse_append, List.reverse_cons, List.append_assoc,
    List.dropWhile_append_of_pos hrest, List.singleton_append,
    List.dropWhile_cons_of_neg (by simp)]
  dsimp only
  rw [List.reverse_reverse]

/-- The line of a tag as `readtagfile` has it. -/
def Tag.lineno (tag : Tag) : Int := toInt (min tag.line (2 ^ 63 - 1))

def Tag.ref (file : Nat) (tag : Tag) : tagref :=
  ⟨tag.text, tag.lineno, min tag.offset (2 ^ 63 - 1), false, file⟩

/-- What the line of a tag does to the references. -/
def addTag (file : Nat) (tag : Tag) (refs : List tagref) : List tagref :=
  if tag.lineno = 0 then refs
  else addtagref tag.text file tag.lineno (tag.ref file).offset false refs

theorem strtol_decimal {n : Nat} {rest : List Byte} (h : Numerals.EndsDigits rest) :
    strtol (decimal n ++ rest) = (min (n : Int) (2 ^ 63 - 1), rest) := by
  rw [Numerals.strtol_digits (Ascii.decimal_ne_nil n)
    (fun b hb => Ascii.isDigit_of_mem_decimal hb) h, Ascii.value_decimal]

/-- The name of a macro is passed over. -/
theorem Tag.name_skipped (tag : Tag) :
    let numbers := decimal tag.line ++ 0x2C :: decimal tag.offset
    let rest := (tag.name.map (· ++ [0x01])).getD [] ++ numbers
    ((strchr 0x01 rest).map Prod.snd).getD rest = numbers := by
  dsimp only
  cases hname : tag.name with
  | none =>
      have hplain : ∀ b ∈ decimal tag.line ++ 0x2C :: decimal tag.offset, b ≠ 0x01 := by
        intro b hb
        rcases List.mem_append.mp hb with hb | hb
        · exact (decimal_plain b hb).2.2.1
        · rcases List.mem_cons.mp hb with rfl | hb
          · decide
          · exact (decimal_plain b hb).2.2.1
      simp only [Option.map_none, Option.getD_none, List.nil_append]
      rw [strchr_none hplain]
      rfl
  | some name =>
      have hplain : ∀ b ∈ name, b ≠ 0x01 := fun b hb => (tag.name_plain name hname b hb).2.2
      simp only [Option.map_some, Option.getD_some, List.append_assoc, List.singleton_append]
      rw [strchr_append hplain]
      rfl

theorem readtagline_tag {tag : Tag} (h : tag.text.head? ≠ some 0x0C) {r : TagReader} {file : Nat}
    (hr : r.istagline = true) (hfile : r.curfile = some file) :
    ∃ message, readtagline tag.bytes r =
      ({ r with refs := addTag file tag r.refs, message := message }, none) := by
  have hhead : tag.bytes.head? ≠ some 0x0C := by
    unfold Tag.bytes
    cases htext : tag.text with
    | nil =>
        rintro ⟨⟩
    | cons b rest =>
        rw [htext] at h
        exact h
  have hrubout : ∀ b ∈ tag.text, b ≠ 0x7F := fun b hb => (tag.text_plain b hb).2.2
  have hline : Numerals.EndsDigits (0x2C :: decimal tag.offset) := by
    intro b hb
    rw [← Option.some.inj hb]
    decide
  have hoffset := @strtol_decimal tag.offset [] nofun
  rw [List.append_nil] at hoffset
  have hskip := tag.name_skipped
  unfold readtagline
  rw [if_neg hhead, if_pos hr, hfile]
  dsimp only at hskip ⊢
  rw [Tag.bytes, strchr_append hrubout]
  dsimp only
  rw [hskip, strtol_decimal hline]
  dsimp only
  by_cases hzero : tag.lineno = 0
  · have hbad : toInt (min tag.line (2 ^ 63 - 1)) = 0 ∨
        (0x2C :: decimal tag.offset).head? ≠ some 0x2C := Or.inl hzero
    rw [if_pos hbad, addTag, if_pos hzero]
    exact ⟨_, rfl⟩
  · have hgood : ¬ (toInt (min tag.line (2 ^ 63 - 1)) = 0 ∨
        (0x2C :: decimal tag.offset).head? ≠ some 0x2C) := by
      rintro (h | h)
      · exact hzero h
      · exact h rfl
    rw [if_neg hgood, addTag, if_neg hzero, List.tail_cons, hoffset]
    exact ⟨_, rfl⟩

theorem readtagline_feed (r : TagReader) :
    readtagline [0x0C] r = ({ r with istagline := false }, none) := if_pos rfl

theorem readtagline_header (sec : Section) {r : TagReader} (h : r.istagline = false) :
    readtagline sec.header r =
      ({ r with
        istagline := true, curfile := some r.files.length, files := r.files ++ [sec.fname] },
        none) := by
  have hhead : sec.header.head? ≠ some 0x0C := by
    unfold Section.header
    cases hname : sec.fname with
    | nil => rintro ⟨⟩
    | cons b rest =>
        have hfirst := sec.fname_first
        rw [hname] at hfirst
        exact hfirst
  have hcomma : ∀ b ∈ decimal sec.size, b ≠ 0x2C := fun b hb => (decimal_plain b hb).2.2.2
  rw [readtagline, if_neg hhead, if_neg (by simp [h]), Section.header, strrchr_append hcomma]

/-! ## Whole files -/

/-- What the tags of a section do to the references. -/
def addTags (file : Nat) : List Tag → List tagref → List tagref
  | [], refs => refs
  | tag :: tags, refs => addTags file tags (addTag file tag refs)

def addSections : Nat → List Section → List tagref → List tagref
  | _, [], refs => refs
  | file, sec :: sections, refs => addSections (file + 1) sections (addTags file sec.tags refs)

/-- All tags of a file. -/
def allTags (sections : List Section) : List Tag := sections.flatMap Section.tags

/-- A line that starts with a form feed is taken for the start of a section. -/
def Tag.feedless (tag : Tag) : Bool := decide (tag.text.head? ≠ some 0x0C)

theorem readtaglines_tags {tags : List Tag} (h : ∀ tag ∈ tags, tag.feedless)
    (rest : List (List Byte)) {r : TagReader} {file : Nat} (hr : r.istagline = true)
    (hfile : r.curfile = some file) :
    ∃ message, readtaglines (tags.map Tag.bytes ++ rest) r =
      readtaglines rest { r with refs := addTags file tags r.refs, message := message } := by
  induction tags generalizing r with
  | nil => exact ⟨r.message, rfl⟩
  | cons tag tags ih =>
      obtain ⟨m, hline⟩ := readtagline_tag (of_decide_eq_true (h tag List.mem_cons_self)) hr hfile
      rw [List.map_cons, List.cons_append, readtaglines, hline]
      exact ih (fun t ht => h t (List.mem_cons_of_mem tag ht)) hr hfile

theorem readtaglines_sections {sections : List Section}
    (h : ∀ tag ∈ allTags sections, tag.feedless) (r : TagReader) :
    ∃ r', readtaglines (sections.flatMap Section.lines) r = (r', true) ∧
      r'.files = r.files ++ sections.map Section.fname ∧
      r'.refs = addSections r.files.length sections r.refs := by
  induction sections generalizing r with
  | nil => exact ⟨r, rfl, (List.append_nil _).symm, rfl⟩
  | cons sec sections ih =>
      have htags : ∀ tag ∈ sec.tags, tag.feedless :=
        fun tag htag => h tag (List.mem_append_left _ htag)
      have hrest : ∀ tag ∈ allTags sections, tag.feedless :=
        fun tag htag => h tag (List.mem_append_right _ htag)
      rw [List.flatMap_cons, Section.lines, List.cons_append, List.cons_append, readtaglines,
        readtagline_feed]
      dsimp only
      rw [readtaglines, readtagline_header sec rfl]
      dsimp only
      obtain ⟨m, htagged⟩ := readtaglines_tags htags (sections.flatMap Section.lines)
        (r := { r with
          istagline := true, curfile := some r.files.length, files := r.files ++ [sec.fname] })
        rfl rfl
      rw [htagged]
      obtain ⟨r', hrun, hfiles, hrefs⟩ := ih hrest _
      refine ⟨r', hrun, ?_, ?_⟩
      · rw [hfiles, List.map_cons, List.append_assoc]
        rfl
      · rw [hrefs, addSections, List.length_append, List.length_singleton]

theorem readtaglines_cons_length {line : List Byte} {lines : List (List Byte)} {r : TagReader}
    {n : Nat}
    (h : ∀ r, (readtaglines lines r).1.refs.length ≤ r.refs.length + n) :
    (readtaglines (line :: lines) r).1.refs.length ≤
      r.refs.length + (if line.head? = some 0x0C then 0 else 1) + n := by
  have hgrown := (readtagline_grown line r).length_le
  rw [readtaglines]
  split
  next heq =>
    rw [heq] at hgrown
    exact hgrown.trans (Nat.le_add_right _ _)
  next r' heq =>
    rw [heq] at hgrown
    exact (h r').trans (Nat.add_le_add_right hgrown n)

/-- A tag that starts with a form feed gives no reference, whatever the lines around it do. -/
theorem readtaglines_tags_length (tags : List Tag) {rest : List (List Byte)} {n : Nat}
    (hrest : ∀ r, (readtaglines rest r).1.refs.length ≤ r.refs.length + n) (r : TagReader) :
    (readtaglines (tags.map Tag.bytes ++ rest) r).1.refs.length ≤
      r.refs.length + (tags.countP Tag.feedless + n) := by
  induction tags generalizing r with
  | nil =>
      rw [List.countP_nil, Nat.zero_add]
      exact hrest r
  | cons tag tags ih =>
      have hcons := @readtaglines_cons_length tag.bytes _ r _ ih
      have hhead : (if tag.bytes.head? = some 0x0C then 0 else 1) =
          if tag.feedless then 1 else 0 := by
        have hiff : tag.bytes.head? = some 0x0C ↔ ¬ tag.feedless = true := by
          unfold Tag.bytes Tag.feedless
          cases htext : tag.text with
          | nil => simp
          | cons b rest => simp
        by_cases hfeed : tag.feedless = true
        · rw [if_neg (fun h => hiff.mp h hfeed), if_pos hfeed]
        · rw [if_pos (hiff.mpr hfeed), if_neg hfeed]
      rw [hhead] at hcons
      rw [List.map_cons, List.cons_append, List.countP_cons]
      omega

theorem readtaglines_length (sections : List Section) (r : TagReader) :
    (readtaglines (sections.flatMap Section.lines) r).1.refs.length ≤
      r.refs.length + (allTags sections).countP Tag.feedless := by
  induction sections generalizing r with
  | nil => exact Nat.le_add_right _ _
  | cons sec sections ih =>
      have htags := readtaglines_tags_length sec.tags ih
        { r with
          istagline := true, curfile := some r.files.length, files := r.files ++ [sec.fname] }
      rw [List.flatMap_cons, Section.lines, List.cons_append, List.cons_append, readtaglines,
        readtagline_feed]
      dsimp only
      rw [readtaglines, readtagline_header sec rfl]
      dsimp only
      rw [allTags, List.flatMap_cons, List.countP_append]
      exact htags

/-! ## References of different lines -/

/-- No reference of the list stands for the line of the tag. -/
def New (file : Nat) (tag : Tag) (refs : List tagref) : Prop :=
  tag.lineno ≠ 0 ∧ ∀ r ∈ refs, ¬ (file = r.file ∧ tag.lineno = r.line)

theorem addTag_new {file : Nat} {tag : Tag} {refs : List tagref} (h : New file tag refs) :
    addTag file tag refs = refs ++ [tag.ref file] := by
  have hany : ¬ (refs.any fun next => file = next.file ∧ tag.lineno = next.line) = true := by
    intro hany
    obtain ⟨r, hr, hsame⟩ := List.any_eq_true.mp hany
    exact h.2 r hr (of_decide_eq_true hsame)
  rw [addTag, if_neg h.1, addtagref, if_neg hany]
  rfl

theorem addTag_old {file : Nat} {tag : Tag} {refs : List tagref} (h : ¬ New file tag refs) :
    addTag file tag refs = refs := by
  unfold addTag
  split
  next => rfl
  next hzero =>
    have hany : (refs.any fun next => file = next.file ∧ tag.lineno = next.line) = true := by
      by_contra hany
      refine h ⟨hzero, ?_⟩
      intro r hr hsame
      exact hany (List.any_eq_true.mpr ⟨r, hr, decide_eq_true hsame⟩)
    rw [addtagref, if_pos hany]

/-- Each tag of a section is new when its turn comes. -/
def FreshTags (file : Nat) : List Tag → List tagref → Prop
  | [], _ => True
  | tag :: tags, refs => New file tag refs ∧ FreshTags file tags (refs ++ [tag.ref file])

theorem addTags_fresh {file : Nat} {tags : List Tag} {refs : List tagref}
    (h : FreshTags file tags refs) : addTags file tags refs = refs ++ tags.map (Tag.ref file) := by
  induction tags generalizing refs with
  | nil => exact (List.append_nil refs).symm
  | cons tag tags ih =>
      rw [addTags, addTag_new h.1, ih h.2, List.append_assoc]
      rfl

theorem addTags_length_le (file : Nat) (tags : List Tag) (refs : List tagref) :
    (addTags file tags refs).length ≤ refs.length + tags.length := by
  induction tags generalizing refs with
  | nil => exact le_refl _
  | cons tag tags ih =>
      have hrest := ih (addTag file tag refs)
      rw [addTags, List.length_cons]
      by_cases hnew : New file tag refs
      · rw [addTag_new hnew, List.length_append, List.length_singleton] at hrest
        rw [addTag_new hnew]
        omega
      · rw [addTag_old hnew] at hrest ⊢
        omega

/-- A tag that is not new is lost. -/
theorem addTags_lost {file : Nat} {tags : List Tag} {refs : List tagref}
    (h : ¬ FreshTags file tags refs) :
    (addTags file tags refs).length < refs.length + tags.length := by
  induction tags generalizing refs with
  | nil => exact absurd trivial h
  | cons tag tags ih =>
      rw [addTags, List.length_cons]
      by_cases hnew : New file tag refs
      · have hrest := ih fun hfresh => h ⟨hnew, hfresh⟩
        rw [List.length_append, List.length_singleton] at hrest
        rw [addTag_new hnew]
        omega
      · have hrest := addTags_length_le file tags refs
        rw [addTag_old hnew]
        omega

theorem freshTags_iff {file : Nat} {tags : List Tag} {refs : List tagref} :
    FreshTags file tags refs ↔ (∀ tag ∈ tags, New file tag refs) ∧ (tags.map Tag.lineno).Nodup := by
  induction tags generalizing refs with
  | nil => simp [FreshTags]
  | cons tag tags ih =>
      rw [FreshTags, ih, List.forall_mem_cons, List.map_cons, List.nodup_cons]
      constructor
      · rintro ⟨hnew, hrest, hnodup⟩
        refine ⟨⟨hnew, ?_⟩, ?_, hnodup⟩
        · intro t ht
          exact ⟨(hrest t ht).1, fun r hr => (hrest t ht).2 r (List.mem_append_left _ hr)⟩
        · intro hmem
          obtain ⟨t, ht, hsame⟩ := List.mem_map.mp hmem
          exact (hrest t ht).2 (tag.ref file) (by simp) ⟨rfl, hsame⟩
      · rintro ⟨⟨hnew, hrest⟩, hnot, hnodup⟩
        refine ⟨hnew, ?_, hnodup⟩
        intro t ht
        refine ⟨(hrest t ht).1, ?_⟩
        intro r hr
        rcases List.mem_append.mp hr with hr | hr
        · exact (hrest t ht).2 r hr
        · rw [List.mem_singleton.mp hr]
          rintro ⟨-, hsame⟩
          exact hnot (List.mem_map.mpr ⟨t, ht, hsame⟩)

/-- The lines of a section are different from each other. -/
def Section.Apart (sec : Section) : Prop :=
  (∀ tag ∈ sec.tags, tag.lineno ≠ 0) ∧ (sec.tags.map Tag.lineno).Nodup

theorem Section.fresh_iff {sec : Section} {file : Nat} {refs : List tagref}
    (h : ∀ r ∈ refs, r.file < file) : FreshTags file sec.tags refs ↔ sec.Apart := by
  rw [Emacs.freshTags_iff]
  refine and_congr_left fun _ => forall₂_congr fun tag _ => and_iff_left ?_
  rintro r hr ⟨hfile, -⟩
  exact absurd hfile (Nat.ne_of_gt (h r hr))

/-- The references of a file whose tags are all kept. -/
def refsOf : Nat → List Section → List tagref
  | _, [] => []
  | file, sec :: sections => sec.tags.map (Tag.ref file) ++ refsOf (file + 1) sections

theorem addSections_length_le (file : Nat) (sections : List Section) (refs : List tagref) :
    (addSections file sections refs).length ≤ refs.length + (allTags sections).length := by
  induction sections generalizing file refs with
  | nil => exact le_refl _
  | cons sec sections ih =>
      have htags := addTags_length_le file sec.tags refs
      have hrest := ih (file + 1) (addTags file sec.tags refs)
      rw [addSections, allTags, List.flatMap_cons, List.length_append]
      exact hrest.trans (by rw [allTags]; omega)

theorem before_next {file : Nat} {tags : List Tag} {refs : List tagref}
    (h : ∀ r ∈ refs, r.file < file) :
    ∀ r ∈ refs ++ tags.map (Tag.ref file), r.file < file + 1 := by
  intro r hr
  rcases List.mem_append.mp hr with hr | hr
  · exact Nat.lt_succ_of_lt (h r hr)
  · obtain ⟨tag, -, rfl⟩ := List.mem_map.mp hr
    exact Nat.lt_succ_self file

theorem addSections_apart {file : Nat} {sections : List Section} {refs : List tagref}
    (hrefs : ∀ r ∈ refs, r.file < file) (h : ∀ sec ∈ sections, sec.Apart) :
    addSections file sections refs = refs ++ refsOf file sections := by
  induction sections generalizing file refs with
  | nil => exact (List.append_nil refs).symm
  | cons sec sections ih =>
      have hfresh := (Section.fresh_iff hrefs).mpr (h sec List.mem_cons_self)
      rw [addSections, addTags_fresh hfresh, ih (before_next hrefs)
        fun s hs => h s (List.mem_cons_of_mem sec hs), refsOf, List.append_assoc]

theorem addSections_lost {file : Nat} {sections : List Section} {refs : List tagref}
    (hrefs : ∀ r ∈ refs, r.file < file) (h : ¬ ∀ sec ∈ sections, sec.Apart) :
    (addSections file sections refs).length < refs.length + (allTags sections).length := by
  induction sections generalizing file refs with
  | nil => exact absurd nofun h
  | cons sec sections ih =>
      rw [addSections, allTags, List.flatMap_cons, List.length_append]
      by_cases hsec : sec.Apart
      · have hfresh := (Section.fresh_iff hrefs).mpr hsec
        have hrest := ih (@before_next file sec.tags refs hrefs)
          fun hall => h (List.forall_mem_cons.mpr ⟨hsec, hall⟩)
        rw [List.length_append, List.length_map, allTags] at hrest
        rw [addTags_fresh hfresh]
        omega
      · have hlost := addTags_lost fun hfresh => hsec ((Section.fresh_iff hrefs).mp hfresh)
        have hrest := addSections_length_le (file + 1) sections (addTags file sec.tags refs)
        rw [allTags] at hrest
        omega

/-! ## What is listed -/

/-- A reference as the reader of the list sees it: its text, the name of its file, its line. -/
def TagTable.named (s : TagTable) (r : tagref) : List Byte × List Byte × Int :=
  (r.string, s.tagfilelist.getD r.file [], r.line)

/-- The tags of a file, in its order. -/
def tagsOf (sections : List Section) : List (List Byte × List Byte × Int) :=
  sections.flatMap fun sec => sec.tags.map fun tag => (tag.text, sec.fname, (tag.line : Int))

theorem tagsOf_length (sections : List Section) :
    (tagsOf sections).length = (allTags sections).length := by
  simp only [tagsOf, allTags, List.length_flatMap, List.length_map]

theorem refsOf_named (front : List (List Byte)) (sections : List Section) :
    ((refsOf front.length sections).map fun r =>
        (r.string, (front ++ sections.map Section.fname).getD r.file [], r.line)) =
      sections.flatMap fun sec => sec.tags.map fun tag => (tag.text, sec.fname, tag.lineno) := by
  induction sections generalizing front with
  | nil => rfl
  | cons sec sections ih =>
      have hrest := ih (front ++ [sec.fname])
      rw [List.length_append, List.length_singleton, List.append_assoc] at hrest
      rw [refsOf, List.map_append, List.flatMap_cons, List.map_cons]
      refine congrArg₂ (· ++ ·) ?_ hrest
      rw [List.map_map]
      apply List.map_congr_left
      intro tag _
      have hname : (front ++ sec.fname :: sections.map Section.fname).getD front.length [] =
          sec.fname := by
        simp [List.getD_eq_getElem?_getD]
      exact congrArg (fun name => (tag.text, name, tag.lineno)) hname

theorem lineno_eq {tag : Tag} (h : tag.line < 2 ^ 31) : tag.lineno = tag.line := by
  unfold Tag.lineno toInt
  rw [Int.min_eq_left (by omega)]
  exact Int.bmod_eq_of_le (by omega) (by omega)

theorem lineno_lt (tag : Tag) : tag.lineno < 2 ^ 31 := by
  have hlt := Int.bmod_lt (x := min (tag.line : Int) (2 ^ 63 - 1)) (m := 2 ^ 32) (by decide)
  exact Int.lt_of_lt_of_le hlt (by decide)

/-- What a file has to be for all its tags to be kept. -/
structure Separate (sections : List Section) : Prop where
  lines : ∀ sec ∈ sections, (sec.tags.map Tag.line).Nodup
  feedless : ∀ tag ∈ allTags sections, tag.text.head? ≠ some 0x0C
  limits : ∀ tag ∈ allTags sections, tag.line < 2 ^ 31

theorem Separate.apart {sections : List Section} (h : Separate sections) :
    ∀ sec ∈ sections, sec.Apart := by
  intro sec hsec
  have hlineno : ∀ tag ∈ sec.tags, tag.lineno = tag.line :=
    fun tag htag => lineno_eq (h.limits tag (List.mem_flatMap.mpr ⟨sec, hsec, htag⟩))
  constructor
  · intro tag htag hzero
    have hpos := tag.line_pos
    rw [hlineno tag htag] at hzero
    omega
  · have hmap : sec.tags.map Tag.lineno = (sec.tags.map Tag.line).map Int.ofNat := by
      rw [List.map_map]
      exact List.map_congr_left hlineno
    rw [hmap]
    exact (h.lines sec hsec).map fun _ _ => Int.ofNat.inj

/-! ## Searches -/

/-- The numbers of the references that match, from `i` on. -/
def hitsFrom (refs : List tagref) (pat : List Byte) (i : Nat) : List Nat :=
  (List.range' i (refs.length - i)).filter fun i => (refs[i]?).any fun r => matchtag r.string pat

theorem filter_range' (p : Nat → Bool) (i n : Nat) :
    (List.range' i n).filter p =
      match (List.range' i n).find? p with
      | none => []
      | some j => j :: (List.range' (j + 1) (i + n - (j + 1))).filter p := by
  induction n generalizing i with
  | zero => rfl
  | succ n ih =>
      rw [List.range'_succ, List.filter_cons, List.find?_cons]
      cases hp : p i with
      | true => simp [Nat.add_comm n 1, ← Nat.add_assoc]
      | false =>
          have hn : i + (n + 1) = i + 1 + n := by omega
          rw [hn]
          exact ih (i + 1)

/-- **A search goes to the next reference that matches.** -/
theorem searchfrom_hits (f : Bool) {n : Int} (hn : 0 ≤ n) (s : TagTable) {i : Nat}
    (hi : i ≤ s.tagreflist.length) :
    match hitsFrom s.tagreflist s.tagpat i with
    | [] => (searchfrom f n (some i) s).2 = none
    | j :: rest =>
        searchfrom f n (some i) s = ({ s with lastref := some j }, s.tagreflist[j]?) ∧
          j < s.tagreflist.length ∧ rest = hitsFrom s.tagreflist s.tagpat (j + 1) := by
  have hahead : ahead n s.tagreflist (some i) = List.range' i (s.tagreflist.length - i) :=
    if_pos hn
  unfold hitsFrom searchfrom
  rw [filter_range', hahead, Nat.add_sub_cancel' hi]
  cases hfind : (List.range' i (s.tagreflist.length - i)).find? fun i =>
      (s.tagreflist[i]?).any fun r => matchtag r.string s.tagpat with
  | none => rfl
  | some j =>
      have hmem := List.mem_of_find?_eq_some hfind
      rw [List.mem_range'_1] at hmem
      exact ⟨rfl, by omega, rfl⟩

/-- The `k`th of the searches for a pattern: the first has no argument, those behind it have the
arguments `args`. -/
def findtagTimes (text : Option (List Byte)) (pat : List Byte) (args : Nat → Nat) :
    Nat → TagTable → TagTable × Option tagref
  | 0, s => findtag text pat s
  | k + 1, s => findtagNext (args k) (findtagTimes text pat args k s).1

/-- A search that ended at reference `i`, with the numbers `rest` still to come. -/
structure FoundAt (s : TagTable) (pat : List Byte) (rest : List Nat) (i : Nat)
    (got : TagTable × Option tagref) : Prop where
  state : got.1 = { s with tagpat := pat, lastref := some i }
  found : got.2 = s.tagreflist[i]?
  bound : i < s.tagreflist.length
  rest_eq : rest = hitsFrom s.tagreflist pat (i + 1)

/-- What a search gives, with the numbers that are still to come before it. -/
def Searched (s : TagTable) (pat : List Byte) : List Nat → TagTable × Option tagref → Prop
  | [], got => got.2 = none
  | j :: rest, got => FoundAt s pat rest j got

theorem findtag_hits (text : Option (List Byte)) (pat : List Byte) {s : TagTable}
    (h : s.havetags = true) :
    Searched s pat (hitsFrom s.tagreflist pat 0) (findtag text pat s) := by
  have hprep : preptag text { s with tagpat := pat } = ({ s with tagpat := pat }, true) := by
    rw [preptag, h]
    rfl
  rw [findtag, hprep]
  dsimp only
  by_cases hempty : s.tagreflist = []
  · have hnone : hitsFrom s.tagreflist pat 0 = [] := by rw [hempty]; rfl
    rw [hnone]
    simp only [hempty, Bool.not_true, Bool.false_eq_true, if_false, if_true]
    rfl
  · have hhits := searchfrom_hits false (n := 1) (by decide) { s with tagpat := pat }
      (Nat.zero_le s.tagreflist.length)
    simp only [hempty, Bool.not_true, Bool.false_eq_true, if_false]
    revert hhits
    cases hitsFrom s.tagreflist pat 0 with
    | nil => exact id
    | cons j rest =>
        rintro ⟨hstate, hbound, hrest⟩
        rw [hstate]
        exact ⟨rfl, rfl, hbound, hrest⟩

theorem findtagNext_hits {s : TagTable} {pat : List Byte} {rest : List Nat} {i : Nat}
    {got : TagTable × Option tagref} (h : FoundAt s pat rest i got) (n : Nat) :
    Searched s pat rest (findtagNext n got.1) := by
  obtain ⟨hstate, -, hbound, hrest⟩ := h
  have hn : (0 : Int) ≤ n := Int.natCast_nonneg n
  have hhits := searchfrom_hits true hn got.1 (i := i + 1) (by rw [hstate]; exact hbound)
  have hnext : findtagNext n got.1 =
      if i + 1 < s.tagreflist.length then searchfrom true n (some (i + 1)) got.1
      else searchfrom true n none got.1 := by
    rw [findtagNext, hstate]
    simp only [Option.bind_some, follow, if_pos hn]
    split <;> rfl
  have hlist : got.1.tagreflist = s.tagreflist := by rw [hstate]
  have hpat : got.1.tagpat = pat := by rw [hstate]
  rw [hlist, hpat, ← hrest] at hhits
  by_cases hmore : i + 1 < s.tagreflist.length
  · rw [hnext, if_pos hmore]
    revert hhits
    cases rest with
    | nil => exact id
    | cons j rest =>
        rintro ⟨hfound, hj, hrest⟩
        rw [hfound]
        exact ⟨by rw [hstate], rfl, hj, hrest⟩
  · have hnil : rest = [] := by
      have hzero : s.tagreflist.length - (i + 1) = 0 := by omega
      rw [hrest, hitsFrom, hzero]
      rfl
    subst hnil
    rw [hnext, if_neg hmore]
    rfl

/-- **The searches visit the references that match, one after the other.** -/
theorem findtagTimes_hits (text : Option (List Byte)) (pat : List Byte) (args : Nat → Nat)
    {s : TagTable} (h : s.havetags = true) (k : Nat)
    (hk : k ≤ (hitsFrom s.tagreflist pat 0).length) :
    Searched s pat ((hitsFrom s.tagreflist pat 0).drop k) (findtagTimes text pat args k s) := by
  induction k with
  | zero => exact findtag_hits text pat h
  | succ k ih =>
      have hlt : k < (hitsFrom s.tagreflist pat 0).length := hk
      have hbefore := ih (Nat.le_of_lt hlt)
      rw [List.drop_eq_getElem_cons hlt] at hbefore
      exact findtagNext_hits hbefore (args k)

/-- The numbers found stand for the references that match. -/
theorem hits_refs (front refs : List tagref) (pat : List Byte) :
    ((List.range' front.length refs.length).filter fun i =>
        ((front ++ refs)[i]?).any fun r => matchtag r.string pat).map
          (fun i => (front ++ refs)[i]?) =
      (refs.filter fun r => matchtag r.string pat).map some := by
  induction refs generalizing front with
  | nil => rfl
  | cons r refs ih =>
      have hrest := ih (front ++ [r])
      rw [List.length_append, List.length_singleton, List.append_assoc, List.singleton_append]
        at hrest
      have hget : (front ++ r :: refs)[front.length]? = some r := by simp
      rw [List.length_cons, List.range'_succ, List.filter_cons, List.filter_cons, hget,
        Option.any_some]
      split
      · rw [List.map_cons, List.map_cons, hget, hrest]
      · exact hrest

/-! ## The tags file -/

/-- The table holds the tags of a file, and the searches find them. -/
structure TagsKept (sections : List Section) (s : TagTable) : Prop where
  havetags : s.havetags = true
  listed : s.tagreflist.map s.named = tagsOf sections
  exactFirst : ExactFirst s.tagreflist
  visited : ∀ (text : Option (List Byte)) (pat : List Byte) (args : Nat → Nat) (k : Nat),
    k ≤ ((tagsOf sections).filter fun tag => matchtag tag.1 pat).length →
      (findtagTimes text pat args k s).2.map s.named =
        ((tagsOf sections).filter fun tag => matchtag tag.1 pat)[k]?

theorem TagTable.visited (s : TagTable) (h : s.havetags = true) (text : Option (List Byte))
    (pat : List Byte) (args : Nat → Nat) (k : Nat)
    (hk : k ≤ (s.tagreflist.filter fun r => matchtag r.string pat).length) :
    (findtagTimes text pat args k s).2 =
      (s.tagreflist.filter fun r => matchtag r.string pat)[k]? := by
  have hrefs : (hitsFrom s.tagreflist pat 0).map (fun i => s.tagreflist[i]?) =
      (s.tagreflist.filter fun r => matchtag r.string pat).map some :=
    hits_refs [] s.tagreflist pat
  have hlength := congrArg List.length hrefs
  rw [List.length_map, List.length_map] at hlength
  have hfound := findtagTimes_hits text pat args h k (hlength ▸ hk)
  have hget := congrArg (fun l => l[k]?) hrefs
  simp only [List.getElem?_map] at hget
  have hhead : ((hitsFrom s.tagreflist pat 0).drop k).head? = (hitsFrom s.tagreflist pat 0)[k]? :=
    List.head?_drop
  cases hdrop : (hitsFrom s.tagreflist pat 0).drop k with
  | nil =>
      rw [hdrop] at hfound hhead
      rw [← hhead, List.head?_nil, Option.map_none] at hget
      rw [hfound]
      exact (Option.map_eq_none_iff.mp hget.symm).symm
  | cons j rest =>
      rw [hdrop] at hfound hhead
      rw [← hhead, List.head?_cons, Option.map_some] at hget
      rw [hfound.found]
      cases hmatch : (s.tagreflist.filter fun r => matchtag r.string pat)[k]? with
      | none =>
          rw [hmatch] at hget
          cases hget
      | some r =>
          rw [hmatch] at hget
          exact Option.some.inj hget

/-- What `readtagfile` makes of a well-formed file is what its lines give. -/
theorem readtagfile_lines (fname : List Byte) (sections : List Section) (s : TagTable) :
    readtagfile fname (some (tagsText sections)) s =
      let got := readtaglines (sections.flatMap Section.lines) ⟨true, none, [], [], s.message⟩
      ({ s with
        tagfilelist := got.1.files, tagreflist := got.1.refs, havetags := got.2,
        message := got.1.message }, got.2) := by
  have hplain : ∀ line ∈ sections.flatMap Section.lines, PlainLine line := by
    intro line hline
    obtain ⟨sec, -, hline⟩ := List.mem_flatMap.mp hline
    exact sec.lines_plain line hline
  rw [readtagfile, tagsText]
  dsimp only
  rw [readtagLoop_lines hplain]

theorem readtagfile_separate {sections : List Section} (h : Separate sections) (fname : List Byte)
    (s : TagTable) : TagsKept sections (readtagfile fname (some (tagsText sections)) s).1 := by
  have hfeed : ∀ tag ∈ allTags sections, tag.feedless :=
    fun tag htag => decide_eq_true (h.feedless tag htag)
  obtain ⟨r', hrun, hfiles, hrefs⟩ :=
    readtaglines_sections hfeed ⟨true, none, [], [], s.message⟩
  rw [List.length_nil, addSections_apart (List.forall_mem_nil _) h.apart, List.nil_append] at hrefs
  rw [List.nil_append] at hfiles
  have hread := readtagfile_lines fname sections s
  have hfront := readtagLoop_exactFirst (tagsText sections) ⟨true, none, [], [], s.message⟩
    List.Pairwise.nil
  have hstate : (readtagfile fname (some (tagsText sections)) s).1 =
      { s with
        tagfilelist := r'.files, tagreflist := r'.refs, havetags := true,
        message := r'.message } := by
    rw [hread, hrun]
  have hlisted : r'.refs.map (fun r => (r.string, r'.files.getD r.file [], r.line)) =
      tagsOf sections := by
    have hnamed := refsOf_named [] sections
    rw [List.length_nil, List.nil_append] at hnamed
    rw [hrefs, hfiles, hnamed, tagsOf]
    apply List.flatMap_congr
    intro sec hsec
    apply List.map_congr_left
    intro tag htag
    rw [lineno_eq (h.limits tag (List.mem_flatMap.mpr ⟨sec, hsec, htag⟩))]
  have hexact : ExactFirst r'.refs := by
    have hkept : r'.refs = (readtagfile fname (some (tagsText sections)) s).1.tagreflist := by
      rw [hstate]
    rw [hkept]
    exact hfront
  rw [hstate]
  refine ⟨rfl, hlisted, hexact, ?_⟩
  intro text pat args k hk
  have hfilter : (tagsOf sections).filter (fun tag => matchtag tag.1 pat) =
      (r'.refs.filter fun r => matchtag r.string pat).map fun r =>
        (r.string, r'.files.getD r.file [], r.line) := by
    rw [← hlisted, List.filter_map]
    rfl
  rw [hfilter, List.length_map] at hk
  rw [hfilter, List.getElem?_map, TagTable.visited _ rfl text pat args k hk]
  rfl

/-- A file whose tags are all listed has lines that are apart. -/
theorem separate_of_listed {sections : List Section} (fname : List Byte) {s : TagTable}
    (h : TagsKept sections (readtagfile fname (some (tagsText sections)) s).1) :
    Separate sections := by
  have hlisted := h.listed
  rw [readtagfile_lines] at hlisted
  dsimp only at hlisted
  have hlength := congrArg List.length hlisted
  rw [List.length_map, tagsOf_length] at hlength
  have hcount : (allTags sections).countP Tag.feedless = (allTags sections).length := by
    have hle := readtaglines_length sections ⟨true, none, [], [], s.message⟩
    rw [hlength, List.length_nil, Nat.zero_add] at hle
    exact Nat.le_antisymm List.countP_le_length hle
  have hfeed : ∀ tag ∈ allTags sections, tag.feedless := List.countP_eq_length.mp hcount
  obtain ⟨r', hrun, hfiles, hrefs⟩ :=
    readtaglines_sections hfeed ⟨true, none, [], [], s.message⟩
  rw [hrun] at hlisted hlength
  rw [List.length_nil] at hrefs
  have hapart : ∀ sec ∈ sections, sec.Apart := by
    by_contra hnot
    have hlost := addSections_lost (List.forall_mem_nil fun r : tagref => r.file < 0) hnot
    rw [List.length_nil, Nat.zero_add, ← hrefs] at hlost
    exact Nat.ne_of_lt hlost hlength
  rw [addSections_apart (List.forall_mem_nil _) hapart, List.nil_append] at hrefs
  rw [List.nil_append] at hfiles
  have hnamed : (sections.flatMap fun sec =>
      sec.tags.map fun tag => (tag.text, sec.fname, tag.lineno)) = tagsOf sections := by
    have hall := refsOf_named [] sections
    rw [List.length_nil, List.nil_append, ← hrefs, ← hfiles] at hall
    rw [← hall]
    exact hlisted
  have hlimits : ∀ tag ∈ allTags sections, tag.line < 2 ^ 31 := by
    intro tag htag
    obtain ⟨sec, hsec, htag⟩ := List.mem_flatMap.mp htag
    have hmem : (tag.text, sec.fname, (tag.line : Int)) ∈ tagsOf sections :=
      List.mem_flatMap.mpr ⟨sec, hsec, List.mem_map.mpr ⟨tag, htag, rfl⟩⟩
    rw [← hnamed] at hmem
    obtain ⟨sec', -, hmem⟩ := List.mem_flatMap.mp hmem
    obtain ⟨tag', -, hsame⟩ := List.mem_map.mp hmem
    have hline : tag'.lineno = tag.line := congrArg (fun t => t.2.2) hsame
    have hlt := lineno_lt tag'
    omega
  refine ⟨?_, fun tag htag => of_decide_eq_true (hfeed tag htag), hlimits⟩
  intro sec hsec
  have hmap : sec.tags.map Tag.lineno = (sec.tags.map Tag.line).map Int.ofNat := by
    rw [List.map_map]
    apply List.map_congr_left
    intro tag htag
    exact lineno_eq (hlimits tag (List.mem_flatMap.mpr ⟨sec, hsec, htag⟩))
  have hnodup := (hapart sec hsec).2
  rw [hmap] at hnodup
  exact hnodup.of_map

/-- **Every tag of the file is in the list, in its order, and the searches visit each that matches,
exactly where the tags of each section have different lines, no tag starts with a form feed and
the lines fit in an `int`.** -/
theorem readtagfile_kept_iff (sections : List Section) (fname : List Byte) (s : TagTable) :
    TagsKept sections (readtagfile fname (some (tagsText sections)) s).1 ↔ Separate sections :=
  ⟨separate_of_listed fname, fun h => readtagfile_separate h fname s⟩

/-- The line `int a, b;` with a tag for each of its names. -/
def twoNames : Section where
  fname := bytes "a.c"
  size := 26
  tags :=
    [ { text := bytes "int a,", name := some (bytes "a"), line := 1, offset := 0,
        text_plain := by decide +kernel, name_plain := by decide +kernel, line_pos := by decide },
      { text := bytes "int a, b;", name := some (bytes "b"), line := 1, offset := 0,
        text_plain := by decide +kernel, name_plain := by decide +kernel, line_pos := by decide } ]
  fname_plain := by decide +kernel
  fname_first := by decide

/-- The second tag of a line is lost, and is not found. -/
theorem twoNames_lost :
    let s := (readtagfile (bytes "TAGS") (some (tagsText [twoNames]))
      ⟨[], [], false, [], none, []⟩).1
    tagsOf [twoNames] =
        [(bytes "int a,", bytes "a.c", 1), (bytes "int a, b;", bytes "a.c", 1)] ∧
      s.tagreflist.map s.named = [(bytes "int a,", bytes "a.c", 1)] ∧
      (findtag none (bytes " b;") s).2 = none ∧ ¬ TagsKept [twoNames] s := by
  have hrefs : let s := (readtagfile (bytes "TAGS") (some (tagsText [twoNames]))
        ⟨[], [], false, [], none, []⟩).1
      s.tagreflist.map s.named = [(bytes "int a,", bytes "a.c", 1)] := by decide +kernel
  refine ⟨by decide +kernel, hrefs, by decide +kernel, ?_⟩
  intro h
  have hlength := congrArg List.length (hrefs.symm.trans h.listed)
  exact absurd hlength (by decide)

end Emacs
