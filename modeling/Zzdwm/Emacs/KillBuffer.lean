import Mathlib
import Zzdwm.Emacs.RegionWalks
import Zzdwm.Emacs.Killing

/-!
# The kill buffer (`line.c`, `region.c`, `random.c`)

The kill buffer is a block that grows, and is read through a pointer that is kept from call to
call, together with the index of the character it points at.

* `KillBuffer` — the block, the pointer and the index, with the routines of `line.c`;
* `Moves` — in which order the commands call these routines;
* `Reached.sound` — **the pointer is right** whenever `kremove` relies on it;
* `killregion`, `copyregion`, `yank` — the commands;
* `kill_yank` — what is killed or copied, and what comes back.
-/

namespace Emacs

open Journal (Zipper)

/-- `KBLOCK`. -/
def KBLOCK : Nat := 256

/-- A place in a block of the heap. -/
structure Pointer where
  block : Nat
  offset : Nat
  deriving DecidableEq

/-- The kill buffer: its block, and the first `kused` bytes of it.  `realloc` is taken to give
another block each time; `blocks` is the number of those that have been given. -/
structure KillBuffer where
  kbufp : Option Nat
  text : List Byte
  ksize : Nat
  kchars : Nat
  kptr : Option Pointer
  kindex : Int
  blocks : Nat

namespace KillBuffer

/-- The statics of `line.c` at the start. -/
def initial : KillBuffer := ⟨none, [], 0, 0, none, -1, 0⟩

variable (k : KillBuffer)

/-- `kdelete`; `lastkill` is the bit `CFKILL` of `lastflag`. -/
def kdelete (lastkill : Bool) : KillBuffer :=
  if lastkill then k
  else if k.kbufp ≠ none then
    { k with kbufp := none, text := [], ksize := 0, kchars := 0, kptr := none, kindex := -1 }
  else k

/-- `kinsert`. -/
def kinsert (s : List Byte) : KillBuffer :=
  let k :=
    if k.text.length + s.length > k.ksize then
      { k with
        kbufp := some k.blocks
        ksize := k.ksize + s.length + KBLOCK
        blocks := k.blocks + 1 }
    else k
  { k with text := k.text ++ s, kchars := k.kchars + unslen s }

/-- The bytes in use from a pointer on, unless it points elsewhere. -/
def read (ptr : Option Pointer) : Option (List Byte) :=
  match ptr with
  | some p => if some p.block = k.kbufp ∧ p.offset ≤ k.text.length then some (k.text.drop p.offset)
      else none
  | none => none

/-- `kremove`: the character, or `none` for its result `-1`.  There is no state if it reads
bytes that are not in use. -/
def kremove (n : Nat) : Option (Option UChar × KillBuffer) :=
  if n ≥ k.kchars then some (none, k)
  else
    let k :=
      if (n : Int) ≠ k.kindex then
        { k with kptr := k.kbufp.map fun b => ⟨b, uoffset k.text n⟩, kindex := n }
      else k
    match k.kptr, k.read k.kptr with
    | some p, some (c :: s) =>
        let len := uclen c
        if len ≤ (c :: s).length then
          some (some ((c :: s).take len),
            { k with kptr := some { p with offset := p.offset + len }, kindex := k.kindex + 1 })
        else none
    | _, _ => none

/-- `krewind`. -/
def krewind : KillBuffer := { k with kptr := k.kbufp.map fun b => ⟨b, 0⟩ }

/-- `kgetc`: the byte, or `none` for its result `-1`.  There is no state if the pointer is
compared with one to another block. -/
def kgetc : Option (Option Byte × KillBuffer) :=
  match k.kptr, k.kbufp with
  | none, _ => some (none, k)
  | some _, none => some (none, k)
  | some p, some b =>
      if p.block ≠ b then none
      else
        match k.text.drop p.offset with
        | [] => some (none, k)
        | c :: _ => some (some c, { k with kptr := some { p with offset := p.offset + 1 } })

/-! ## The calls of the commands -/

/-- What a command is doing with the kill buffer. -/
inductive Phase
  | idle
  | yanking (i : Nat)
  | pasting

/-- A call.  The commands that kill or copy call `kdelete` and then `kinsert`, with whole
characters; `yank` takes the characters one by one, and begins again if it has an argument;
the prompts rewind and take byte after byte.  Each of them may stop at any time. -/
inductive Moves : KillBuffer × Phase → KillBuffer × Phase → Prop
  | kdelete (k : KillBuffer) (lastkill : Bool) : Moves (k, .idle) (k.kdelete lastkill, .idle)
  | kinsert (k : KillBuffer) (cs : List UChar) (hcs : AllUChars cs) :
      Moves (k, .idle) (k.kinsert cs.flatten, .idle)
  | yank (k : KillBuffer) : Moves (k, .idle) (k, .yanking 0)
  | char {k k' : KillBuffer} {i : Nat} {c : UChar} (hread : k.kremove i = some (some c, k')) :
      Moves (k, .yanking i) (k', .yanking (i + 1))
  | again {k k' : KillBuffer} {i : Nat} (hread : k.kremove i = some (none, k')) :
      Moves (k, .yanking i) (k', .yanking 0)
  | krewind (k : KillBuffer) : Moves (k, .idle) (k.krewind, .pasting)
  | kgetc {k k' : KillBuffer} {c : Option Byte} (hread : k.kgetc = some (c, k')) :
      Moves (k, .pasting) (k', .pasting)
  | stop (k : KillBuffer) (phase : Phase) : Moves (k, phase) (k, .idle)

/-- What the commands can have made of the kill buffer. -/
def Reached (k : KillBuffer) (phase : Phase) : Prop :=
  Relation.ReflTransGen Moves (initial, .idle) (k, phase)

/-! ## The kill buffer is in order -/

/-- The pointer is at the `n`-th character. -/
def PointsAt (n : Nat) : Prop := ∃ b, k.kbufp = some b ∧ k.kptr = some ⟨b, uoffset k.text n⟩

/-- The kill buffer holds some characters. -/
structure Keeps (cs : List UChar) : Prop where
  whole : AllUChars cs
  text : k.text = cs.flatten
  chars : k.kchars = cs.length
  fits : k.text.length ≤ k.ksize
  null : k.kbufp = none → k.ksize = 0

/-- What holds of the pointer and the index while a command is using them. -/
def Ready : Phase → Prop
  | .idle => k.kindex ≠ 0
  | .yanking 0 => k.kindex ≠ 0
  | .yanking (i + 1) => k.kindex = i + 1 ∧ k.PointsAt (i + 1)
  | .pasting => k.kindex ≠ 0 ∧ ∀ p, k.kptr = some p → ∀ b, k.kbufp = some b → p.block = b

variable {k : KillBuffer} {cs ds : List UChar} {i : Nat} {phase : Phase}

theorem Keeps.empty (h : k.Keeps cs) (hnone : k.kbufp = none) : cs = [] := by
  have hle := h.fits
  rw [h.null hnone, h.text] at hle
  exact List.length_eq_zero_iff.mp (Nat.le_zero.mp (h.whole.length_le.trans hle))

theorem keeps_initial : initial.Keeps [] :=
  ⟨(fun _ hc => absurd hc List.not_mem_nil), rfl, rfl, Nat.le_refl 0, fun _ => rfl⟩

theorem Keeps.kdelete (h : k.Keeps cs) (lastkill : Bool) :
    (k.kdelete lastkill).Keeps (if lastkill then cs else []) := by
  unfold KillBuffer.kdelete
  cases lastkill with
  | true => exact h
  | false =>
      rw [if_neg Bool.false_ne_true]
      split
      · exact ⟨(fun _ hc => absurd hc List.not_mem_nil), rfl, rfl, Nat.le_refl 0, fun _ => rfl⟩
      · rename_i hnone
        obtain rfl := h.empty (not_not.mp hnone)
        exact h

theorem Keeps.kinsert (h : k.Keeps cs) (hds : AllUChars ds) :
    (k.kinsert ds.flatten).Keeps (cs ++ ds) := by
  have htext : k.text ++ ds.flatten = (cs ++ ds).flatten := by rw [h.text, List.flatten_append]
  have hchars : k.kchars + unslen ds.flatten = (cs ++ ds).length := by
    rw [h.chars, unslen_flatten hds, List.length_append]
  unfold KillBuffer.kinsert
  split
  · refine ⟨h.whole.append hds, htext, hchars, ?_, fun hnone => nomatch hnone⟩
    have hle := h.fits
    change (k.text ++ ds.flatten).length ≤ k.ksize + ds.flatten.length + KBLOCK
    rw [List.length_append]
    omega
  · rename_i hroom
    refine ⟨h.whole.append hds, htext, hchars, ?_, h.null⟩
    change (k.text ++ ds.flatten).length ≤ k.ksize
    rw [List.length_append]
    omega

/-- **`kremove` finds the character**, if the pointer is right when it relies on it. -/
theorem Keeps.kremove (h : k.Keeps cs) (hi : i < cs.length) (hcache : k.kindex = i → k.PointsAt i) :
    ∃ k', k.kremove i = some (some cs[i], k') ∧ k'.Keeps cs ∧ k'.kindex = i + 1 ∧
      k'.PointsAt (i + 1) := by
  obtain ⟨b, hb⟩ := Option.ne_none_iff_exists'.mp fun hnone => by
    rw [h.empty hnone] at hi
    exact Nat.not_lt_zero _ hi
  have hchars := h.chars
  have hmoved : (if (i : Int) ≠ k.kindex then
      { k with kptr := k.kbufp.map fun b => ⟨b, uoffset k.text i⟩, kindex := (i : Int) } else k) =
      { k with kptr := some ⟨b, uoffset k.text i⟩, kindex := i } := by
    split
    · rw [hb, Option.map_some]
    · rename_i hsame
      have hsame := not_not.mp hsame
      obtain ⟨b', hb', hptr⟩ := hcache hsame.symm
      obtain rfl := Option.some.inj (hb'.symm.trans hb)
      rw [← hptr, hsame]
  have hsplit : cs.drop i = cs[i] :: cs.drop (i + 1) := List.drop_eq_getElem_cons hi
  have hdrop : k.text.drop (uoffset k.text i) = cs[i] ++ (cs.drop (i + 1)).flatten := by
    rw [h.text, drop_uoffset h.whole, hsplit, List.flatten_cons]
  have hwhole := h.whole _ (List.getElem_mem hi)
  have hle : uoffset k.text i ≤ k.text.length := by
    rw [h.text, uoffset_flatten h.whole]
    conv_rhs => rw [← List.take_append_drop i cs, List.flatten_append, List.length_append]
    exact Nat.le_add_right _ _
  have hnext : uoffset k.text (i + 1) = uoffset k.text i + cs[i].length := by
    rw [h.text, uoffset_flatten h.whole, uoffset_flatten h.whole, List.take_add_one,
      List.getElem?_eq_getElem hi, List.flatten_append, List.length_append, Option.toList_some,
      List.flatten_singleton]
  unfold KillBuffer.kremove
  rw [if_neg (by omega)]
  dsimp only
  rw [hmoved, KillBuffer.read]
  dsimp only
  rw [if_pos ⟨hb.symm, hle⟩, hdrop]
  match hc : cs[i], hwhole with
  | c :: t, hwhole =>
      rw [hc] at hnext
      rw [List.cons_append]
      dsimp only
      rw [hwhole.uclen_eq, if_pos (by rw [← List.cons_append, List.length_append]; omega),
        ← List.cons_append, List.take_left]
      exact ⟨_, rfl, ⟨h.whole, h.text, h.chars, h.fits, h.null⟩, rfl, b, hb,
        by rw [← hnext]⟩

theorem Keeps.kremove_end (h : k.Keeps cs) (hi : cs.length ≤ i) : k.kremove i = some (none, k) :=
  if_pos (by rw [h.chars]; exact hi)

theorem Keeps.moved (h : k.Keeps cs) (ptr : Option Pointer) (index : Int) :
    { k with kptr := ptr, kindex := index }.Keeps cs :=
  ⟨h.whole, h.text, h.chars, h.fits, h.null⟩

/-- When `yank` calls `kremove` for the character whose index is kept, the pointer is there. -/
theorem Ready.cache (h : k.Ready (.yanking i)) (hsame : k.kindex = i) : k.PointsAt i := by
  cases i with
  | zero => exact absurd hsame h
  | succ i => exact h.2

theorem Ready.nonzero (h : k.Ready phase) : k.kindex ≠ 0 := by
  match phase, h with
  | .idle, h => exact h
  | .yanking 0, h => exact h
  | .yanking (i + 1), h =>
      have hindex := h.1
      omega
  | .pasting, h => exact h.1

theorem Keeps.kgetc {k' : KillBuffer} {c : Option Byte} (h : k.Keeps cs) (hready : k.Ready .pasting)
    (hread : k.kgetc = some (c, k')) : k'.Keeps cs ∧ k'.Ready .pasting := by
  obtain ⟨hindex, hptr⟩ := hready
  unfold KillBuffer.kgetc at hread
  split at hread
  · cases hread
    exact ⟨h, hindex, hptr⟩
  · cases hread
    exact ⟨h, hindex, hptr⟩
  · rename_i p b hp hb
    split at hread
    · cases hread
    · rename_i hsame
      split at hread
      · cases hread
        exact ⟨h, hindex, hptr⟩
      · cases hread
        refine ⟨h.moved _ _, hindex, ?_⟩
        rintro _ ⟨⟩ b' hb'
        exact hptr p hp b' hb'

/-- **What a call leaves**: the kill buffer holds characters, and the pointer and the index
are as the command needs them. -/
theorem Moves.keeps {s t : KillBuffer × Phase} (hmove : Moves s t) (hs : ∃ cs, s.1.Keeps cs)
    (hready : s.1.Ready s.2) : (∃ cs, t.1.Keeps cs) ∧ t.1.Ready t.2 := by
  obtain ⟨cs, h⟩ := hs
  cases hmove with
  | kdelete k lastkill =>
      refine ⟨⟨_, h.kdelete lastkill⟩, ?_⟩
      change (k.kdelete lastkill).kindex ≠ 0
      unfold KillBuffer.kdelete
      split
      · exact hready
      · split
        · exact Int.neg_ne_zero.mpr Int.one_ne_zero
        · exact hready
  | kinsert k ds hds =>
      refine ⟨⟨_, h.kinsert hds⟩, ?_⟩
      change (k.kinsert ds.flatten).kindex ≠ 0
      unfold KillBuffer.kinsert
      split <;> exact hready
  | yank k => exact ⟨⟨_, h⟩, hready⟩
  | @char k k' i c hread =>
      by_cases hi : i < cs.length
      · obtain ⟨k₁, heq, hkeeps, hindex, hpoints⟩ := h.kremove hi (Ready.cache hready)
        rw [hread] at heq
        cases heq
        exact ⟨⟨_, hkeeps⟩, hindex, hpoints⟩
      · rw [h.kremove_end (Nat.not_lt.mp hi)] at hread
        cases hread
  | @again k k' i hread =>
      by_cases hi : i < cs.length
      · obtain ⟨k₁, heq, -⟩ := h.kremove hi (Ready.cache hready)
        rw [hread] at heq
        cases heq
      · rw [h.kremove_end (Nat.not_lt.mp hi)] at hread
        cases hread
        exact ⟨⟨_, h⟩, Ready.nonzero hready⟩
  | krewind k =>
      refine ⟨⟨_, h.moved _ _⟩, hready, ?_⟩
      intro p hp b (hb : k.kbufp = some b)
      change k.kbufp.map _ = some p at hp
      rw [hb] at hp
      cases hp
      rfl
  | kgetc hread =>
      obtain ⟨hkeeps, hready⟩ := h.kgetc hready hread
      exact ⟨⟨_, hkeeps⟩, hready⟩
  | stop k phase => exact ⟨⟨_, h⟩, Ready.nonzero hready⟩

theorem Reached.keeps (h : Reached k phase) : (∃ cs, k.Keeps cs) ∧ k.Ready phase := by
  have hall : ∀ s, Relation.ReflTransGen Moves (initial, .idle) s →
      (∃ cs, s.1.Keeps cs) ∧ s.1.Ready s.2 := by
    intro s hs
    induction hs with
    | refl => exact ⟨⟨_, keeps_initial⟩, Int.neg_ne_zero.mpr Int.one_ne_zero⟩
    | tail _ hmove ih => exact hmove.keeps ih.1 ih.2
  exact hall _ h

/-- **The kill buffer is right in every state**: its characters are counted, the pointer is at
the character whose index is kept whenever `kremove` relies on that, and `kremove` gives the
character that is asked for. -/
theorem Reached.sound (h : Reached k phase) :
    k.kchars = unslen k.text ∧ ∀ i, phase = .yanking i →
      (k.kindex = i → k.PointsAt i) ∧
        (k.kremove i).map Prod.fst = some (uchars k.text)[i]? := by
  obtain ⟨⟨cs, hkeeps⟩, hready⟩ := h.keeps
  refine ⟨?_, ?_⟩
  · rw [hkeeps.text, unslen_flatten hkeeps.whole, hkeeps.chars]
  · rintro i rfl
    refine ⟨hready.cache, ?_⟩
    rw [hkeeps.text, uchars_flatten hkeeps.whole]
    by_cases hi : i < cs.length
    · obtain ⟨k', heq, -⟩ := hkeeps.kremove hi hready.cache
      rw [heq, List.getElem?_eq_getElem hi]
      rfl
    · rw [hkeeps.kremove_end (Nat.not_lt.mp hi), List.getElem?_eq_none (Nat.not_lt.mp hi)]
      rfl

end KillBuffer

/-! ## The commands -/

section Source

/-- The loop of `ldelete` with `kflag` set. -/
def ldeleteIntoLoop : Nat → Nat → Ed → KillBuffer → Ed × KillBuffer × Bool
  | _, 0, e, k => (e, k, true)
  | 0, _ + 1, e, k => (e, k, true)
  | f + 1, n + 1, e, k =>
      if e.dot.p = e.b_linep then (e, k, false)
      else
        let (e', chars) := ldeleteStep (n + 1) e
        ldeleteIntoLoop f (n + 1 - chars) e' (k.kinsert (killed (n + 1) e))

/-- `ldelete`, with `kflag` being `TRUE`. -/
def ldeleteInto (n : Int) (e : Ed) (k : KillBuffer) : Ed × KillBuffer × Bool :=
  if n < 0 then (e, k, false)
  else if !e.checkreadonly then (e, k, false)
  else ldeleteIntoLoop n.toNat n.toNat e k

/-- `killregion`. -/
def killregion (lastkill f : Bool) (e : Ed) (k : KillBuffer) : Ed × KillBuffer × Bool :=
  match getregion e ⟨⟨null, 0⟩, 0⟩ with
  | (_, some _) => (e, k, false)
  | (region, none) =>
      let k := k.kdelete lastkill
      let e := e.setDot region.r_pos
      let e := e.saveundo .UMOVE (some e.dot)
      if f = false then ldeleteInto region.r_size e k
      else
        let (e, status) := ldelete region.r_size e
        (e, k, status)

/-- `copyregion`. -/
def copyregion (behind : LineId → Nat → Byte) (lastkill : Bool) (e : Ed) (k : KillBuffer) :
    KillBuffer × Bool :=
  match getregion e ⟨⟨null, 0⟩, 0⟩ with
  | (_, some _) => (k, false)
  | (region, none) =>
      (walkRegion behind e (·.kinsert [newline])
        (fun k cptr chunk => k.kinsert (cptr.take (unblen cptr chunk)))
        region.r_size.toNat region.r_pos.p region.r_pos.o region.r_size.toNat (k.kdelete lastkill),
        true)

/-- `yank` flushes its buffer, if there is something in it. -/
def flushYank (lbuf : List Byte) (e : Ed) : Ed := if lbuf = [] then e else (linsert (.str lbuf) e).1

/-- The loop of `yank` over the characters. -/
def yankLoop : Nat → Nat → List Byte → Nat → Ed → KillBuffer →
    Option (Ed × KillBuffer × Nat × Bool)
  | 0, _, _, _, _, _ => none
  | f + 1, i, lbuf, nline, e, k =>
      match k.kremove i with
      | none => none
      | some (none, k) => some (flushYank lbuf e, k, nline, true)
      | some (some ubuf, k) =>
          if ubuf.head? = some newline then
            let (e, status) := lnewline (flushYank lbuf e)
            if status = false then some (e, k, nline, false)
            else yankLoop f (i + 1) [] (nline + 1) e k
          else if lbuf.length + ubuf.length ≥ 80 then
            yankLoop f (i + 1) ubuf nline (linsert (.str lbuf) e).1 k
          else yankLoop f (i + 1) (lbuf ++ ubuf) nline e k

/-- The loop of `yank` over its argument. -/
def yankTimes : Nat → Nat → Ed → KillBuffer → Option (Ed × KillBuffer × Nat × Bool)
  | 0, nline, e, k => some (e, k, nline, true)
  | n + 1, nline, e, k =>
      match yankLoop (k.kchars + 1) 0 [] nline e k with
      | some (e, k, nline, true) => yankTimes n nline e k
      | r => r

/-- The loop of `yank` that looks for the line to go to the top of the window. -/
def frameBack (e : Ed) : Nat → LineId → LineId
  | 0, lp => lp
  | nline + 1, lp => if lp ≠ e.firstline then frameBack e nline (e.lback lp) else lp

/-- `yank` adjusts the framing if the cursor is on the top line. -/
def frameYank (nline : Nat) (e : Ed) : Ed :=
  let lp := e.curwp.w_linep
  if e.dot.p = lp then { e with curwp := { e.curwp with w_linep := frameBack e nline lp } } else e

/-- `yank`. -/
def yank (n : Int) (e : Ed) (k : KillBuffer) : Option (Ed × KillBuffer × Bool) :=
  if n < 0 then some (e, k, false)
  else
    match yankTimes n.toNat 0 e k with
    | none => none
    | some (e, k, nline, true) => some (frameYank nline e, k, true)
    | some (e, k, _, false) => some (e, k, false)

/-- The loop of the prompts over the bytes of the kill buffer, as long as there is room. -/
def pasteLoop : Nat → List Byte → KillBuffer → Option (List Byte × KillBuffer)
  | 0, buf, k => some (buf, k)
  | room + 1, buf, k =>
      match k.kgetc with
      | none => none
      | some (none, k) => some (buf, k)
      | some (some kc, k) =>
          if kc = 13 ∨ kc = newline then some (buf, k) else pasteLoop room (buf ++ [kc]) k

/-- What a prompt does at `C-y`. -/
def promptPaste (room : Nat) (k : KillBuffer) : Option (List Byte × KillBuffer) :=
  pasteLoop room [] k.krewind

end Source

section Commands

open KillBuffer

variable {k : KillBuffer} {e : Ed} {z : Zipper UChar} {cs done ws rest l x : List UChar}
  {lastkill : Bool} {region : REGION}

/-! ### Putting text into the kill buffer -/

theorem Keeps.kinserts {vss : List (List UChar)} (h : k.Keeps cs)
    (hvss : ∀ vs ∈ vss, AllUChars vs) :
    (vss.foldl (fun k vs => k.kinsert vs.flatten) k).Keeps (cs ++ vss.flatten) ∧
      Relation.ReflTransGen Moves (k, .idle)
        (vss.foldl (fun k vs => k.kinsert vs.flatten) k, .idle) := by
  induction vss generalizing k cs with
  | nil =>
      rw [List.flatten_nil, List.append_nil]
      exact ⟨h, .refl⟩
  | cons vs vss ih =>
      have hvs := hvss vs List.mem_cons_self
      obtain ⟨hkeeps, hmoves⟩ := ih (h.kinsert hvs) fun us hus =>
        hvss us (List.mem_cons_of_mem _ hus)
      rw [List.append_assoc] at hkeeps
      exact ⟨hkeeps, .head (.kinsert k vs hvs) hmoves⟩

/-- The loop of `ldelete` deletes as without the kill buffer, and puts what it deletes there. -/
theorem ldeleteIntoLoop_eq (f n : Nat) (h : Shows e z) (hf : n ≤ f) (hn : n ≤ z.right.length)
    (k : KillBuffer) :
    ∃ vss : List (List UChar), (∀ vs ∈ vss, AllUChars vs) ∧ vss.flatten = z.right.take n ∧
      ldeleteIntoLoop f n e k = ((ldeleteLoop f n e).1,
        vss.foldl (fun k vs => k.kinsert vs.flatten) k, (ldeleteLoop f n e).2) := by
  induction f generalizing n e z k with
  | zero =>
      obtain rfl : n = 0 := Nat.le_zero.mp hf
      exact ⟨[], (fun _ hvs => absurd hvs List.not_mem_nil), rfl, rfl⟩
  | succ f ih =>
      cases n with
      | zero => exact ⟨[], (fun _ hvs => absurd hvs List.not_mem_nil), rfl, rfl⟩
      | succ n =>
          obtain ⟨hshows, hchars⟩ := ldeleteStep_shows (n := n + 1) h (by omega)
          obtain ⟨hpos, hle⟩ := deleted_pos e (n := n + 1) (by omega)
          have hdel := deleted_eq h (n + 1)
          obtain ⟨htake, hlen⟩ := take_delete hdel hle hn
          have hwhole : AllUChars (e.deleted (n + 1)) := by
            rw [hdel]
            intro c hc
            refine h.sound.whole c ?_
            rw [← h.text]
            exact List.mem_append_right _ (List.mem_of_mem_take hc)
          rw [ldeleteIntoLoop, ldeleteLoop, if_neg h.ne_header, if_neg h.ne_header,
            killed_eq h (Nat.succ_pos n)]
          generalize e.deleted (n + 1) = d at *
          generalize ldeleteStep (n + 1) e = r at hshows hchars ⊢
          obtain ⟨e', chars⟩ := r
          dsimp only at hshows hchars ⊢
          subst hchars
          obtain ⟨vss, hvss, hflat, heq⟩ := ih (n + 1 - d.length) hshows (by omega) hlen
            (k.kinsert d.flatten)
          refine ⟨d :: vss, ?_, ?_, heq⟩
          · rintro vs hvs
            rcases List.mem_cons.mp hvs with rfl | hvs
            · exact hwhole
            · exact hvss vs hvs
          · rw [List.flatten_cons, hflat, htake]

/-! ### Taking it out again -/

theorem flushYank_shows (h : Shows e ⟨l, x⟩) (hro : e.bfro = false) (hws : Inline ws) :
    Shows (flushYank ws.flatten e) ⟨l ++ ws, x⟩ ∧ (flushYank ws.flatten e).bfro = false := by
  unfold flushYank
  split
  · rename_i hempty
    have hnone : ws = [] := List.eq_nil_iff_forall_not_mem.mpr fun c hc =>
      (hws.whole c hc).ne_nil (List.flatten_eq_nil_iff.mp hempty c hc)
    rw [hnone, List.append_nil]
    exact ⟨h, hro⟩
  · exact ⟨(linsert_shows h hro (spells_str hws)).1, (linsert_bfro ..).trans hro⟩

/-- **The loop of `yank`** inserts what is still to come, after what it has in its buffer. -/
theorem yankLoop_shows (f i nline : Nat) (done ws rest : List UChar) (hk : k.Keeps cs)
    (hcs : cs = done ++ (ws ++ rest)) (hi : i = done.length + ws.length)
    (hready : k.Ready (.yanking i)) (hws : Inline ws) (h : Shows e ⟨l ++ done, x⟩)
    (hro : e.bfro = false) (hf : rest.length < f) :
    ∃ e' k' nline', yankLoop f i ws.flatten nline e k = some (e', k', nline', true) ∧
      Shows e' ⟨l ++ cs, x⟩ ∧ e'.bfro = false ∧ k'.Keeps cs ∧
      Relation.ReflTransGen Moves (k, .yanking i) (k', .yanking 0) := by
  induction f generalizing i done ws rest nline e k with
  | zero => exact absurd hf (Nat.not_lt_zero _)
  | succ f ih =>
      have hlen : cs.length = i + rest.length := by
        rw [hcs, List.length_append, List.length_append, hi, Nat.add_assoc]
      cases rest with
      | nil =>
          rw [List.append_nil] at hcs
          have hend := hk.kremove_end (i := i) hlen.le
          obtain ⟨hshows, hro⟩ := flushYank_shows h hro hws
          rw [List.append_assoc, ← hcs] at hshows
          refine ⟨_, k, nline, ?_, hshows, hro, hk, .single (.again hend)⟩
          rw [yankLoop, hend]
      | cons c rest =>
          rw [List.length_cons] at hf hlen
          have hlt : i < cs.length := by omega
          have hget : cs[i] = c := by
            have hsome : cs[i]? = some c := by
              rw [hcs, hi, List.getElem?_append_right (Nat.le_add_right _ _),
                Nat.add_sub_cancel_left, List.getElem?_append_right (Nat.le_refl _), Nat.sub_self]
              rfl
            exact Option.some.inj ((List.getElem?_eq_getElem hlt).symm.trans hsome)
          obtain ⟨k', hread, hk', hindex, hpoints⟩ := hk.kremove hlt hready.cache
          have hready' : k'.Ready (.yanking (i + 1)) := ⟨hindex, hpoints⟩
          rw [hget] at hread
          have hc : IsUChar c := hk.whole c (by rw [hcs]; simp)
          have hmove : Moves (k, .yanking i) (k', .yanking (i + 1)) := .char hread
          rw [yankLoop, hread]
          dsimp only
          by_cases hnl : c.head? = some newline
          · -- the end of a line
            obtain rfl : c = nl := by
              match c, hc with
              | b :: t, hc =>
                  obtain rfl := Option.some.inj hnl
                  have ht : 1 = t.length + 1 := hc.uclen_eq
                  rw [List.length_eq_zero_iff.mp (Nat.succ.inj ht.symm)]
                  rfl
            obtain ⟨hshows, hro⟩ := flushYank_shows h hro hws
            obtain ⟨hnew, hstatus⟩ := lnewline_shows hshows hro
            have hro' := (lnewline_bfro (flushYank ws.flatten e)).trans hro
            rw [if_pos hnl]
            generalize lnewline (flushYank ws.flatten e) = r at hnew hstatus hro' ⊢
            obtain ⟨e', status⟩ := r
            dsimp only at hnew hstatus hro' ⊢
            rw [hstatus, if_neg (fun heq => nomatch heq)]
            have hleft : l ++ done ++ ws ++ [nl] = l ++ (done ++ ws ++ [nl]) := by
              simp
            change Shows e' ⟨l ++ done ++ ws ++ [nl], x⟩ at hnew
            rw [hleft] at hnew
            obtain ⟨e₁, k₁, nline₁, heq, hs₁, hro₁, hk₁, hmoves⟩ := ih (i + 1) (nline + 1)
              (done ++ ws ++ [nl]) [] rest hk' (by rw [hcs]; simp) (by simp [hi]; omega) hready' .nil
              hnew hro' (by omega)
            exact ⟨e₁, k₁, nline₁, heq, hs₁, hro₁, hk₁, .head hmove hmoves⟩
          · have hinline : Inline [c] := by
              refine ⟨fun d hd => (List.mem_singleton.mp hd) ▸ hc, fun hmem => ?_⟩
              rw [← List.mem_singleton.mp hmem] at hnl
              exact hnl rfl
            rw [if_neg hnl]
            split
            · -- no room for the character
              obtain ⟨hshows, -⟩ := linsert_shows h hro (spells_str hws)
              change Shows _ ⟨l ++ done ++ ws, x⟩ at hshows
              rw [List.append_assoc] at hshows
              obtain ⟨e₁, k₁, nline₁, heq, hs₁, hro₁, hk₁, hmoves⟩ := ih (i + 1) nline (done ++ ws)
                [c] rest hk' (by rw [hcs]; simp) (by simp [hi]) hready' hinline hshows
                ((linsert_bfro ..).trans hro) (by omega)
              rw [List.flatten_singleton] at heq
              exact ⟨e₁, k₁, nline₁, heq, hs₁, hro₁, hk₁, .head hmove hmoves⟩
            · obtain ⟨e₁, k₁, nline₁, heq, hs₁, hro₁, hk₁, hmoves⟩ := ih (i + 1) nline done
                (ws ++ [c]) rest hk' (by rw [hcs]; simp) (by simp [hi, Nat.add_assoc]) hready'
                (hws.append hinline) h hro (by omega)
              rw [List.flatten_append, List.flatten_singleton] at heq
              exact ⟨e₁, k₁, nline₁, heq, hs₁, hro₁, hk₁, .head hmove hmoves⟩

theorem symbols_frameYank (nline : Nat) (e : Ed) : (frameYank nline e).symbols = e.symbols := by
  unfold frameYank
  dsimp only
  split <;> rfl

/-- **`yank`** inserts the kill buffer. -/
theorem yank_shows (hk : k.Keeps cs) (hready : k.Ready .idle) (h : Shows e ⟨l, x⟩)
    (hro : e.bfro = false) :
    ∃ e' k', yank 1 e k = some (e', k', true) ∧ e'.symbols = l ++ cs ++ x ∧
      Relation.ReflTransGen Moves (k, .idle) (k', .idle) := by
  obtain ⟨e', k', nline, heq, hshows, -, -, hmoves⟩ := yankLoop_shows (k.kchars + 1) 0 0 [] [] cs hk
    rfl rfl hready .nil ((List.append_nil l).symm ▸ h) hro
    (by rw [hk.chars]; exact Nat.lt_succ_self _)
  refine ⟨frameYank nline e', k', ?_, ?_, .head (.yank k) (hmoves.tail (.stop k' _))⟩
  · have htimes : yankTimes 1 0 e k = some (e', k', nline, true) := by
      rw [yankTimes]
      rw [List.flatten_nil] at heq
      rw [heq]
      rfl
    unfold yank
    rw [if_neg (by decide)]
    change (match yankTimes 1 0 e k with
      | none => none
      | some (e, k, nline, true) => some (frameYank nline e, k, true)
      | some (e, k, _, false) => some (e, k, false)) = _
    rw [htimes]
  · rw [symbols_frameYank, ← hshows.text]
    rfl

/-- There may be nothing to yank. -/
theorem yank_empty (hk : k.Keeps []) (e : Ed) :
    ∃ e', yank 1 e k = some (e', k, true) ∧ e'.symbols = e.symbols := by
  refine ⟨frameYank 0 e, ?_, symbols_frameYank 0 e⟩
  have hloop : yankLoop (k.kchars + 1) 0 [] 0 e k = some (e, k, 0, true) := by
    rw [yankLoop, hk.kremove_end (Nat.zero_le _)]
    rfl
  have htimes : yankTimes 1 0 e k = some (e, k, 0, true) := by
    rw [yankTimes, hloop]
    rfl
  unfold yank
  rw [if_neg (by decide)]
  change (match yankTimes 1 0 e k with
    | none => none
    | some (e, k, nline, true) => some (frameYank nline e, k, true)
    | some (e, k, _, false) => some (e, k, false)) = _
  rw [htimes]

/-! ### The region -/

/-- The region goes up to the end of the buffer, with the newline there. -/
def Ed.ReachesEnd (e : Ed) (region : REGION) : Prop :=
  e.textIn region ≠ [] ∧ e.textIn region = (e.setDot region.r_pos).after

instance (e : Ed) (region : REGION) : Decidable (e.ReachesEnd region) :=
  inferInstanceAs (Decidable (_ ∧ _))

variable (lastkill) in
/-- **`copyregion`** puts the region into the kill buffer. -/
theorem copyregion_keeps (behind : LineId → Nat → Byte) (hs : Sound e) (hl : Linked e)
    (hdot : Within e e.dot) (hmark : Within e e.curwp.w_mark)
    (hregion : getregion e ⟨⟨null, 0⟩, 0⟩ = (region, none)) (hk : k.Keeps cs) :
    (copyregion behind lastkill e k).1.Keeps ((if lastkill then cs else []) ++ e.textIn region) ∧
      Relation.ReflTransGen Moves (k, .idle) ((copyregion behind lastkill e k).1, .idle) := by
  obtain ⟨as, ps, hr⟩ := holds_of_getregion hl hs.empty hdot hmark hregion
  have hsound : ∀ part ∈ e.regionPieces region, part.Whole e ∧ AllUChars (part.text e) := by
    refine fun part hpart => RegionPart.whole_of_sound hs fun p o n heq => ?_
    rw [heq, Ed.regionPieces, hr.from_] at hpart
    rw [hr.lines]
    exact List.mem_append_right _ (pieces_mem _ _ _ hpart)
  have hparts : (copyregion behind lastkill e k).1 =
      ((e.regionPieces region).map (RegionPart.text e)).foldl (fun k vs => k.kinsert vs.flatten)
        (k.kdelete lastkill) := by
    unfold copyregion
    rw [hregion]
    dsimp only
    rw [← hr.head, walkRegion_eq hl.nodup hl.header hr.lines hr.offset hr.size (Nat.le_refl _),
      List.foldl_map, Ed.regionPieces, hr.from_]
    refine List.foldl_ext _ _ _ fun k part hpart => ?_
    have hmem : part ∈ e.regionPieces region := by
      rw [Ed.regionPieces, hr.from_]
      exact hpart
    obtain ⟨extra, hbytes, hwhole, -⟩ := part.bytes_eq behind (pieces_inLine _ _ _ part hpart)
    rw [hwhole.mpr (hsound part hmem).1, List.append_nil] at hbytes
    rw [← hbytes]
    cases part <;> rfl
  have htexts : ∀ vs ∈ (e.regionPieces region).map (RegionPart.text e), AllUChars vs := by
    intro vs hvs
    obtain ⟨part, hpart, rfl⟩ := List.mem_map.mp hvs
    exact (hsound part hpart).2
  obtain ⟨hkeeps, hmoves⟩ := Keeps.kinserts (hk.kdelete lastkill) htexts
  rw [← List.flatMap_def, hr.text hs.header] at hkeeps
  rw [hparts]
  exact ⟨hkeeps, .head (.kdelete k lastkill) hmoves⟩

/-- A region that is accepted has no negative size. -/
theorem getregion_nonneg {g : REGION} (hl : Linked e) (hdot : Within e e.dot)
    (hmark : Within e e.curwp.w_mark) (hregion : getregion e g = (region, none)) :
    0 ≤ region.r_size := by
  obtain ⟨a, b, -, -, hsmall, hlarge⟩ := getregion_measures e g hl hdot hmark
  by_cases hle : e.passed b - e.passed a ≤ INT_MAX
  · have heq := (Prod.mk.inj (hregion.symm.trans (hsmall hle))).1
    rw [heq]
    exact Int.natCast_nonneg _
  · have hmessage := (hlarge (Nat.lt_of_not_le hle)).2
    rw [hregion] at hmessage
    cases hmessage

/-- What a yank makes of the buffer in which a region was killed: the newline that ends the
buffer cannot be removed, so that it is there twice then. -/
def Ed.restored (e : Ed) (region : REGION) : List UChar :=
  e.symbols ++ if e.ReachesEnd region then [nl] else []

/-- The buffer `e'` is what is left of `e` when the text of a region is killed. -/
structure Ed.Without (e : Ed) (region : REGION) (e' : Ed) : Prop where
  same : e.textIn region = [] → e'.symbols = e.symbols
  part : e.textIn region ≠ [] → ∃ l x, Shows e' ⟨l, x⟩ ∧ e'.bfro = false ∧
    l ++ e.textIn region ++ x = e.restored region

variable (lastkill) in
/-- **`killregion`** puts the region into the kill buffer and removes it. -/
theorem killregion_keeps (hs : Sound e) (hl : Linked e) (hdot : Within e e.dot)
    (hmark : Within e e.curwp.w_mark) (hro : e.bfro = false)
    (hregion : getregion e ⟨⟨null, 0⟩, 0⟩ = (region, none)) (hk : k.Keeps cs) :
    (killregion lastkill false e k).2.1.Keeps
        ((if lastkill then cs else []) ++ e.textIn region) ∧
      Relation.ReflTransGen Moves (k, .idle) ((killregion lastkill false e k).2.1, .idle) ∧
      e.Without region (killregion lastkill false e k).1 := by
  have hsize := getregion_nonneg hl hdot hmark hregion
  obtain ⟨hpos, b, hb, hends⟩ := getregion_ends hl hdot hmark hregion
  obtain ⟨n, hn⟩ := Int.eq_ofNat_of_zero_le hsize
  have htext : e.textIn region = (e.setDot region.r_pos).after.take n := by
    rw [Ed.textIn, hn]
    rfl
  have hro' : ((e.setDot region.r_pos).saveundo .UMOVE (some region.r_pos)).bfro = false :=
    (saveundo_bfro ..).trans hro
  have hkill : killregion lastkill false e k =
      ldeleteIntoLoop n n ((e.setDot region.r_pos).saveundo .UMOVE (some region.r_pos))
        (k.kdelete lastkill) := by
    unfold killregion
    rw [hregion]
    dsimp only
    rw [if_pos rfl, ldeleteInto, hn, if_neg (by omega), setDot_dot, Ed.checkreadonly, hro',
      Bool.not_false, Bool.not_true, if_neg Bool.false_ne_true, Int.toNat_natCast]
  have hmove : Moves (k, .idle) (k.kdelete lastkill, .idle) := .kdelete k lastkill
  rw [hkill]
  by_cases hzero : n = 0
  · subst hzero
    rw [List.take_zero] at htext
    rw [ldeleteIntoLoop, htext, List.append_nil]
    refine ⟨hk.kdelete lastkill, .single hmove, fun _ => ?_, fun hne => absurd htext hne⟩
    rw [Ed.symbols, Ed.symbols, saveundo_lines]
    refine flatMap_row_congr fun q _ => ?_
    rw [saveundo_line]
    rfl
  · have htotal : e.passed b ≤ e.symbols.length := by
      by_cases hmem : b.p ∈ e.lines
      · exact (hs.passed_lt hb hmem).le
      · exact (hs.passed_header hb hmem).2.le
    have hmem : region.r_pos.p ∈ e.lines := by
      by_contra hnot
      have hall := (hs.passed_header hpos hnot).2
      omega
    obtain ⟨l, hat⟩ : ∃ l, Shows (e.setDot region.r_pos) ⟨l, (e.setDot region.r_pos).after⟩ :=
      ⟨_, (hs.setDot region.r_pos).shows_here hmem hpos.2⟩
    have hall : l ++ (e.setDot region.r_pos).after = e.symbols := hat.text
    have hleft : l.length = e.passed region.r_pos := hat.passed
    have hlen := congrArg List.length hall
    rw [List.length_append] at hlen
    have hle : n ≤ (e.setDot region.r_pos).after.length := by omega
    have hsaved := hat.saveundo .UMOVE (some region.r_pos)
    obtain ⟨vss, hvss, hflat, heq⟩ := ldeleteIntoLoop_eq n n hsaved (Nat.le_refl n) hle
      (k.kdelete lastkill)
    obtain ⟨hkeeps, hmoves⟩ := Keeps.kinserts (hk.kdelete lastkill) hvss
    have hflat : vss.flatten = e.textIn region := hflat.trans htext.symm
    rw [heq]
    refine ⟨by rw [← hflat]; exact hkeeps, .head hmove hmoves, fun hnil => ?_, fun hne => ?_⟩
    · have hlen := congrArg List.length (htext.symm.trans hnil)
      rw [List.length_take, List.length_nil] at hlen
      omega
    · have hshows := (ldeleteLoop_shows hsaved n n (Nat.le_refl n)).1
      refine ⟨_, _, hshows, (ldeleteLoop_bfro ..).trans hro', ?_⟩
      rw [Ed.restored, htext, List.append_assoc]
      by_cases hend : (e.setDot region.r_pos).after.take n = (e.setDot region.r_pos).after
      · have hreach : e.ReachesEnd region := ⟨hne, htext.trans hend⟩
        have hlong : (e.setDot region.r_pos).after.length ≤ n := by
          rw [← hend, List.length_take]
          exact Nat.min_le_left _ _
        have hnil : (e.setDot region.r_pos).after ≠ [] := hat.right_ne
        have hlast := symbols_last hall.symm hnil
        obtain ⟨y, hy⟩ := List.getLast?_eq_some_iff.mp hlast
        have hone : y.length = (e.setDot region.r_pos).after.length - 1 := by
          rw [hy, List.length_append, List.length_singleton, Nat.add_sub_cancel]
        have hrest : (e.setDot region.r_pos).after.drop
            (min n ((e.setDot region.r_pos).after.length - 1)) = [nl] := by
          rw [Nat.min_eq_right (by omega), ← hone, hy, List.drop_left]
        change l ++ (_ ++ (e.setDot region.r_pos).after.drop
          (min n ((e.setDot region.r_pos).after.length - 1))) = _
        rw [if_pos hreach, hend, hrest, ← List.append_assoc, hall]
      · have hlt : n < (e.setDot region.r_pos).after.length := by
          by_contra hge
          exact hend (List.take_of_length_le (Nat.le_of_not_lt hge))
        have hreach : ¬ e.ReachesEnd region := fun hboth => hend (htext.symm.trans hboth.2)
        change l ++ (_ ++ (e.setDot region.r_pos).after.drop
          (min n ((e.setDot region.r_pos).after.length - 1))) = _
        rw [if_neg hreach, Nat.min_eq_left (by omega), List.take_append_drop, List.append_nil, hall]

end Commands

/-- What kill and copy leave in the kill buffer: the text of the region, behind what is there
from a kill just before. -/
def Killed (lastkill : Bool) (e : Ed) (k : KillBuffer) (region : REGION) (k' : KillBuffer) : Prop :=
  k'.text = (if lastkill then k.text else []) ++ (e.textIn region).flatten ∧ k'.Reached .idle

/-- **Killing, copying and yanking.**  Whatever was killed, copied, yanked or pasted before, a
kill and a copy leave the region in the kill buffer, and a yank puts it back into the buffer; a
newline that ends the buffer is there twice then.  And the kill buffer is right in every state. -/
theorem kill_yank (behind : LineId → Nat → Byte) (lastkill : Bool) (e : Ed) (k : KillBuffer)
    (region : REGION) (hs : Sound e) (hl : Linked e) (hdot : Within e e.dot)
    (hmark : Within e e.curwp.w_mark) (hro : e.bfro = false)
    (hregion : getregion e ⟨⟨null, 0⟩, 0⟩ = (region, none)) (hk : k.Reached .idle) :
    Killed lastkill e k region (killregion lastkill false e k).2.1 ∧
      Killed lastkill e k region (copyregion behind lastkill e k).1 ∧
      (lastkill = false → ∃ e' k', k'.Reached .idle ∧ e'.symbols = e.restored region ∧
        yank 1 (killregion lastkill false e k).1 (killregion lastkill false e k).2.1 =
          some (e', k', true)) ∧
      ∀ k phase, KillBuffer.Reached k phase → k.kchars = unslen k.text ∧ ∀ i, phase = .yanking i →
        (k.kindex = i → k.PointsAt i) ∧ (k.kremove i).map Prod.fst = some (uchars k.text)[i]? := by
  obtain ⟨⟨cs, hkeeps⟩, hready⟩ := hk.keeps
  obtain ⟨hkilled, hkmoves, hrest⟩ := killregion_keeps lastkill hs hl hdot hmark hro hregion hkeeps
  obtain ⟨hcopied, hcmoves⟩ := copyregion_keeps lastkill behind hs hl hdot hmark hregion hkeeps
  have htext : ∀ k' : KillBuffer, k'.Keeps ((if lastkill then cs else []) ++ e.textIn region) →
      k'.text = (if lastkill then k.text else []) ++ (e.textIn region).flatten := by
    intro k' hk'
    rw [hk'.text, List.flatten_append, hkeeps.text]
    cases lastkill <;> rfl
  refine ⟨⟨htext _ hkilled, hk.trans hkmoves⟩, ⟨htext _ hcopied, hk.trans hcmoves⟩, ?_,
    fun k phase h => h.sound⟩
  rintro rfl
  rw [if_neg Bool.false_ne_true, List.nil_append] at hkilled
  have hreached : KillBuffer.Reached _ .idle := hk.trans hkmoves
  by_cases hnil : e.textIn region = []
  · rw [hnil] at hkilled
    obtain ⟨e', heq, hsymbols⟩ := yank_empty hkilled (killregion false false e k).1
    have hreach : ¬ e.ReachesEnd region := fun h => h.1 hnil
    refine ⟨e', _, hreached, ?_, heq⟩
    rw [hsymbols, hrest.same hnil, Ed.restored, if_neg hreach, List.append_nil]
  · obtain ⟨l, x, hshows, hro', heq⟩ := hrest.part hnil
    obtain ⟨e', k', hyank, hsymbols, hmoves⟩ := yank_shows hkilled hreached.keeps.2 hshows hro'
    exact ⟨e', k', hreached.trans hmoves, hsymbols.trans heq, hyank⟩

/-- Two lines, with the end of the first and the start of the second in the region. -/
def accentRegion : Ed := Ed.holding [[0x61, 0xC3, 0xA9], [0x62, 0x63]] ⟨2, 1⟩ ⟨3, 1⟩

theorem kill_yank_accentRegion :
    Killed false accentRegion .initial ⟨⟨2, 1⟩, 3⟩
        (killregion false false accentRegion .initial).2.1 ∧
      ∃ e' k', e'.symbols = accentRegion.symbols ∧
        yank 1 (killregion false false accentRegion .initial).1
          (killregion false false accentRegion .initial).2.1 = some (e', k', true) := by
  have hwhole : AllUChars ([[0x61], [0xC3, 0xA9]] ++ [[0x62], [0x63]]) := by
    unfold AllUChars
    decide
  have hsound : Sound accentRegion := Ed.sound_holding (by
    intro t ht
    rcases List.mem_cons.mp ht with rfl | ht
    · exact ⟨[[0x61], [0xC3, 0xA9]], ⟨hwhole.left, by decide⟩, rfl⟩
    · rw [List.mem_singleton.mp ht]
      exact ⟨[[0x62], [0x63]], ⟨hwhole.right, by decide⟩, rfl⟩)
  obtain ⟨hkilled, -, hyank, -⟩ := kill_yank (fun _ _ => 0) false accentRegion .initial ⟨⟨2, 1⟩, 3⟩
    hsound (Ed.linked_holding (by decide)) ⟨.inl (by decide), by decide⟩
    ⟨.inl (by decide), by decide⟩ rfl rfl .refl
  obtain ⟨e', k', -, hsymbols, heq⟩ := hyank rfl
  exact ⟨hkilled, e', k', hsymbols, heq⟩

/-- One line, with the whole buffer as the region. -/
def wholeBuffer : Ed := Ed.holding [[0x61]] ⟨2, 0⟩ ⟨1, 0⟩

/-- After a kill of the whole buffer and a yank there is an empty line more. -/
theorem kill_yank_adds_line :
    getregion wholeBuffer ⟨⟨null, 0⟩, 0⟩ = (⟨⟨2, 0⟩, 2⟩, none) ∧
      ∀ e' k', yank 1 (killregion false false wholeBuffer .initial).1
        (killregion false false wholeBuffer .initial).2.1 = some (e', k', true) →
        e'.symbols ≠ wholeBuffer.symbols := by
  refine ⟨rfl, fun e' k' heq => ?_⟩
  have hmap : (yank 1 (killregion false false wholeBuffer .initial).1
      (killregion false false wholeBuffer .initial).2.1).map (fun r => r.1.symbols) =
      some [[0x61], nl, nl] := by decide
  rw [heq] at hmap
  have hsymbols : e'.symbols = [[0x61], nl, nl] := Option.some.inj hmap
  rw [hsymbols]
  decide

end Emacs
