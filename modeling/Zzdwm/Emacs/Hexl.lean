import Zzdwm.Emacs.HexlLine

/-!
# Hex dumps (`hexl.c`)

A dump holds a file as dump lines.  Its layout can be changed, which rewrites
every line, and it is saved by reading the bytes back out of the lines.

* `hexlfill`, `hexlchange`, `hexlsetgroup`, `hexlsetendian`, `hexlsave` — the
  commands;
* `Dumps file bp` — the lines of the buffer are a dump of the file;
* `dump_saves_file` — **every sequence of layout changes** leaves a dump of the
  file, and saving writes the file.

The undo history, the pending nibble and the positions of the windows, which
the layout commands reset, are left out here.
-/

namespace Emacs

/-- The biggest file that is dumped. -/
def HEXLLIMIT : Nat := 8 * 1024 * 1024

/-- What `hexl.c` uses of a `BUFFER`: the texts of its lines, the flags
`BFHEXL`, `BFCHG` and `BFBAK`, the file name and the layout. -/
structure Dump where
  lines : List (List Byte)
  bfhexl : Bool
  bfchg : Bool
  bfbak : Bool
  b_fname : String
  b_hexl : HexlLayout

/-- The current buffer, the layout that new dumps take, and what the file of the
buffer holds. -/
structure Hexl where
  curbp : Dump
  hexldef : HexlLayout
  disk : List Byte

/-- The reads of `hexlfill`. -/
def freads : Nat → List Byte → List (List Byte)
  | 0, _ => []
  | f + 1, file =>
      if file.take HEXLBYTES = [] then []
      else file.take HEXLBYTES :: freads f (file.drop HEXLBYTES)

/-- Dump lines one after the other. -/
def hexlmakelines (l : HexlLayout) : Nat → List (List Byte) → List (List Byte)
  | _, [] => []
  | offset, bytes :: rest =>
      hexlmakeline offset bytes l :: hexlmakelines l (offset + bytes.length) rest

/-- `hexlfill`.  `bclear` has left an empty line, and the dump goes in front of
it. -/
def hexlfill (fname : String) (file : List Byte) (s : Hexl) : Option Hexl :=
  if fname = "" then none
  else if file.length > HEXLLIMIT then none
  else some { s with
    curbp := {
      lines := hexlmakelines s.hexldef 0 (freads (file.length + 1) file) ++ [[]]
      bfhexl := true
      bfchg := false
      bfbak := true
      b_fname := fname
      b_hexl := s.hexldef }
    disk := file }

/-- The lines up to an empty one at the end. -/
def dumpLines : List (List Byte) → List (List Byte)
  | [] => []
  | [line] => if line = [] then [] else [line]
  | line :: next :: rest => line :: dumpLines (next :: rest)

/-- The bytes of all dump lines, `none` if one of them is not a dump line. -/
def Dump.parse (bp : Dump) : Option (List (List Byte)) :=
  (dumpLines bp.lines).mapM fun line => hexlparseline line bp.b_hexl

/-- `hexlchange`. -/
def hexlchange (l : HexlLayout) (s : Hexl) : Hexl × Bool :=
  let bp := s.curbp
  if !bp.bfhexl then (s, false)
  else
    match bp.parse with
    | none => (s, false)
    | some bytes =>
        let lines := hexlmakelines l 0 bytes ++ bp.lines.drop bytes.length
        ({ s with curbp := { bp with lines := lines, b_hexl := l } }, true)

/-- Where `hexlsetgroup` has its size from: a prefix argument, or an answer
(`atoi` of it), if there is one. -/
inductive GroupArg
  | number (n : Int)
  | reply (n : Int)
  | noreply (status : Bool)

/-- Groups of another size, packed. -/
def HexlLayout.setGroup (l : HexlLayout) (g : Nat) (h : g ∈ groupSizes) : HexlLayout :=
  { l with group := g, packed := true, size := h, gnu := fun h => by cases h }

/-- The branch of `hexlsetgroup` for a size it has got. -/
def setgroup (group : Nat) (s : Hexl) : Hexl × Bool :=
  if h : group ∈ groupSizes then
    let s := { s with hexldef := s.hexldef.setGroup group h }
    let l := s.curbp.b_hexl
    if !s.curbp.bfhexl || (group = l.group && l.packed) then (s, true)
    else hexlchange (l.setGroup group h) s
  else (s, false)

/-- `hexlsetgroup`. -/
def hexlsetgroup (a : GroupArg) (s : Hexl) : Hexl × Bool :=
  match a with
  | .number n => setgroup n.natAbs s
  | .reply n => setgroup n.toNat s
  | .noreply status => (s, status)

/-- What `hexlsetendian` does with the byte order it has decided on. -/
def setendian (endian : Bool) (s : Hexl) : Hexl × Bool :=
  let s := { s with hexldef := { s.hexldef with endian := endian } }
  let l := s.curbp.b_hexl
  if !s.curbp.bfhexl || endian = l.endian then (s, true)
  else hexlchange { l with endian := endian } s

/-- `hexlsetendian`, with the prefix argument if there is one. -/
def hexlsetendian (f : Option Int) (s : Hexl) : Hexl × Bool :=
  match f with
  | some n => setendian (n ≠ 0) s
  | none =>
      if s.curbp.bfhexl then setendian (!s.curbp.b_hexl.endian) s
      else setendian (!s.hexldef.endian) s

/-- What happens around `hexlsave`: the `bflag` of the editor, how the backup
goes (`none` is a hard error), whether the user saves without one, whether the
file opens, and how many bytes can be written before an error. -/
structure SaveIo where
  bflag : Bool
  backup : Option Bool
  anyway : Bool
  opens : Bool
  room : Option Nat

/-- The second loop of `hexlsave`: a line that does not parse writes nothing. -/
def hexlwrites (bp : Dump) : List Byte :=
  bp.lines.flatMap fun line => (hexlparseline line bp.b_hexl).getD []

/-- The backup keeps `hexlsave` from saving. -/
def SaveIo.stops (io : SaveIo) (bp : Dump) : Bool :=
  io.bflag && bp.bfbak && (io.backup = none || io.backup = some false && !io.anyway)

/-- `fopen`, the writes and `fclose`: what the file holds then, and whether all
went well. -/
def SaveIo.write (io : SaveIo) (out disk : List Byte) : List Byte × Bool :=
  if !io.opens then (disk, false)
  else
    match io.room with
    | some n => if n < out.length then (out.take n, false) else (out, true)
    | none => (out, true)

/-- `hexlsave`. -/
def hexlsave (io : SaveIo) (s : Hexl) : Hexl × Bool :=
  let bp := s.curbp
  if !bp.bfhexl then (s, false)
  else if !bp.bfchg then (s, true)
  else if bp.b_fname = "" then (s, false)
  else if io.stops bp then (s, false)
  else if bp.parse = none then (s, false)
  else
    let (disk, ok) := io.write (hexlwrites bp) s.disk
    if ok then ({ s with curbp := { bp with bfchg := false, bfbak := false }, disk := disk }, true)
    else ({ s with disk := disk }, false)

/-- The layout commands. -/
inductive LayoutCmd
  | hexlsetgroup (a : GroupArg)
  | hexlsetendian (f : Option Int)

def LayoutCmd.run : LayoutCmd → Hexl → Hexl × Bool
  | .hexlsetgroup a => Emacs.hexlsetgroup a
  | .hexlsetendian f => Emacs.hexlsetendian f

/-- A sequence of layout commands. -/
def relayout (cs : List LayoutCmd) (s : Hexl) : Hexl := cs.foldl (fun s c => (c.run s).1) s

/-! ## Dumps of a file -/

/-- **The lines of the buffer are a dump of the file**: each of them stands for at
most sixteen of its bytes. -/
structure Dumps (file : List Byte) (bp : Dump) : Prop where
  hexl : bp.bfhexl = true
  lines : ∃ chunks : List (List Byte), chunks.flatten = file ∧
    (∀ bytes ∈ chunks, bytes.length ≤ HEXLBYTES) ∧
    bp.lines = hexlmakelines bp.b_hexl 0 chunks ++ [[]]

variable {file : List Byte} {s : Hexl} {bp : Dump} {l : HexlLayout}

theorem freads_flatten (f : Nat) (file : List Byte) (hf : file.length < f) :
    (freads f file).flatten = file ∧ ∀ bytes ∈ freads f file, bytes.length ≤ HEXLBYTES := by
  induction f generalizing file with
  | zero => omega
  | succ f ih =>
      rw [freads]
      split
      · rename_i hend
        have hnil : file = [] := by
          cases file with
          | nil => rfl
          | cons b file => cases hend
        rw [hnil]
        exact ⟨rfl, fun bytes hb => by cases hb⟩
      · rename_i hgot
        have hpos : 0 < file.length := by
          apply Nat.pos_of_ne_zero
          intro h
          rw [List.length_eq_zero_iff] at h
          exact hgot (by rw [h]; rfl)
        have hdrop : (file.drop HEXLBYTES).length < f := by
          rw [List.length_drop, HEXLBYTES]
          omega
        obtain ⟨hflat, hlen⟩ := ih _ hdrop
        refine ⟨?_, fun bytes hb => ?_⟩
        · rw [List.flatten_cons, hflat, List.take_append_drop]
        · rcases List.mem_cons.mp hb with h | h
          · rw [h, List.length_take]
            exact Nat.min_le_left ..
          · exact hlen bytes h

theorem dumpLines_append (lines : List (List Byte)) : dumpLines (lines ++ [[]]) = lines := by
  induction lines with
  | nil => rfl
  | cons line lines ih =>
      cases lines with
      | nil => rfl
      | cons next rest =>
          change line :: dumpLines (next :: rest ++ [[]]) = _
          rw [ih]

theorem parse_hexlmakelines (l : HexlLayout) (chunks : List (List Byte)) (offset : Nat)
    (hlen : ∀ bytes ∈ chunks, bytes.length ≤ HEXLBYTES) :
    (hexlmakelines l offset chunks).mapM (fun line => hexlparseline line l) = some chunks := by
  induction chunks generalizing offset with
  | nil => rfl
  | cons bytes chunks ih =>
      have hrest := ih (offset + bytes.length) fun b hb => hlen b (List.mem_cons_of_mem _ hb)
      rw [hexlmakelines, List.mapM_cons,
        hexlparseline_hexlmakeline offset l (hlen bytes List.mem_cons_self), hrest]
      rfl

theorem length_hexlmakelines (l : HexlLayout) (offset : Nat) (chunks : List (List Byte)) :
    (hexlmakelines l offset chunks).length = chunks.length := by
  induction chunks generalizing offset with
  | nil => rfl
  | cons bytes chunks ih => rw [hexlmakelines, List.length_cons, ih, List.length_cons]

/-- **Parsing a dump** gives back the file. -/
theorem Dumps.parse (h : Dumps file bp) :
    ∃ chunks, bp.parse = some chunks ∧ chunks.flatten = file ∧
      (∀ bytes ∈ chunks, bytes.length ≤ HEXLBYTES) ∧
      bp.lines = hexlmakelines bp.b_hexl 0 chunks ++ [[]] := by
  obtain ⟨chunks, hflat, hlen, hlines⟩ := h.lines
  refine ⟨chunks, ?_, hflat, hlen, hlines⟩
  rw [Dump.parse, hlines, dumpLines_append]
  exact parse_hexlmakelines _ _ _ hlen

theorem Dumps.hexlchange (h : Dumps file s.curbp) (l : HexlLayout) :
    Dumps file (hexlchange l s).1.curbp := by
  obtain ⟨chunks, hparse, hflat, hlen, hlines⟩ := h.parse
  have hdrop : s.curbp.lines.drop chunks.length = [[]] := by
    rw [hlines, List.drop_append_of_le_length (Nat.le_of_eq (length_hexlmakelines ..).symm),
      List.drop_of_length_le (Nat.le_of_eq (length_hexlmakelines ..))]
    rfl
  have hchange : Emacs.hexlchange l s = ({ s with curbp := { s.curbp with
      lines := hexlmakelines l 0 chunks ++ [[]], b_hexl := l } }, true) := by
    simp [Emacs.hexlchange, h.hexl, hparse, hdrop]
  rw [hchange]
  exact ⟨h.hexl, chunks, hflat, hlen, rfl⟩

/-- The layout that new dumps take is no part of a dump. -/
theorem Dumps.hexlchange_def (h : Dumps file s.curbp) (l d : HexlLayout) :
    Dumps file (Emacs.hexlchange l { s with hexldef := d }).1.curbp :=
  Dumps.hexlchange (s := { s with hexldef := d }) h l

theorem Dumps.setgroup (h : Dumps file s.curbp) (group : Nat) :
    Dumps file (setgroup group s).1.curbp := by
  unfold Emacs.setgroup
  split
  · dsimp only
    split
    · exact h
    · exact h.hexlchange_def _ _
  · exact h

theorem Dumps.setendian (h : Dumps file s.curbp) (endian : Bool) :
    Dumps file (setendian endian s).1.curbp := by
  unfold Emacs.setendian
  dsimp only
  split
  · exact h
  · exact h.hexlchange_def _ _

/-- **One layout command.** -/
theorem Dumps.run (h : Dumps file s.curbp) (c : LayoutCmd) : Dumps file (c.run s).1.curbp := by
  cases c with
  | hexlsetgroup a =>
      cases a with
      | number n => exact h.setgroup n.natAbs
      | reply n => exact h.setgroup n.toNat
      | noreply status => exact h
  | hexlsetendian f =>
      unfold LayoutCmd.run hexlsetendian
      dsimp only
      split
      · exact h.setendian _
      · split
        · exact h.setendian _
        · exact h.setendian _

theorem Dumps.relayout (h : Dumps file s.curbp) (cs : List LayoutCmd) :
    Dumps file (relayout cs s).curbp := by
  induction cs generalizing s with
  | nil => exact h
  | cons c cs ih => exact ih (h.run c)

/-- The layout commands do not touch the file, its name, or the flag that tells
of edits. -/
structure Relaid (s t : Hexl) : Prop where
  disk : t.disk = s.disk
  b_fname : t.curbp.b_fname = s.curbp.b_fname
  bfchg : t.curbp.bfchg = s.curbp.bfchg

theorem relaid_hexlchange (l d : HexlLayout) (s : Hexl) :
    Relaid s (hexlchange l { s with hexldef := d }).1 := by
  unfold hexlchange
  dsimp only
  split
  · exact ⟨rfl, rfl, rfl⟩
  · split
    · exact ⟨rfl, rfl, rfl⟩
    · exact ⟨rfl, rfl, rfl⟩

theorem relaid_setgroup (group : Nat) (s : Hexl) : Relaid s (setgroup group s).1 := by
  unfold setgroup
  split
  · dsimp only
    split
    · exact ⟨rfl, rfl, rfl⟩
    · exact relaid_hexlchange _ _ s
  · exact ⟨rfl, rfl, rfl⟩

theorem relaid_setendian (endian : Bool) (s : Hexl) : Relaid s (setendian endian s).1 := by
  unfold setendian
  dsimp only
  split
  · exact ⟨rfl, rfl, rfl⟩
  · exact relaid_hexlchange _ _ s

theorem relaid_run (c : LayoutCmd) (s : Hexl) : Relaid s (c.run s).1 := by
  cases c with
  | hexlsetgroup a =>
      cases a with
      | number n => exact relaid_setgroup n.natAbs s
      | reply n => exact relaid_setgroup n.toNat s
      | noreply status => exact ⟨rfl, rfl, rfl⟩
  | hexlsetendian f =>
      unfold LayoutCmd.run hexlsetendian
      dsimp only
      split
      · exact relaid_setendian _ s
      · split
        · exact relaid_setendian _ s
        · exact relaid_setendian _ s

theorem relaid_relayout (cs : List LayoutCmd) (s : Hexl) : Relaid s (relayout cs s) := by
  induction cs generalizing s with
  | nil => exact ⟨rfl, rfl, rfl⟩
  | cons c cs ih =>
      have hrun := relaid_run c s
      have hrest := ih (c.run s).1
      exact ⟨hrest.disk.trans hrun.disk, hrest.b_fname.trans hrun.b_fname,
        hrest.bfchg.trans hrun.bfchg⟩

/-- What `hexlsave` writes. -/
theorem Dumps.hexlwrites (h : Dumps file bp) : hexlwrites bp = file := by
  have hnone : hexlparseline [] bp.b_hexl = none := rfl
  have hall : ∀ (chunks : List (List Byte)) (offset : Nat),
      (∀ bytes ∈ chunks, bytes.length ≤ HEXLBYTES) →
      (hexlmakelines bp.b_hexl offset chunks).flatMap (fun line =>
        (hexlparseline line bp.b_hexl).getD []) = chunks.flatten := by
    intro chunks
    induction chunks with
    | nil => exact fun _ _ => rfl
    | cons bytes chunks ih =>
        intro offset hlen
        rw [hexlmakelines, List.flatMap_cons,
          hexlparseline_hexlmakeline offset _ (hlen bytes List.mem_cons_self),
          ih _ fun b hb => hlen b (List.mem_cons_of_mem _ hb)]
        rfl
  obtain ⟨chunks, -, hflat, hlen, hlines⟩ := h.parse
  unfold Emacs.hexlwrites
  rw [hlines, List.flatMap_append, hall chunks 0 hlen, hflat, List.flatMap_cons, hnone]
  exact List.append_nil file

theorem SaveIo.write_ok {io : SaveIo} {out disk : List Byte}
    (h : (io.write out disk).2 = true) : (io.write out disk).1 = out := by
  obtain ⟨bflag, backup, anyway, opens, room⟩ := io
  cases opens with
  | false => cases h
  | true =>
      cases room with
      | none => rfl
      | some n =>
          by_cases hn : n < out.length
          · simp [SaveIo.write, hn] at h
          · simp [SaveIo.write, hn]

/-- `hexlsave` on a dump that has changed. -/
theorem Dumps.hexlsave_eq (h : Dumps file s.curbp) (hchg : s.curbp.bfchg = true) (io : SaveIo) :
    hexlsave io s =
      if s.curbp.b_fname = "" ∨ io.stops s.curbp = true then (s, false)
      else if (io.write file s.disk).2 = true then
        ({ s with curbp := { s.curbp with bfchg := false, bfbak := false },
                  disk := (io.write file s.disk).1 }, true)
      else ({ s with disk := (io.write file s.disk).1 }, false) := by
  obtain ⟨chunks, hparse, -⟩ := h.parse
  unfold hexlsave
  dsimp only
  rw [h.hexl, hchg, hparse, h.hexlwrites]
  by_cases hname : s.curbp.b_fname = ""
  · simp [hname]
  · cases hstop : io.stops s.curbp with
    | true => simp [hname]
    | false => simp [hname]

theorem Dumps.hexlsave_spec (h : Dumps file s.curbp) (hchg : s.curbp.bfchg = true)
    (hname : s.curbp.b_fname ≠ "") (io : SaveIo) :
    ((hexlsave io s).2 = true → (hexlsave io s).1.disk = file) ∧
      (io.stops s.curbp = false → io.opens = true → io.room = none →
        (hexlsave io s).2 = true) := by
  rw [h.hexlsave_eq hchg io]
  refine ⟨fun hok => ?_, fun hstop hopens hroom => ?_⟩
  · by_cases hstop : s.curbp.b_fname = "" ∨ io.stops s.curbp = true
    · rw [if_pos hstop] at hok
      cases hok
    · rw [if_neg hstop] at hok ⊢
      by_cases hwrite : (io.write file s.disk).2 = true
      · rw [if_pos hwrite]
        exact SaveIo.write_ok hwrite
      · rw [if_neg hwrite] at hok
        cases hok
  · have hwrite : (io.write file s.disk).2 = true := by simp [SaveIo.write, hopens, hroom]
    rw [if_neg (by simp [hname, hstop]), if_pos hwrite]

/-- A file that is not too big gets a dump. -/
theorem hexlfill_spec {fname : String} (hname : fname ≠ "") (file : List Byte)
    (hlen : file.length ≤ HEXLLIMIT) (s₀ : Hexl) :
    ∃ s, hexlfill fname file s₀ = some s ∧ Dumps file s.curbp ∧ s.curbp.bfchg = false ∧
      s.curbp.b_fname = fname ∧ s.disk = file := by
  obtain ⟨hflat, hchunk⟩ := freads_flatten (file.length + 1) file (Nat.lt_succ_self _)
  unfold hexlfill
  rw [if_neg hname, if_neg (Nat.not_lt.mpr hlen)]
  exact ⟨_, rfl, ⟨rfl, _, hflat, hchunk, rfl⟩, rfl, rfl, rfl⟩

/-- The dump counts as edited, and the file may hold anything. -/
def Hexl.touched (s : Hexl) (disk : List Byte) : Hexl :=
  { s with curbp := { s.curbp with bfchg := true }, disk := disk }

/-- **Dumps save their file.**  A dump that was made of a file and whose layout
was changed any number of times parses to the bytes of the file, and `hexlsave`
leaves them in the file: it has nothing to write if the dump has not been
edited, and if it has been, it writes them whenever no backup, no `fopen` and no
write fails. -/
theorem dump_saves_file {f : String} (hname : f ≠ "") (file : List Byte)
    (hlen : file.length ≤ HEXLLIMIT) (s₀ : Hexl) (cs : List LayoutCmd) :
    ∃ s, hexlfill f file s₀ = some s ∧
      (∃ chunks, (relayout cs s).curbp.parse = some chunks ∧ chunks.flatten = file) ∧
      (∀ io, (hexlsave io (relayout cs s)).1.disk = file) ∧
      ∀ (disk : List Byte) (io : SaveIo),
        let t := (relayout cs s).touched disk
        ((hexlsave io t).2 = true → (hexlsave io t).1.disk = file) ∧
        (io.stops t.curbp = false → io.opens = true → io.room = none →
          (hexlsave io t).2 = true) := by
  obtain ⟨s, hfill, hdump, hclean, hs_name, hdisk⟩ := hexlfill_spec hname file hlen s₀
  refine ⟨s, hfill, ?_⟩
  have hdump' := hdump.relayout cs
  have hrelaid := relaid_relayout cs s
  generalize relayout cs s = u at hdump' hrelaid ⊢
  obtain ⟨chunks, hparse, hchunks, -⟩ := hdump'.parse
  refine ⟨⟨chunks, hparse, hchunks⟩, fun io => ?_, fun disk io => ?_⟩
  · have hunchanged : hexlsave io u = (u, true) := by
      simp [hexlsave, hdump'.hexl, hrelaid.bfchg, hclean]
    rw [hunchanged]
    exact hrelaid.disk.trans hdisk
  · have htdump : Dumps file (u.touched disk).curbp := ⟨hdump'.hexl, hdump'.lines⟩
    have htname : (u.touched disk).curbp.b_fname ≠ "" := fun h =>
      hname ((hs_name.symm.trans hrelaid.b_fname.symm).trans h)
    exact htdump.hexlsave_spec rfl htname io

/-- The state `hexl.c` starts in: new dumps take the GNU layout. -/
def Hexl.start : Hexl where
  curbp := ⟨[[]], false, false, false, "", ⟨HEXLDEFGROUP, false, false, by decide, fun _ => rfl⟩⟩
  hexldef := ⟨HEXLDEFGROUP, false, false, by decide, fun _ => rfl⟩
  disk := []

/-- Three bytes, shown as words and then in the other order. -/
theorem dump_saves_file_words : ∃ s, hexlfill "a" [7, 8, 255] Hexl.start = some s ∧
    ∃ chunks, (relayout [.hexlsetgroup (.number 2), .hexlsetendian none] s).curbp.parse =
      some chunks ∧ chunks.flatten = [7, 8, 255] := by
  obtain ⟨s, hfill, hparse, -⟩ := dump_saves_file (f := "a") (by decide) [7, 8, 255]
    (by decide) Hexl.start
    [.hexlsetgroup (.number 2), .hexlsetendian none]
  exact ⟨s, hfill, hparse⟩

end Emacs
