import Zzdwm.Emacs.WindowCounts
import Zzdwm.Lib.Slots

/-!
# The places of tags (`tags.c`)

A jump to a tag remembers where it came from and where it got to, in two arrays that hold the
most recent places.

* `tagjump` — the end of `searchtag`;
* `restoretagtarget` — the next target and the previous one;
* `removetagbuffer` — what `zotbuf` calls for the buffer that goes;
* `tagStep` — one command of the editor;
* `tag_rings_kept` — **no place is lost** before as many newer ones have been pushed as an array
  holds.

The index of the targets and the counts are natural numbers: every decrement of the source stands
behind a test.  The length of a line is a parameter.
-/

namespace Emacs

open Machine Slots Windows

structure TAGORIGIN where
  buffer : BufId
  line : Nat
  offset : Nat
deriving DecidableEq

/-- The windows, and the variables of `tags.c`. -/
structure Tagged where
  windows : Windows
  tagorigins : Nat → TAGORIGIN
  tagorigincount : Nat
  tagtargets : Nat → TAGORIGIN
  tagtargetcount : Nat
  tagtargetindex : Nat

namespace Tagged

variable (s : Tagged)

/-- The origins in use. -/
def origins : List TAGORIGIN := entries s.tagorigins s.tagorigincount

/-- The targets in use. -/
def targets : List TAGORIGIN := entries s.tagtargets s.tagtargetcount

end Tagged

/-! ## Jumps -/

/-- `taglineno`: zero for a line that is not found. -/
def taglineno (b : Buffer) (line : LineId) : Nat :=
  if line ∈ b.lines then b.lines.idxOf line else 0

/-- `currenttaglocation`. -/
def currenttaglocation (s : Windows) : TAGORIGIN where
  buffer := s.curbp
  line := taglineno (s.buffer s.curbp) s.curwp.w_dot.p
  offset := s.curwp.w_dot.o

/-- `pushtagorigin`; the places that are pushed have a buffer and a position. -/
def pushtagorigin (origin : TAGORIGIN) (s : Tagged) : Tagged :=
  let (tagorigins, tagorigincount) := push RINGSIZE s.tagorigins s.tagorigincount origin
  { s with tagorigins := tagorigins, tagorigincount := tagorigincount }

/-- The end of `searchtag`: the place is pushed on the targets.  The index, which goes down with the
elements of a full array, is set to the end in any case. -/
def pushtagtarget (target : TAGORIGIN) (s : Tagged) : Tagged :=
  let (tagtargets, tagtargetcount) := push RINGSIZE s.tagtargets s.tagtargetcount target
  { s with
    tagtargets := tagtargets, tagtargetcount := tagtargetcount, tagtargetindex := tagtargetcount }

section Source

variable (wllength : LineId → Nat)

/-- `gotoline` with a line number. -/
def Windows.gotoline (s : Windows) (n : Int) : Windows × Bool :=
  let b := s.buffer s.curbp
  if n = 0 then
    (s.setCur fun w => { w with
      w_dot := ⟨b.lastline, wllength b.lastline⟩, w_flag := w.w_flag ||| WFHARD }, true)
  else if n < 0 then (s, false)
  else
    match b.lines[n.toNat - 1]? with
    | none => (s, false)
    | some clp =>
        (s.setCur fun w => { w with w_dot := ⟨clp, 0⟩, w_flag := w.w_flag ||| WFMOVE }, true)

/-- The end of `searchtag`, for a tag in line `line` of the file of `io`. -/
def tagjump (name : Option String) (io : ReadIo) (line : Int) (s : Tagged) : Tagged × Bool :=
  let origin := currenttaglocation s.windows
  let (w, visited) := visit_file name io s.windows
  let s := { s with windows := w }
  if !visited then (s, false)
  else
    let s := pushtagorigin origin s
    let (w, found) := s.windows.gotoline wllength line
    let s := { s with windows := w }
    if !found then (s, false) else (pushtagtarget (currenttaglocation s.windows) s, true)

/-! ## Going back to a place -/

/-- `restoretagorigin`: the line, or the last one there is. -/
def restoretagorigin (origin : TAGORIGIN) (s : Windows) : Windows :=
  let b := s.buffer s.curbp
  let line := b.lines.getD (min origin.line (b.lines.length - 1)) b.b_linep
  s.setCur fun w => { w with
    w_dot := ⟨line, min origin.offset (wllength line)⟩, w_flag := w.w_flag ||| WFMOVE }

/-- The loop of `restoretagtarget`.  The index stands between two targets: it is moved over the
target first, and where the buffer of the target is gone, the element behind the index is taken
out.  What is returned is the message of a call that fails. -/
def restoreLoop (forward : Bool) (io : ReadIo) : Nat → Tagged → Tagged × Option String
  | 0, s => (s, some "No tag targets")
  | fuel + 1, s =>
      if s.tagtargetcount = 0 then (s, some "No tag targets")
      else if forward ∧ s.tagtargetcount ≤ s.tagtargetindex then (s, some "No next tag target")
      else if !forward ∧ s.tagtargetindex = 0 then (s, some "No previous tag target")
      else
        let target := s.tagtargets (if forward then s.tagtargetindex else s.tagtargetindex - 1)
        let s := { s with
          tagtargetindex := if forward then s.tagtargetindex + 1 else s.tagtargetindex - 1 }
        if target.buffer ∈ s.windows.bheadp then
          let w := restoretagorigin wllength target (swbuffer target.buffer io s.windows)
          ({ s with windows := w }, none)
        else
          restoreLoop forward io fuel { s with
            tagtargets := shift s.tagtargets s.tagtargetindex (s.tagtargetcount - s.tagtargetindex)
            tagtargetcount := s.tagtargetcount - 1 }

/-- `restoretagtarget`; a round that does not end the loop takes out one target. -/
def restoretagtarget (forward : Bool) (io : ReadIo) (s : Tagged) : Tagged × Option String :=
  restoreLoop wllength forward io (s.tagtargetcount + 1) s

end Source

/-! ## Buffers that go -/

/-- `removetagbuffer`. -/
def removetagbuffer (s : Tagged) (bp : BufId) : Tagged :=
  let gone (x : TAGORIGIN) : Bool := x.buffer = bp
  let (tagorigins, tagorigincount, _) :=
    sweep gone s.tagorigincount 0 s.tagorigins s.tagorigincount 0
  let (tagtargets, tagtargetcount, tagtargetindex) :=
    sweep gone s.tagtargetcount 0 s.tagtargets s.tagtargetcount s.tagtargetindex
  { s with
    tagorigins := tagorigins
    tagorigincount := tagorigincount
    tagtargets := tagtargets
    tagtargetcount := tagtargetcount
    tagtargetindex := tagtargetindex }

/-! ## Commands -/

/-- What the editor does next: a jump to the tag that a search has found, a step through the
targets, or anything else, killing a buffer among it. -/
inductive TagAction
  | findtag (name : Option String) (io : ReadIo) (line : Int)
  | nexttagtarget (n : Int) (io : ReadIo)
  | backtagtarget (n : Int) (io : ReadIo)
  | act (e : Action)

/-- The buffers that an action takes out of the list. -/
def zotted (s t : Windows) : List BufId := s.bheadp.filter (· ∉ t.bheadp)

/-- One action.  `zotbuf` alone takes a buffer out of the list, and it calls `removetagbuffer`. -/
def tagStep (wllength : LineId → Nat) (e : TagAction) (s : Tagged) : Except Crash Tagged :=
  let begun : Tagged := { s with windows := startsaveundo s.windows }
  match e with
  | .findtag name io line => .ok (tagjump wllength name io line begun).1
  | .nexttagtarget n io => .ok (restoretagtarget wllength (0 ≤ n) io begun).1
  | .backtagtarget n io => .ok (restoretagtarget wllength (n < 0) io begun).1
  | .act e => do
      let w ← Emacs.act e s.windows
      return (zotted s.windows w).foldl removetagbuffer { s with windows := w }

/-- The editor, before the first jump. -/
def untagged (w : Windows) : Tagged := ⟨w, fun _ => ⟨0, 0, 0⟩, 0, fun _ => ⟨0, 0, 0⟩, 0, 0⟩

/-! ## Windows in every run -/

/-- The counters are right, and there are not too many windows. -/
def Housed (s : Windows) : Prop :=
  Counted s ∧ (Cramped s ∨ Tiled s ∧ Tall 1 s ∧ s.nrow ≤ NROW)

section Housed

variable {s t : Windows}

theorem Housed.few (h : Housed s) : s.wheadp.length < 256 := by
  rcases h.2 with hcramped | ⟨htiled, htall, hrow⟩
  · exact hcramped.2.2.2.trans_lt (by decide)
  · have hfit := htall.length_le htiled
    rw [NROW] at hrow
    omega

theorem Housed.curbp (h : Housed s) : s.curbp ∈ s.bheadp := h.1.tally.mem _ List.mem_cons_self

/-- What keeps the rows and the counters. -/
theorem Housed.rows (h : Housed s) (hrows : SameRows s t) (ht : Counted t) : Housed t := by
  refine ⟨ht, ?_⟩
  rcases h.2 with ⟨htiled, htall, hrow, hlength⟩ | ⟨htiled, htall, hrow⟩
  · exact Or.inl ⟨hrows.tiled htiled, hrows.tall htall, hrows.nrow ▸ hrow,
      hrows.noMore.length.trans hlength⟩
  · exact Or.inr ⟨hrows.tiled htiled, hrows.tall htall, hrows.nrow ▸ hrow⟩

theorem Housed.calm (h : Housed s) (hc : Calm s t) : Housed t := h.rows hc.rows (h.1.calm hc)

theorem Housed.act (h : Housed s) (e : Action) : Post (act e s) Housed := by
  intro t ht
  refine ⟨act_counted e h.1 h.few t ht, ?_⟩
  rcases h.2 with hcramped | ⟨htiled, htall, hrow⟩
  · exact Or.inl (act_cramped e hcramped t ht)
  · exact Or.inr ⟨act_tiled e htiled t ht, act_tall e (by decide) (by decide) htiled htall t ht,
      (act_nrow e t ht).trans_le hrow⟩

theorem startup_housed {nrow : Int} (hn : 1 ≤ nrow) (hmax : nrow ≤ NROW) (files : List FileArg) :
    Housed (startup nrow files) := by
  refine ⟨startup_counted nrow files, ?_⟩
  obtain ⟨hlength, hrow⟩ := startup_length nrow files
  by_cases hsmall : nrow < 5
  · exact Or.inl ⟨startup_tiled nrow files, startup_low hn files, hrow.trans_lt hsmall, hlength⟩
  · refine Or.inr ⟨startup_tiled nrow files, ?_, hrow.trans_le hmax⟩
    rw [startup_tall]
    split <;> omega

theorem addcur_bheadp (n : Int) (s : Windows) : (addcur n s).bheadp = s.bheadp := by
  rw [addcur_eq]
  rfl

/-- A file is visited in a buffer of the list, or in a new one. -/
theorem visit_file_bheadp (name : Option String) (io : ReadIo) (s : Windows) :
    s.bheadp ⊆ (visit_file name io s).1.bheadp := by
  unfold visit_file
  split
  · exact List.Subset.refl _
  split
  next bp hbp =>
    have hold : (visitOld bp s).bheadp = s.bheadp := by
      have hin : (addcur 1 ((addcur (-1) s).setCur fun w => { w with w_bufp := bp })).bheadp =
          s.bheadp := by
        rw [addcur_bheadp]
        exact addcur_bheadp (-1) s
      unfold visitOld
      dsimp only
      split
      · exact hin
      · exact (calm_lookForOld _ bp).bheadp.trans hin
    exact hold ▸ List.Subset.refl _
  split
  · exact List.Subset.refl _
  next bname =>
    have hnew : (newfile (bfind bname s).1 io (addcur (-1) (bfind bname s).2)).1.bheadp =
        (bfind bname s).2.bheadp := by
      unfold newfile
      rw [(calm_readin _ _ io).bheadp]
      exact addcur_bheadp (-1) _
    have hfind : s.bheadp ⊆ (bfind bname s).2.bheadp := by
      unfold bfind
      split
      · exact List.Subset.refl _
      · exact List.subset_cons_self _ _
    exact hnew ▸ hfind

theorem calm_gotoline (wllength : LineId → Nat) (n : Int) (s : Windows) :
    Calm s (s.gotoline wllength n).1 := by
  unfold Windows.gotoline
  dsimp only
  split
  · dsimp only
    exact Calm.setCur rfl
  split
  · exact Calm.refl s
  split
  · exact Calm.refl s
  · dsimp only
    exact Calm.setCur rfl

theorem calm_restoretagorigin (wllength : LineId → Nat) (origin : TAGORIGIN) (s : Windows) :
    Calm s (restoretagorigin wllength origin s) := by
  unfold restoretagorigin
  exact Calm.setCur rfl

end Housed

/-! ## What the arrays hold -/

/-- The arrays hold places in buffers that are in the list, and no more than they have room for. -/
structure RingsKept (s : Tagged) : Prop where
  housed : Housed s.windows
  index : s.tagtargetindex ≤ s.tagtargetcount
  targetsFit : s.tagtargetcount ≤ RINGSIZE
  originsFit : s.tagorigincount ≤ RINGSIZE
  targets : ∀ x ∈ s.targets, x.buffer ∈ s.windows.bheadp
  origins : ∀ x ∈ s.origins, x.buffer ∈ s.windows.bheadp

/-- What a step does to an array: places in buffers that are gone are taken out, or a place is
pushed. -/
def RingTurns (bufs : List BufId) (l l' : List TAGORIGIN) : Prop :=
  l' = l.filter (·.buffer ∈ bufs) ∨ ∃ y, l' = recent RINGSIZE (l ++ [y])

/-- A place whose buffer is there stays, unless it is the oldest one of a full array and a newer one
is pushed. -/
def Survives (bufs : List BufId) (l l' : List TAGORIGIN) : Prop :=
  ∀ before x after, l = before ++ x :: after → x.buffer ∈ bufs →
    (∃ before' after', l' = before' ++ x :: after') ∨
      before = [] ∧ after.length + 1 = RINGSIZE ∧ ∃ y, l' = after ++ [y]

section RingsKept

variable (wllength : LineId → Nat) {s t : Tagged} {bufs : List BufId} {l l' : List TAGORIGIN}

theorem RingTurns.same (h : ∀ x ∈ l, x.buffer ∈ bufs) : RingTurns bufs l l := by
  refine Or.inl (List.filter_eq_self.mpr fun x hx => ?_).symm
  exact decide_eq_true (h x hx)

theorem RingTurns.survives (hfit : l.length ≤ RINGSIZE) (h : RingTurns bufs l l') :
    Survives bufs l l' := by
  rintro before x after rfl hx
  rcases h with rfl | ⟨y, rfl⟩
  · left
    have hstays : decide (x.buffer ∈ bufs) = true := decide_eq_true hx
    simp only [List.filter_append, List.filter_cons, hstays, if_true]
    exact ⟨_, _, rfl⟩
  · by_cases hfull : (before ++ x :: after).length = RINGSIZE
    · rw [recent_concat hfull (by decide)]
      cases before with
      | nil => exact Or.inr ⟨rfl, by simpa using hfull, y, rfl⟩
      | cons z before => exact Or.inl ⟨before, after ++ [y], by simp⟩
    · left
      rw [recent_of_le]
      · exact ⟨before, after ++ [y], by simp⟩
      · rw [List.length_append, List.length_singleton]
        omega

theorem pushtagorigin_origins (h : s.tagorigincount ≤ RINGSIZE) (origin : TAGORIGIN) :
    (pushtagorigin origin s).origins = recent RINGSIZE (s.origins ++ [origin]) :=
  entries_push h (by decide) s.tagorigins origin

theorem pushtagtarget_targets (h : s.tagtargetcount ≤ RINGSIZE) (target : TAGORIGIN) :
    (pushtagtarget target s).targets = recent RINGSIZE (s.targets ++ [target]) :=
  entries_push h (by decide) s.tagtargets target

theorem mem_recent {n : Nat} {x y : TAGORIGIN} (h : x ∈ recent n (l ++ [y])) : x ∈ l ∨ x = y := by
  have hmem := List.mem_of_mem_drop h
  rwa [List.mem_append, List.mem_singleton] at hmem

/-- The arrays stay as they are, and the list of the buffers loses nothing. -/
theorem RingsKept.windows (h : RingsKept s) {w : Windows} (hw : Housed w)
    (hbufs : s.windows.bheadp ⊆ w.bheadp) : RingsKept { s with windows := w } :=
  ⟨hw, h.index, h.targetsFit, h.originsFit, fun x hx => hbufs (h.targets x hx),
    fun x hx => hbufs (h.origins x hx)⟩

theorem RingsKept.pushtagorigin (h : RingsKept s) {origin : TAGORIGIN}
    (horigin : origin.buffer ∈ s.windows.bheadp) : RingsKept (pushtagorigin origin s) where
  housed := h.housed
  index := h.index
  targetsFit := h.targetsFit
  originsFit := push_count h.originsFit (by decide) s.tagorigins origin
  targets := h.targets
  origins := fun x hx => by
    rw [pushtagorigin_origins h.originsFit] at hx
    rcases mem_recent hx with hx | rfl
    · exact h.origins x hx
    · exact horigin

theorem RingsKept.pushtagtarget (h : RingsKept s) {target : TAGORIGIN}
    (htarget : target.buffer ∈ s.windows.bheadp) : RingsKept (pushtagtarget target s) where
  housed := h.housed
  index := Nat.le_refl _
  targetsFit := push_count h.targetsFit (by decide) s.tagtargets target
  originsFit := h.originsFit
  targets := fun x hx => by
    rw [pushtagtarget_targets h.targetsFit] at hx
    rcases mem_recent hx with hx | rfl
    · exact h.targets x hx
    · exact htarget
  origins := h.origins

/-! ## Steps -/

/-- What the arrays hold after a step. -/
structure RingsTurned (s t : Tagged) : Prop where
  kept : RingsKept t
  targets : RingTurns t.windows.bheadp s.targets t.targets
  origins : RingTurns t.windows.bheadp s.origins t.origins

theorem RingsTurned.windows (h : RingsKept s) {w : Windows} (hw : Housed w)
    (hbufs : s.windows.bheadp ⊆ w.bheadp) : RingsTurned s { s with windows := w } :=
  have hkept := h.windows hw hbufs
  ⟨hkept, RingTurns.same hkept.targets, RingTurns.same hkept.origins⟩

theorem tagjump_turned (h : RingsKept s) (name : Option String) (io : ReadIo) (line : Int) :
    RingsTurned s (tagjump wllength name io line s).1 := by
  have hbufs := visit_file_bheadp name io s.windows
  have hhoused : Housed (visit_file name io s.windows).1 :=
    h.housed.rows (visit_file_rows s.windows io name) (visit_file_counted io h.housed.1 name)
  have hvisit := h.windows hhoused hbufs
  unfold tagjump
  dsimp only
  split
  · exact RingsTurned.windows h hhoused hbufs
  have hfrom : (currenttaglocation s.windows).buffer ∈ (visit_file name io s.windows).1.bheadp :=
    hbufs h.housed.curbp
  have horigin := hvisit.pushtagorigin hfrom
  have hgoto := calm_gotoline wllength line (visit_file name io s.windows).1
  have hline := horigin.windows (w := ((visit_file name io s.windows).1.gotoline wllength line).1)
    (hhoused.calm hgoto) (hgoto.bheadp ▸ List.Subset.refl _)
  have horigins : RingTurns ((visit_file name io s.windows).1.gotoline wllength line).1.bheadp
      s.origins (recent RINGSIZE (s.origins ++ [currenttaglocation s.windows])) := Or.inr ⟨_, rfl⟩
  rw [← pushtagorigin_origins h.originsFit] at horigins
  split
  · exact ⟨hline, RingTurns.same hline.targets, horigins⟩
  · exact ⟨hline.pushtagtarget hline.housed.curbp,
      Or.inr ⟨_, pushtagtarget_targets hline.targetsFit _⟩, horigins⟩

/-- A step through the targets changes the windows and the index at most: the buffer of the target
that it finds is in the list. -/
theorem restoretagtarget_cases (h : RingsKept s) (forward : Bool) (io : ReadIo) :
    ∃ w index message, restoretagtarget wllength forward io s =
        ({ s with windows := w, tagtargetindex := index }, message) ∧
      Housed w ∧ w.bheadp = s.windows.bheadp ∧ index ≤ s.tagtargetcount := by
  unfold restoretagtarget restoreLoop
  split
  · exact ⟨_, _, _, rfl, h.housed, rfl, h.index⟩
  split
  · exact ⟨_, _, _, rfl, h.housed, rfl, h.index⟩
  split
  · exact ⟨_, _, _, rfl, h.housed, rfl, h.index⟩
  next hsome hnext hprevious =>
    set place := if forward then s.tagtargetindex else s.tagtargetindex - 1 with hplace
    have hindex := h.index
    have hrange : place < s.tagtargetcount ∧
        (if forward then s.tagtargetindex + 1 else s.tagtargetindex - 1) ≤ s.tagtargetcount := by
      cases forward with
      | true =>
          simp only [true_and, Nat.not_le] at hnext
          simp only [if_true] at hplace ⊢
          omega
      | false =>
          simp only [Bool.not_false, true_and] at hprevious
          simp only [Bool.false_eq_true, if_false] at hplace ⊢
          omega
    have hmem : s.tagtargets place ∈ s.targets := by
      have hlt : place < s.targets.length := by
        rw [Tagged.targets, length_entries]
        exact hrange.1
      have hget : s.targets[place] = s.tagtargets place := getElem_entries _
      exact hget ▸ List.getElem_mem hlt
    have hbuffer := h.targets _ hmem
    dsimp only
    rw [if_pos hbuffer]
    have hrestored := calm_restoretagorigin wllength (s.tagtargets place)
      (swbuffer (s.tagtargets place).buffer io s.windows)
    have hhoused := h.housed.rows (swbuffer_rows s.windows (s.tagtargets place).buffer io)
      (swbuffer_counted io h.housed.1 hbuffer)
    refine ⟨_, _, _, rfl, hhoused.calm hrestored, ?_, hrange.2⟩
    rw [hrestored.bheadp, swbuffer_eq io h.housed.1 hbuffer, enter_bheadp]
    rfl

/-- **A step through the targets** keeps both arrays. -/
theorem restoretagtarget_kept (h : RingsKept s) (forward : Bool) (io : ReadIo) :
    RingsKept (restoretagtarget wllength forward io s).1 ∧
      (restoretagtarget wllength forward io s).1.targets = s.targets ∧
      (restoretagtarget wllength forward io s).1.origins = s.origins := by
  obtain ⟨w, index, message, heq, hhoused, hbufs, hindex⟩ :=
    restoretagtarget_cases wllength h forward io
  rw [heq]
  exact ⟨⟨hhoused, hindex, h.targetsFit, h.originsFit, fun x hx => hbufs ▸ h.targets x hx,
    fun x hx => hbufs ▸ h.origins x hx⟩, rfl, rfl⟩

theorem removetagbuffer_origins (s : Tagged) (bp : BufId) :
    (removetagbuffer s bp).origins = s.origins.filter (·.buffer ≠ bp) := by
  have hsweep := entries_sweep (p := fun x : TAGORIGIN => decide (x.buffer = bp)) (i := 0)
    (a := s.tagorigins) s.tagorigincount (Nat.le_refl _) (Nat.zero_le _) 0
  rw [List.take_zero, List.nil_append, List.drop_zero] at hsweep
  exact hsweep.trans (List.filter_congr fun x _ => by simp)

theorem removetagbuffer_targets (s : Tagged) (bp : BufId) :
    (removetagbuffer s bp).targets = s.targets.filter (·.buffer ≠ bp) := by
  have hsweep := entries_sweep (p := fun x : TAGORIGIN => decide (x.buffer = bp)) (i := 0)
    (a := s.tagtargets) s.tagtargetcount (Nat.le_refl _) (Nat.zero_le _) s.tagtargetindex
  rw [List.take_zero, List.nil_append, List.drop_zero] at hsweep
  exact hsweep.trans (List.filter_congr fun x _ => by simp)

/-- The buffers are taken out of the arrays one after the other. -/
theorem removetagbuffers (bps : List BufId) (s : Tagged)
    (hindex : s.tagtargetindex ≤ s.tagtargetcount) :
    (bps.foldl removetagbuffer s).origins = s.origins.filter (·.buffer ∉ bps) ∧
      (bps.foldl removetagbuffer s).targets = s.targets.filter (·.buffer ∉ bps) ∧
      (bps.foldl removetagbuffer s).tagtargetindex ≤ (bps.foldl removetagbuffer s).tagtargetcount ∧
      (bps.foldl removetagbuffer s).windows = s.windows := by
  induction bps generalizing s with
  | nil => simp [hindex]
  | cons bp bps ih =>
      have hnext : (removetagbuffer s bp).tagtargetindex ≤ (removetagbuffer s bp).tagtargetcount :=
        sweep_cursor s.tagtargetcount hindex
      obtain ⟨horigins, htargets, hcursor, hwindows⟩ := ih (removetagbuffer s bp) hnext
      have hfilter : ∀ l : List TAGORIGIN, (l.filter (·.buffer ≠ bp)).filter (·.buffer ∉ bps) =
          l.filter (·.buffer ∉ bp :: bps) := by
        intro l
        rw [List.filter_filter]
        refine List.filter_congr fun x _ => ?_
        simp [List.mem_cons, not_or, Bool.and_comm]
      refine ⟨?_, ?_, hcursor, hwindows⟩
      · rw [List.foldl_cons, horigins, removetagbuffer_origins, hfilter]
      · rw [List.foldl_cons, htargets, removetagbuffer_targets, hfilter]

/-- Of the places in the list, those whose buffers stay. -/
theorem filter_zotted {s t : Windows} (h : ∀ x ∈ l, x.buffer ∈ s.bheadp) :
    l.filter (·.buffer ∉ zotted s t) = l.filter (·.buffer ∈ t.bheadp) := by
  refine List.filter_congr fun x hx => ?_
  simp [zotted, h x hx]

theorem act_turned (h : RingsKept s) (e : Action) :
    Post (tagStep wllength (.act e) s) (RingsTurned s) := by
  refine (h.housed.act e).bind fun w hw => (post_pure _).mpr ?_
  obtain ⟨horigins, htargets, hindex, hwindows⟩ :=
    removetagbuffers (zotted s.windows w) { s with windows := w } h.index
  replace horigins := horigins.trans (filter_zotted h.origins)
  replace htargets := htargets.trans (filter_zotted h.targets)
  have hlength : ∀ t : Tagged,
      t.origins.length = t.tagorigincount ∧ t.targets.length = t.tagtargetcount :=
    fun t => ⟨length_entries _ _, length_entries _ _⟩
  refine ⟨⟨?_, hindex, ?_, ?_, ?_, ?_⟩, Or.inl ?_, Or.inl ?_⟩
  · exact hwindows ▸ hw
  · rw [← (hlength _).2, htargets]
    exact (List.length_filter_le _ _).trans ((hlength s).2.trans_le h.targetsFit)
  · rw [← (hlength _).1, horigins]
    exact (List.length_filter_le _ _).trans ((hlength s).1.trans_le h.originsFit)
  · rw [htargets, hwindows]
    exact fun x hx => by simpa using List.of_mem_filter hx
  · rw [horigins, hwindows]
    exact fun x hx => by simpa using List.of_mem_filter hx
  · rw [hwindows]
    exact htargets
  · rw [hwindows]
    exact horigins

/-- **One step** keeps what the arrays hold. -/
theorem tagStep_turned (h : RingsKept s) (e : TagAction) :
    Post (tagStep wllength e s) (RingsTurned s) := by
  have hcalm := calm_startsaveundo s.windows
  have hbegun : RingsKept { s with windows := startsaveundo s.windows } :=
    h.windows (h.housed.calm hcalm) (hcalm.bheadp ▸ List.Subset.refl _)
  have hmove : ∀ forward io, RingsTurned s
      (restoretagtarget wllength forward io { s with windows := startsaveundo s.windows }).1 := by
    intro forward io
    obtain ⟨hkept, htargets, horigins⟩ := restoretagtarget_kept wllength hbegun forward io
    have hsame : ∀ t : Tagged, RingsKept t → t.targets = s.targets → t.origins = s.origins →
        RingsTurned s t := fun t ht htargets horigins =>
      ⟨ht, htargets ▸ RingTurns.same (htargets ▸ ht.targets),
        horigins ▸ RingTurns.same (horigins ▸ ht.origins)⟩
    exact hsame _ hkept htargets horigins
  cases e with
  | findtag name io line =>
      obtain ⟨hkept, htargets, horigins⟩ := tagjump_turned wllength hbegun name io line
      exact (post_ok _).mpr ⟨hkept, htargets, horigins⟩
  | nexttagtarget n io => exact (post_ok _).mpr (hmove _ io)
  | backtagtarget n io => exact (post_ok _).mpr (hmove _ io)
  | act e => exact act_turned wllength h e

end RingsKept

/-- **No place is lost.**  In every run of the editor the index stands between the targets, and
both arrays hold no more than they have room for.  A step through the targets, in either direction,
leaves both arrays as they are.  In every step a target or an origin whose buffer is there stays,
unless it is the oldest of `RINGSIZE` and a newer one is pushed: then as many newer ones have been
pushed. -/
theorem tag_rings_kept (wllength : LineId → Nat) {nrow : Int} (hn : 1 ≤ nrow) (hmax : nrow ≤ NROW)
    (files : List FileArg) {es : List TagAction} {s : Tagged}
    (hrun : Run (tagStep wllength) Any (untagged (startup nrow files)) es s) :
    (s.tagtargetindex ≤ s.tagtargetcount ∧ s.tagtargetcount ≤ RINGSIZE ∧
        s.tagorigincount ≤ RINGSIZE) ∧
      (∀ forward io, (restoretagtarget wllength forward io s).1.targets = s.targets ∧
        (restoretagtarget wllength forward io s).1.origins = s.origins) ∧
      ∀ e t, tagStep wllength e s = .ok t →
        Survives t.windows.bheadp s.targets t.targets ∧
          Survives t.windows.bheadp s.origins t.origins := by
  have hstart : RingsKept (untagged (startup nrow files)) :=
    ⟨startup_housed hn hmax files, Nat.le_refl _, Nat.zero_le _, Nat.zero_le _,
      fun x hx => absurd hx List.not_mem_nil, fun x hx => absurd hx List.not_mem_nil⟩
  have hkept : RingsKept s := hrun.preserves RingsKept
    (fun e s t hs _ hstep => (tagStep_turned wllength hs e t hstep).kept) hstart
  refine ⟨⟨hkept.index, hkept.targetsFit, hkept.originsFit⟩, fun forward io => ?_,
    fun e t hstep => ?_⟩
  · exact (restoretagtarget_kept wllength hkept forward io).2
  · have hturned := tagStep_turned wllength hkept e t hstep
    refine ⟨hturned.targets.survives ?_, hturned.origins.survives ?_⟩
    · exact (length_entries _ _).trans_le hkept.targetsFit
    · exact (length_entries _ _).trans_le hkept.originsFit

/-- A file of two lines. -/
def twoLineFile : ReadIo := ⟨true, true, "a.c", .lines 2 true false⟩

/-- A jump into the file, and a step back to where it went. -/
def jumpAndBack : List TagAction :=
  [.findtag (some "a.c") twoLineFile 2, .backtagtarget 1 twoLineFile]

theorem tag_rings_kept_jump :
    ∃ s, Run (tagStep fun _ => 0) Any (untagged (startup 24 [])) jumpAndBack s ∧
      s.tagtargetindex ≤ s.tagtargetcount := by
  obtain ⟨s, hrun⟩ : ∃ s, Run (tagStep fun _ => 0) Any (untagged (startup 24 [])) jumpAndBack s :=
    ⟨_, Run.cons trivial rfl (Run.cons trivial rfl (Run.nil _))⟩
  exact ⟨s, hrun, (tag_rings_kept (fun _ => 0) (by decide) (by decide) [] hrun).1.1⟩

end Emacs
