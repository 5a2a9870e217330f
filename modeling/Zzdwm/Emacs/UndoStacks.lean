import Zzdwm.Emacs.WindowCounts

/-!
# Undo stacks that are not there

`startsaveundo` allocates the undo stack of the buffer that is current when a
command starts.  `killundo` and `setundochanged` follow the pointer without a look:
`killbuffer` may get at a buffer that has never been current, and saving at one
whose stack a layout change has freed.

* `Safe` — a computation does not read through an empty `b_undo`;
* `StackThere` — the condition on an action and the state that it meets;
* `stackThere_iff` — in every state of every run it says exactly when.
-/

namespace Emacs

open Machine Windows

/-- The computation does not read through an empty `b_undo`. -/
def Safe {A : Type} (x : Except Crash A) : Prop := x ≠ .error .noUndo

@[simp] theorem safe_ok {A : Type} (a : A) : Safe (.ok a) := nofun

@[simp] theorem safe_pure {A : Type} (a : A) : Safe (pure a) := safe_ok a

/-- There is only one way to crash. -/
theorem Safe.exists_ok {A : Type} {x : Except Crash A} (h : Safe x) : ∃ a, x = .ok a := by
  cases x with
  | error f =>
      cases f
      exact absurd rfl h
  | ok a => exact ⟨a, rfl⟩

/-- A sequence is safe if its first part is, and then its second. -/
theorem safe_bind_iff {A B : Type} {x : Except Crash A} {k : A → Except Crash B} :
    Safe (x >>= k) ↔ Safe x ∧ ∀ a, x = .ok a → Safe (k a) := by
  cases x with
  | error f => exact ⟨fun h => absurd (by cases f; rfl) h, fun h => absurd (by cases f; rfl) h.1⟩
  | ok a =>
      refine ⟨fun h => ⟨safe_ok a, fun b hb => ?_⟩, fun h => h.2 a rfl⟩
      cases hb
      exact h

/-- A sequence is safe exactly if its first part is, when the rest always is. -/
theorem safe_bind {A B : Type} {x : Except Crash A} {k : A → Except Crash B}
    (hk : ∀ a, Safe (k a)) : Safe (x >>= k) ↔ Safe x :=
  safe_bind_iff.trans (and_iff_left fun a _ => hk a)

/-! ## The condition -/

/-- Saving the buffer reads its undo stack. -/
def Buffer.savesUndo (o : SaveOutcome) (b : Buffer) : Prop :=
  b.bfchg = true ∧ b.b_fname ≠ "" ∧ o.stops = false ∧ (b.bfhexl = true → o.written = true)

/-- A tour through buffers that saves them finds their stacks; `has` tells which are
there. -/
def TourHas (ask : BufId → Option Bool) (o : BufId → SaveOutcome) (s : Windows)
    (has : BufId → Prop) : List BufId → Prop
  | [] => True
  | bp :: bs =>
      if (s.buffer bp).bfchg = false ∨ (s.buffer bp).b_fname = "" then TourHas ask o s has bs
      else
        match ask bp with
        | none => True
        | some false => TourHas ask o s has bs
        | some true =>
            ((s.buffer bp).savesUndo (o bp) → has bp) ∧
              ((o bp).stops = false → (o bp).written = true → TourHas ask o s has bs)

/-- A buffer that a key finds with a stack: the current one gets one. -/
def HasStack (s : Windows) (bp : BufId) : Prop := (s.buffer bp).b_undo = true ∨ bp = s.curbp

/-- The stacks that the action reads are there. -/
def StackThere (e : Action) (s : Windows) : Prop :=
  match e with
  | .key (.killbuffer (some bname) discard _) =>
      ∀ bp, findbuf bname s = some bp → (s.buffer bp).b_nwnd = 0 →
        ((s.buffer bp).bfchg = true → discard = true) → HasStack s bp
  | .key (.filesaveall ask o) => TourHas ask o s (HasStack s) s.bheadp
  | .key (.quickexit o) => TourHas (fun _ => some true) o s (HasStack s) s.bheadp
  | .call (.savebuffer o) => (s.buffer s.curbp).savesUndo o → (s.buffer s.curbp).b_undo = true
  | _ => True

/-! ## Which stacks are read -/

section Reads

variable {s : Windows} {bp b : BufId}

theorem safe_useundo : Safe (useundo bp s) ↔ (s.buffer bp).b_undo = true := by
  unfold useundo
  split
  · next h => exact iff_of_true (safe_ok s) h
  · next h => exact iff_of_false (fun hs => hs rfl) h

theorem safe_killundo : Safe (killundo bp s) ↔ (s.buffer bp).b_undo = true :=
  (safe_bind fun _ => safe_pure _).trans safe_useundo

theorem safe_replay (chg : Bool) : Safe (replay chg s) ↔ (s.buffer s.curbp).b_undo = true :=
  (safe_bind fun _ => safe_pure _).trans safe_useundo

theorem writeout_undo (o : SaveOutcome) (b : BufId) :
    ((writeout bp o s).1.buffer b).b_undo = (s.buffer b).b_undo := by
  unfold writeout
  dsimp only
  split
  · show ((s.modBuf bp fun b => { b with lines := b.lines ++ [s.nextline] }).buffer b).b_undo = _
    exact modBuf_keeps Buffer.b_undo s bp rfl b
  · rfl

theorem safe_filesave (o : SaveOutcome) :
    Safe (filesave bp o s) ↔ ((s.buffer bp).savesUndo o → (s.buffer bp).b_undo = true) := by
  unfold filesave Buffer.savesUndo
  dsimp only
  split
  · next h => exact iff_of_true (safe_ok _) fun hs => by simp [hs.1] at h
  split
  · next h => exact iff_of_true (safe_ok _) fun hs => absurd h hs.2.1
  split
  · next h => exact iff_of_true (safe_ok _) fun hs => by simp [hs.2.2.1] at h
  rename_i hchg hname hstops
  have hreads (hw : (s.buffer bp).bfhexl = true → o.written = true) :
      (s.buffer bp).bfchg = true ∧ (s.buffer bp).b_fname ≠ "" ∧ o.stops = false ∧
        ((s.buffer bp).bfhexl = true → o.written = true) :=
    ⟨by simpa using hchg, hname, by simpa using hstops, hw⟩
  split
  · next hhexl =>
    split
    · next h => exact iff_of_true (safe_ok _) fun hs => by simp [hs.2.2.2 hhexl] at h
    · next h =>
        rw [safe_bind fun _ => safe_pure _, safe_useundo, modBuf_self]
        exact ⟨fun hu _ => hu, fun hu => hu (hreads fun _ => by simpa using h)⟩
  · next hhexl =>
    have hundo : ((if (writeout bp o s).2 = true then
        (writeout bp o s).1.modBuf bp fun b => { b with bfchg := false }
        else (writeout bp o s).1).buffer bp).b_undo = (s.buffer bp).b_undo := by
      split
      · rw [modBuf_self]
        exact writeout_undo o bp
      · exact writeout_undo o bp
    rw [safe_bind fun _ => safe_pure _, safe_useundo, hundo]
    exact ⟨fun hu _ => hu, fun hu => hu (hreads fun hh => absurd hh hhexl)⟩

/-- Saving a buffer does not touch another one. -/
theorem writeout_buffer (o : SaveOutcome) (h : b ≠ bp) :
    (writeout bp o s).1.buffer b = s.buffer b := by
  unfold writeout
  dsimp only
  split
  · show (s.modBuf bp fun b => { b with lines := b.lines ++ [s.nextline] }).buffer b = _
    exact modBuf_of_ne s h _
  · rfl

theorem useundo_eq {t : Windows} (h : useundo bp s = .ok t) : t = s := by
  unfold useundo at h
  split at h
  · cases h
    rfl
  · cases h

theorem filesave_buffer (o : SaveOutcome) (h : b ≠ bp) :
    Post (filesave bp o s) fun r => r.1.buffer b = s.buffer b := by
  unfold filesave
  dsimp only
  split
  · exact (post_ok _).mpr rfl
  split
  · exact (post_ok _).mpr rfl
  split
  · exact (post_ok _).mpr rfl
  split
  · split
    · exact (post_ok _).mpr rfl
    · refine Post.bind (P := fun t => t.buffer b = s.buffer b) (fun t ht => ?_) fun t ht =>
        (post_pure _).mpr ht
      rw [useundo_eq ht]
      exact modBuf_of_ne s h _
  · refine Post.bind (P := fun t => t.buffer b = s.buffer b) (fun t ht => ?_) fun t ht =>
      (post_pure _).mpr ht
    rw [useundo_eq ht]
    dsimp only
    split
    · rw [modBuf_of_ne _ h, writeout_buffer o h]
    · exact writeout_buffer o h

/-- Whether the save succeeds is up to the file system. -/
theorem filesave_ok (o : SaveOutcome) (hchg : (s.buffer bp).bfchg = true)
    (hname : (s.buffer bp).b_fname ≠ "") :
    Post (filesave bp o s) fun r => r.2 = true ↔ o.stops = false ∧ o.written = true := by
  unfold filesave
  dsimp only
  rw [hchg, if_neg (by decide), if_neg hname]
  split
  · next h => exact (post_ok _).mpr (by simp [h])
  rename_i hstops
  split
  · split
    · next h => exact (post_ok _).mpr (by simpa [hstops] using h)
    · next h =>
        refine (post_any _).bind fun t _ => (post_pure _).mpr ?_
        simpa [hstops] using h
  · refine (post_any _).bind fun t _ => (post_pure _).mpr ?_
    simp [hstops, writeout]

/-- The condition looks at the buffers of the tour only, and there at no stack but
through `has`. -/
theorem tourHas_congr {ask : BufId → Option Bool} {o : BufId → SaveOutcome} {t : Windows}
    {has has' : BufId → Prop} {bps : List BufId}
    (h : ∀ b ∈ bps, t.buffer b = { s.buffer b with b_undo := (t.buffer b).b_undo })
    (hhas : ∀ b ∈ bps, has' b ↔ has b) : TourHas ask o t has' bps ↔ TourHas ask o s has bps := by
  induction bps with
  | nil => exact Iff.rfl
  | cons bp bps ih =>
      have hrest := ih (fun b hb => h b (List.mem_cons_of_mem bp hb))
        fun b hb => hhas b (List.mem_cons_of_mem bp hb)
      have hbp := h bp List.mem_cons_self
      have hchg : (t.buffer bp).bfchg = (s.buffer bp).bfchg := by rw [hbp]
      have hname : (t.buffer bp).b_fname = (s.buffer bp).b_fname := by rw [hbp]
      have hhexl : (t.buffer bp).bfhexl = (s.buffer bp).bfhexl := by rw [hbp]
      unfold TourHas Buffer.savesUndo
      rw [hchg, hname, hhexl, hrest, hhas bp List.mem_cons_self]

/-- A tour is safe exactly if it finds the stacks that it reads. -/
theorem safe_saveTour (ask : BufId → Option Bool) (o : BufId → SaveOutcome) {bps : List BufId}
    (hnd : bps.Nodup) : Safe (saveTour ask o bps s) ↔
      TourHas ask o s (fun bp => (s.buffer bp).b_undo = true) bps := by
  induction bps generalizing s with
  | nil => exact iff_of_true (safe_ok _) trivial
  | cons bp bps ih =>
      obtain ⟨hbp, hnd⟩ := List.nodup_cons.mp hnd
      unfold saveTour TourHas
      by_cases hskip : (s.buffer bp).bfchg = false ∨ (s.buffer bp).b_fname = ""
      · rw [if_pos (by simpa using hskip), if_pos hskip]
        exact ih hnd
      · rw [if_neg (by simpa using hskip), if_neg hskip]
        obtain ⟨hchg, hname⟩ := not_or.mp hskip
        cases ask bp with
        | none => exact iff_of_true (safe_ok _) trivial
        | some yes =>
          cases yes with
          | false => exact ih hnd
          | true =>
              dsimp only
              rw [safe_bind_iff, safe_filesave]
              refine and_congr_right fun hthere => ?_
              -- the rest of the tour meets the buffers that the save has not touched
              have hrest (r : Windows × Bool) (hr : filesave bp (o bp) s = .ok r) :
                  Safe (saveTour ask o bps r.1) ↔
                    TourHas ask o s (fun bp => (s.buffer bp).b_undo = true) bps := by
                have hsame (b : BufId) (hb : b ∈ bps) : r.1.buffer b = s.buffer b := by
                  have hne : b ≠ bp := fun h => hbp (h ▸ hb)
                  exact filesave_buffer (o bp) hne r hr
                exact (ih hnd).trans (tourHas_congr (fun b hb => by rw [hsame b hb])
                  fun b hb => by rw [hsame b hb])
              constructor
              · intro hafter hstops hwritten
                obtain ⟨r, hr⟩ := (safe_filesave (o bp)).mpr hthere |>.exists_ok
                have hok := (filesave_ok (o bp) (by simpa using hchg) hname r hr).mpr ⟨hstops, hwritten⟩
                have hsafe := hafter r hr
                rw [hok] at hsafe
                exact (hrest r hr).mp hsafe
              · intro hthen r hr
                have hok := filesave_ok (o bp) (by simpa using hchg) hname r hr
                split
                · exact safe_pure _
                · next h =>
                    have hsaved := hok.mp (by simpa using h)
                    exact (hrest r hr).mpr (hthen hsaved.1 hsaved.2)

/-! ## Killing a buffer -/

theorem bclear_undo (discard : Bool) (b : BufId) :
    ((bclear bp discard s).1.buffer b).b_undo = (s.buffer b).b_undo := by
  unfold bclear
  split
  · rfl
  · show ((s.modBuf bp (Buffer.emptied s.nextline)).buffer b).b_undo = _
    exact modBuf_keeps Buffer.b_undo s bp rfl b

theorem undisplay_undo (b : BufId) : ((undisplay s).buffer b).b_undo = (s.buffer b).b_undo := by
  refine modBuf_keeps Buffer.b_undo s s.curbp ?_ b
  dsimp only
  split <;> rfl

theorem enter_undo (b : BufId) : ((enter bp s).buffer b).b_undo = (s.buffer b).b_undo := by
  rw [enter_buffer]
  exact modBuf_keeps Buffer.b_undo s bp rfl b

theorem safe_zotbuf (discard : Bool) : Safe (zotbuf bp discard s) ↔
    ((s.buffer bp).b_nwnd = 0 → ((s.buffer bp).bfchg = true → discard = true) →
      (s.buffer bp).b_undo = true) := by
  unfold zotbuf
  split
  · next h => exact iff_of_true (safe_ok _) fun h0 => absurd h0 h
  · next h =>
      rw [not_not] at h
      have hok := bclear_ok s bp discard
      dsimp only
      split
      · next hc => exact iff_of_true (safe_ok _) fun _ hd => by simp [hok.mpr hd] at hc
      · next hc =>
          rw [safe_bind fun _ => safe_pure _, safe_killundo]
          refine (iff_of_eq (congrArg (· = true) (bclear_undo discard bp))).trans ?_
          exact ⟨fun hu _ _ => hu, fun hu => hu h (hok.mp (by simpa using hc))⟩

theorem alternate_undo (hfresh : b ≠ s.nextbuf) (bp : BufId) :
    ((alternate bp s).2.buffer b).b_undo = (s.buffer b).b_undo := by
  unfold alternate
  split
  · rfl
  · unfold getscratch
    split
    · next c hc =>
        show ((s.modBuf c fun b => { b with b_active := true, b_fname := "" }).buffer b).b_undo = _
        exact modBuf_keeps Buffer.b_undo s c rfl b
    · exact congrArg Buffer.b_undo (newbuf_buffer s hfresh "main")

/-- Where another buffer is current, `killbuffer` switches to neither. -/
theorem alternate_ne (hcur : s.curbp ∈ s.bheadp) (hne : bp ≠ s.curbp) :
    alternate bp s = ((alternate bp s).1, s) ∧ (alternate bp s).1 ≠ bp := by
  unfold alternate
  split
  · next b hb => exact ⟨rfl, by simpa using List.find?_some hb⟩
  · next hnone =>
      have hall := List.find?_eq_none.mp hnone s.curbp hcur
      simp [Ne.symm hne] at hall

/-- Killing a buffer is safe if it is current, and otherwise if it has a stack or
does not get that far. -/
theorem safe_killbuf (h : Counted s) (hbp : bp ∈ s.bheadp)
    (hcur : (s.buffer s.curbp).b_undo = true) (discard : Bool) (io : ReadIo) :
    Safe (killbuf bp discard io s) ↔ ((s.buffer bp).b_nwnd = 0 →
      ((s.buffer bp).bfchg = true → discard = true) → (s.buffer bp).b_undo = true) := by
  obtain ⟨halt, hmem⟩ := alternate_counted h bp
  unfold killbuf
  rw [safe_zotbuf]
  by_cases hne : bp = s.curbp
  · have hfresh : bp ≠ s.nextbuf := (h.fresh bp hbp).ne
    have hundo : ((swbuffer (alternate bp s).1 io (alternate bp s).2).buffer bp).b_undo = true := by
      rw [swbuffer_eq io halt hmem, enter_undo, undisplay_undo, alternate_undo hfresh, hne]
      exact hcur
    exact iff_of_true (fun _ _ => hundo) fun _ _ => hne ▸ hcur
  · obtain ⟨hsame, halt⟩ := alternate_ne (h.tally.mem _ List.mem_cons_self) hne
    rw [hsame]
    dsimp only
    rw [swbuffer_buffer s io halt.symm, undisplay_buffer s hne]

/-! ## Actions -/

/-- A key finds the stack of the current buffer. -/
theorem startsaveundo_undo (b : BufId) :
    ((startsaveundo s).buffer b).b_undo = true ↔ HasStack s b := by
  unfold HasStack
  by_cases hb : b = s.curbp
  · rw [hb]
    exact iff_of_true (congrArg Buffer.b_undo (modBuf_self s _ _)) (.inr rfl)
  · rw [or_iff_left hb]
    exact iff_of_eq (congrArg (· = true) (congrArg Buffer.b_undo (modBuf_of_ne s hb _)))

theorem startsaveundo_findbuf (bname : String) : findbuf bname (startsaveundo s) = findbuf bname s := by
  have hname (b : BufId) : ((startsaveundo s).buffer b).b_bname = (s.buffer b).b_bname := by
    rw [startsaveundo_buffer]
  unfold findbuf
  simp only [hname]
  rfl

theorem startsaveundo_tour (ask : BufId → Option Bool) (o : BufId → SaveOutcome) :
    TourHas ask o (startsaveundo s) (fun bp => ((startsaveundo s).buffer bp).b_undo = true) s.bheadp ↔
      TourHas ask o s (HasStack s) s.bheadp :=
  tourHas_congr (fun b _ => startsaveundo_buffer b) fun b _ => startsaveundo_undo b

theorem readlines_undo (file : FileRead) (b : BufId) :
    ((readlines bp file s).1.buffer b).b_undo = (s.buffer b).b_undo := by
  cases file with
  | openerr => rfl
  | notfound => rfl
  | lines n hadnl err =>
      refine modBuf_keeps Buffer.b_undo s bp (f := fun b => { b with
        lines := if hadnl then List.range' s.nextline (if hadnl then n else n + 1) ++ b.lines
          else List.range' s.nextline (if hadnl then n else n + 1) ++ b.lines.dropLast }) rfl b

theorem reframe_undo (b : BufId) : ((reframe bp s).buffer b).b_undo = (s.buffer b).b_undo := by
  unfold reframe
  exact modBuf_keeps Buffer.b_undo (s.allwind _) bp rfl b

theorem readin_undo (io : ReadIo) (b : BufId) :
    ((readin bp io s).1.buffer b).b_undo = (s.buffer b).b_undo := by
  unfold readin
  split
  · rfl
  · dsimp only
    split
    · exact bclear_undo io.discard b
    · rw [reframe_undo, readlines_undo, ← bclear_undo (s := s) io.discard b]
      exact modBuf_keeps Buffer.b_undo _ bp rfl b

theorem safe_revertbuffer (hcur : (s.buffer s.curbp).b_undo = true) (aborted : Bool) (io : ReadIo) :
    Safe (revertbuffer aborted io s) := by
  unfold revertbuffer
  dsimp only
  split
  · exact safe_ok _
  split
  · exact safe_ok _
  · refine (safe_bind fun _ => safe_pure _).mpr (safe_useundo.mpr ?_)
    rw [modBuf_self]
    exact (readin_undo _ _).trans hcur

theorem safe_hexlchangeLines (hcur : (s.buffer s.curbp).b_undo = true) (parses trailing : Bool)
    (o : Nat) : Safe (hexlchangeLines parses trailing o s) := by
  unfold hexlchangeLines
  dsimp only
  split
  · exact safe_ok _
  · exact (safe_bind fun _ => safe_pure _).mpr (safe_killundo.mpr hcur)

theorem safe_killbuffer (h : Counted s) (hcur : (s.buffer s.curbp).b_undo = true)
    (bname : String) (discard : Bool) (io : ReadIo) :
    Safe (killbuffer (some bname) discard io s) ↔ ∀ bp, findbuf bname s = some bp →
      (s.buffer bp).b_nwnd = 0 → ((s.buffer bp).bfchg = true → discard = true) →
        (s.buffer bp).b_undo = true := by
  unfold killbuffer
  dsimp only
  cases hfind : findbuf bname s with
  | none => exact iff_of_true (safe_ok _) nofun
  | some bp =>
      have hmem : bp ∈ s.bheadp := findbuf_mem hfind
      set t := s.modBuf bp fun b => { b with b_active := true } with ht
      have hself : t.buffer bp = { s.buffer bp with b_active := true } := modBuf_self s bp _
      have hcur' : (t.buffer t.curbp).b_undo = true :=
        (modBuf_keeps Buffer.b_undo s bp rfl s.curbp).trans hcur
      have hkill := safe_killbuf (s := t) (Table.modBuf h rfl fun _ => rfl) hmem hcur' discard io
      rw [hself] at hkill
      exact hkill.trans ⟨fun hk bp' hbp' => Option.some.inj hbp' ▸ hk, fun hk => hk bp rfl⟩

/-- A command from the keyboard. -/
theorem safe_key (c : Command) (h : Counted s) :
    Safe (c.run (startsaveundo s)) ↔ StackThere (.key c) s := by
  have hs : Counted (startsaveundo s) := h.calm (calm_startsaveundo s)
  have hcur : ((startsaveundo s).buffer (startsaveundo s).curbp).b_undo = true :=
    (startsaveundo_undo s.curbp).mpr (.inr rfl)
  cases c with
  | killbuffer name discard io =>
      cases name with
      | none =>
          have hmem := hs.tally.mem _ List.mem_cons_self
          exact iff_of_true ((safe_killbuf hs hmem hcur discard io).mpr fun _ _ => hcur) trivial
      | some bname =>
          refine (safe_killbuffer hs hcur bname discard io).trans ?_
          rw [startsaveundo_findbuf]
          refine forall_congr' fun bp => forall_congr' fun _ => ?_
          rw [startsaveundo_undo, startsaveundo_buffer]
  | filesaveall ask o => exact (safe_saveTour ask o hs.tally.nodup).trans (startsaveundo_tour ask o)
  | quickexit o => exact (safe_saveTour _ o hs.tally.nodup).trans (startsaveundo_tour _ o)
  | edit => exact iff_of_true ((safe_replay true).mpr hcur) trivial
  | undo chg => exact iff_of_true ((safe_replay chg).mpr hcur) trivial
  | redo => exact iff_of_true ((safe_replay true).mpr hcur) trivial
  | filesave o => exact iff_of_true ((safe_filesave o).mpr fun _ => hcur) trivial
  | revertbuffer aborted io => exact iff_of_true (safe_revertbuffer hcur aborted io) trivial
  | hexlchange parses trailing o => exact iff_of_true (safe_hexlchangeLines hcur parses trailing o) trivial
  | swbuffer bp io =>
      refine iff_of_true ?_ trivial
      dsimp only [Command.run]
      split <;> exact safe_ok _
  | bclear bp discard =>
      refine iff_of_true ?_ trivial
      dsimp only [Command.run]
      split <;> exact safe_ok _
  | _ => exact iff_of_true (safe_ok _) trivial

theorem safe_act (e : Action) (h : Counted s) : Safe (act e s) ↔ StackThere e s := by
  cases e with
  | key c => exact (safe_bind fun _ => safe_pure _).trans (safe_key c h)
  | call c =>
      refine (safe_bind fun _ => safe_pure _).trans ?_
      cases c with
      | switchtobuffer bname io => exact iff_of_true (safe_ok _) trivial
      | findfile name io => exact iff_of_true (safe_ok _) trivial
      | savebuffer o => exact safe_filesave o

end Reads

/-- A file on the command line that is read. -/
def fileArg (name : String) : FileArg := ⟨name, true, true, name, .lines 1 true false⟩

/-- Three files, of which the third gets no window. -/
def threeFiles : Windows := startup 24 [fileArg "a", fileArg "b", fileArg "c"]

/-- Kill the third buffer. -/
def killThird : Action := .key (.killbuffer (some "c") true (fileArg "c").io)

end Emacs
