import Zzdwm.Emacs.Buffers

/-!
# What operations on text keep

Reading a file, clearing a buffer, setting marks and saving leave the windows
where they are and showing what they show, and the counters as they are.

* `Calm` — the relation between the state before and after;
* `calm_readin`, `calm_filesave`, … — one lemma for each operation;
* `Turned` — what going to another window does;
* `addcur_eq` — what `addwind` does to the current window and its buffer;
* `readin_buffer`, `swbuffer_buffer`, … — the other buffers.
-/

namespace Emacs

open Machine

/-- Where a window is, and what it shows. -/
structure Place where
  bufp : BufId
  toprow : Int
  ntrows : Int

def Window.place (w : Window) : Place := ⟨w.w_bufp, w.w_toprow, w.w_ntrows⟩

/-- The windows, the list of the buffers and their counters are as before. -/
structure Calm (s t : Windows) : Prop where
  above : t.above.map Window.place = s.above.map Window.place
  cur : t.curwp.place = s.curwp.place
  below : t.below.map Window.place = s.below.map Window.place
  nrow : t.nrow = s.nrow
  bheadp : t.bheadp = s.bheadp
  nextbuf : t.nextbuf = s.nextbuf
  nwnd : ∀ b, (t.buffer b).b_nwnd = (s.buffer b).b_nwnd
  active : ∀ b, (t.buffer b).b_active = (s.buffer b).b_active

namespace Windows

theorem modBuf_self (s : Windows) (bp : BufId) (f : Buffer → Buffer) :
    (s.modBuf bp f).buffer bp = f (s.buffer bp) := Function.update_self ..

theorem modBuf_of_ne (s : Windows) {bp b : BufId} (h : b ≠ bp) (f : Buffer → Buffer) :
    (s.modBuf bp f).buffer b = s.buffer b := Function.update_of_ne h ..

/-- What `f` keeps, `modBuf` keeps in every buffer. -/
theorem modBuf_keeps {α : Type} (g : Buffer → α) (s : Windows) (bp : BufId) {f : Buffer → Buffer}
    (hf : g (f (s.buffer bp)) = g (s.buffer bp)) (b : BufId) :
    g ((s.modBuf bp f).buffer b) = g (s.buffer b) := by
  by_cases h : b = bp
  · rw [h, modBuf_self, hf]
  · rw [modBuf_of_ne s h]

end Windows

namespace Calm

variable {s t u : Windows}

theorem refl (s : Windows) : Calm s s :=
  ⟨rfl, rfl, rfl, rfl, rfl, rfl, fun _ => rfl, fun _ => rfl⟩

theorem trans (hst : Calm s t) (htu : Calm t u) : Calm s u where
  above := htu.above.trans hst.above
  cur := htu.cur.trans hst.cur
  below := htu.below.trans hst.below
  nrow := htu.nrow.trans hst.nrow
  bheadp := htu.bheadp.trans hst.bheadp
  nextbuf := htu.nextbuf.trans hst.nextbuf
  nwnd := fun b => (htu.nwnd b).trans (hst.nwnd b)
  active := fun b => (htu.active b).trans (hst.active b)

/-- `trans`, from the last step on. -/
theorem after (htu : Calm t u) (hst : Calm s t) : Calm s u := hst.trans htu

theorem setCur {f : Window → Window} (hf : (f s.curwp).place = s.curwp.place) :
    Calm s (s.setCur f) := { refl s with cur := hf }

theorem allwind {f : Window → Window} (hf : ∀ w, (f w).place = w.place) : Calm s (s.allwind f) := by
  have hcomp : Window.place ∘ f = Window.place := funext hf
  have hmap (ws : List Window) : (ws.map f).map Window.place = ws.map Window.place := by
    rw [List.map_map, hcomp]
  exact { refl s with above := hmap s.above, cur := hf s.curwp, below := hmap s.below }

theorem modBuf {bp : BufId} {f : Buffer → Buffer}
    (hn : (f (s.buffer bp)).b_nwnd = (s.buffer bp).b_nwnd)
    (ha : (f (s.buffer bp)).b_active = (s.buffer bp).b_active) : Calm s (s.modBuf bp f) :=
  { refl s with
    nwnd := Windows.modBuf_keeps Buffer.b_nwnd s bp hn
    active := Windows.modBuf_keeps Buffer.b_active s bp ha }

/-- New lines need numbers. -/
theorem nextline (h : Calm s t) (lp : LineId) : Calm s { t with nextline := lp } := { h with }

theorem curbp (h : Calm s t) : t.curbp = s.curbp := congrArg Place.bufp h.cur

/-- In screen order. -/
theorem wheadp (h : Calm s t) : t.wheadp.map Window.place = s.wheadp.map Window.place := by
  simp only [Windows.wheadp, List.map_append, List.map_reverse, List.map_cons, h.above, h.cur, h.below]

end Calm

section Calm

variable (s : Windows) (bp : BufId) (io : ReadIo)

theorem calm_bclear (discard : Bool) : Calm s (bclear bp discard s).1 := by
  unfold bclear
  split
  · exact Calm.refl s
  · refine Calm.after (Calm.allwind fun w => ?_) (Calm.nextline (Calm.modBuf rfl rfl) _)
    split <;> rfl

theorem calm_readlines (file : FileRead) : Calm s (readlines bp file s).1 := by
  cases file with
  | openerr => exact Calm.refl s
  | notfound => exact Calm.refl s
  | lines n hadnl err =>
      unfold readlines
      exact Calm.nextline (Calm.modBuf rfl rfl) _

theorem calm_reframe : Calm s (reframe bp s) := by
  unfold reframe
  refine Calm.after (Calm.modBuf rfl rfl) (Calm.allwind fun w => ?_)
  split <;> rfl

theorem calm_readin : Calm s (readin bp io s).1 := by
  unfold readin
  split
  · exact Calm.refl s
  · dsimp only
    split
    · exact calm_bclear s bp io.discard
    · refine Calm.after (calm_reframe _ bp) ?_
      refine Calm.after (calm_readlines _ bp io.file) ?_
      exact Calm.after (Calm.modBuf rfl rfl) (calm_bclear s bp io.discard)

theorem calm_setmark (f : Bool) : Calm s (setmark f s).1 := by
  unfold setmark
  split
  · dsimp only
    exact Calm.setCur rfl
  · split
    · exact Calm.refl s
    · dsimp only
      exact Calm.setCur rfl

theorem calm_movedot (i o : Nat) : Calm s (movedot i o s) := by
  unfold movedot
  exact Calm.setCur rfl

theorem calm_swapmark : Calm s (swapmark s).1 := by
  unfold swapmark
  split
  · exact Calm.refl s
  · dsimp only
    exact Calm.setCur rfl

theorem calm_lookForOld : Calm s (lookForOld bp s) := by
  unfold lookForOld
  split
  · exact Calm.setCur rfl
  · exact Calm.refl s

theorem calm_writeout (o : SaveOutcome) : Calm s (writeout bp o s).1 := by
  unfold writeout
  dsimp only
  split
  · exact Calm.nextline (Calm.modBuf rfl rfl) _
  · exact Calm.refl s

theorem calm_hexlrelay (n o : Nat) : Calm s (hexlrelay bp n o s) := by
  unfold hexlrelay
  split
  · exact Calm.refl s
  · refine Calm.after (Calm.allwind fun w => ?_) (Calm.nextline (Calm.modBuf rfl rfl) _)
    split <;> rfl

theorem calm_useundo : Post (useundo bp s) (Calm s) := by
  unfold useundo
  split
  · exact (post_ok s).mpr (Calm.refl s)
  · exact post_error _

theorem calm_killundo : Post (killundo bp s) (Calm s) :=
  (calm_useundo s bp).bind fun _ ht => (post_pure _).mpr (Calm.after (Calm.modBuf rfl rfl) ht)

theorem calm_startsaveundo : Calm s (startsaveundo s) := Calm.modBuf rfl rfl

theorem calm_replay (chg : Bool) : Post (replay chg s) fun r => Calm s r.1 := by
  refine (calm_useundo s _).bind fun _ ht => (post_pure _).mpr ?_
  dsimp only
  exact Calm.after (Calm.modBuf rfl rfl) ht

theorem calm_filesave (o : SaveOutcome) : Post (filesave bp o s) fun r => Calm s r.1 := by
  unfold filesave
  dsimp only
  split
  · exact (post_ok _).mpr (Calm.refl s)
  split
  · exact (post_ok _).mpr (Calm.refl s)
  split
  · exact (post_ok _).mpr (Calm.refl s)
  split
  · split
    · exact (post_ok _).mpr (Calm.refl s)
    · refine (calm_useundo _ bp).bind fun _ ht => (post_pure _).mpr ?_
      exact Calm.after ht (Calm.modBuf rfl rfl)
  · refine (calm_useundo _ bp).bind fun _ ht => (post_pure _).mpr (Calm.after ht ?_)
    split
    · exact Calm.after (Calm.modBuf rfl rfl) (calm_writeout s bp o)
    · exact calm_writeout s bp o

theorem calm_saveTour (ask : BufId → Option Bool) (o : BufId → SaveOutcome) (bps : List BufId) :
    Post (saveTour ask o bps s) fun r => Calm s r.1 := by
  induction bps generalizing s with
  | nil => exact (post_ok _).mpr (Calm.refl s)
  | cons bp bps ih =>
      unfold saveTour
      split
      · exact ih s
      · split
        · exact (post_ok _).mpr (Calm.refl s)
        · exact ih s
        · refine (calm_filesave s bp (o bp)).bind fun r hr => ?_
          dsimp only
          split
          · exact (post_pure _).mpr hr
          · exact (ih r.1).mono fun _ ht => hr.trans ht

theorem calm_filewrite (fname : String) (o : SaveOutcome) : Calm s (filewrite fname o s).1 := by
  unfold filewrite
  split
  · exact Calm.refl s
  · dsimp only
    split
    · exact Calm.after (Calm.modBuf rfl rfl) (calm_writeout s _ o)
    · exact calm_writeout s _ o

theorem calm_revertbuffer (aborted : Bool) :
    Post (revertbuffer aborted io s) fun r => Calm s r.1 := by
  unfold revertbuffer
  dsimp only
  split
  · exact (post_ok _).mpr (Calm.refl s)
  split
  · exact (post_ok _).mpr (calm_readin s _ _)
  · refine (calm_useundo _ _).bind fun _ ht => (post_pure _).mpr ?_
    exact Calm.after ht (Calm.after (Calm.modBuf rfl rfl) (calm_readin s _ _))

theorem calm_hexlchangeLines (parses trailing : Bool) (o : Nat) :
    Post (hexlchangeLines parses trailing o s) fun r => Calm s r.1 := by
  unfold hexlchangeLines
  dsimp only
  split
  · exact (post_ok _).mpr (Calm.refl s)
  · refine (calm_killundo s _).bind fun t ht => (post_pure _).mpr ?_
    exact ht.trans (calm_hexlrelay t _ _ o)

end Calm

/-! ## Other windows -/

/-- Another window is the current one, and that is all. -/
structure Turned (s t : Windows) : Prop where
  wheadp : t.wheadp = s.wheadp
  buffer : t.buffer = s.buffer
  bheadp : t.bheadp = s.bheadp
  nrow : t.nrow = s.nrow
  nextline : t.nextline = s.nextline
  nextbuf : t.nextbuf = s.nextbuf

theorem turned_nextwind (s : Windows) : Turned s (nextwind s) := by
  unfold nextwind
  split
  · next w below h => exact ⟨by simp [Windows.wheadp, h], rfl, rfl, rfl, rfl, rfl⟩
  · split
    · next w below h =>
        refine ⟨?_, rfl, rfl, rfl, rfl, rfl⟩
        rw [h]
        rfl
    · exact ⟨rfl, rfl, rfl, rfl, rfl, rfl⟩

theorem turned_prevwind (s : Windows) : Turned s (prevwind s) := by
  unfold prevwind
  split
  · next w above h => exact ⟨by simp [Windows.wheadp, h], rfl, rfl, rfl, rfl, rfl⟩
  · split
    · next w above h =>
        refine ⟨?_, rfl, rfl, rfl, rfl, rfl⟩
        rw [← List.reverse_reverse s.wheadp, h, List.reverse_cons]
        rfl
    · exact ⟨rfl, rfl, rfl, rfl, rfl, rfl⟩

/-! ## Counting -/

/-- The window that `addwind` counts: it gets what the buffer has kept if no window
shows the buffer. -/
def Window.counted (w : Window) (s : Windows) : Window :=
  if (s.buffer w.w_bufp).b_nwnd = 0 then
    { w with w_dot := (s.buffer w.w_bufp).b_dot, w_ring := (s.buffer w.w_bufp).b_ring }
  else w

/-- The buffer of a window that `addwind` counts. -/
def Buffer.counted (n : Int) (w : Window) (b : Buffer) : Buffer :=
  if schar (b.b_nwnd + n) = 0 then
    { b with b_nwnd := schar (b.b_nwnd + n), b_dot := w.w_dot, b_ring := w.w_ring }
  else { b with b_nwnd := schar (b.b_nwnd + n) }

theorem addwind_eq (w : Window) (n : Int) (s : Windows) :
    addwind w n s = (w.counted s, s.modBuf w.w_bufp (Buffer.counted n (w.counted s))) := by
  unfold addwind Window.counted
  dsimp only
  split <;> rfl

theorem addcur_eq (n : Int) (s : Windows) :
    addcur n s = { s.modBuf s.curbp (Buffer.counted n (s.curwp.counted s)) with
      curwp := s.curwp.counted s } := by
  unfold addcur
  rw [addwind_eq]
  rfl

@[simp] theorem Window.counted_place (w : Window) (s : Windows) : (w.counted s).place = w.place := by
  unfold Window.counted
  split <;> rfl

@[simp] theorem Buffer.counted_nwnd (n : Int) (w : Window) (b : Buffer) :
    (b.counted n w).b_nwnd = schar (b.b_nwnd + n) := by
  unfold Buffer.counted
  split <;> rfl

@[simp] theorem Buffer.counted_active (n : Int) (w : Window) (b : Buffer) :
    (b.counted n w).b_active = b.b_active := by
  unfold Buffer.counted
  split <;> rfl

/-! ## The other buffers -/

section Others

variable (s : Windows) {bp b : BufId} (io : ReadIo)

theorem newbuf_buffer_self (bname : String) :
    (newbuf bname s).buffer s.nextbuf = bcreate bname s.nextline (s.nextline + 1) :=
  Function.update_self ..

theorem newbuf_buffer (h : b ≠ s.nextbuf) (bname : String) :
    (newbuf bname s).buffer b = s.buffer b := Function.update_of_ne h _ _

theorem bclear_buffer (h : b ≠ bp) (discard : Bool) :
    (bclear bp discard s).1.buffer b = s.buffer b := by
  unfold bclear
  split
  · rfl
  · exact Function.update_of_ne h _ _

theorem readlines_buffer (h : b ≠ bp) (file : FileRead) :
    (readlines bp file s).1.buffer b = s.buffer b := by
  cases file with
  | openerr => rfl
  | notfound => rfl
  | lines n hadnl err => exact Function.update_of_ne h _ _

theorem reframe_buffer (h : b ≠ bp) : (reframe bp s).buffer b = s.buffer b :=
  Function.update_of_ne h _ _

theorem readin_buffer (h : b ≠ bp) : (readin bp io s).1.buffer b = s.buffer b := by
  unfold readin
  split
  · rfl
  · dsimp only
    split
    · exact bclear_buffer s h io.discard
    · rw [reframe_buffer _ h, readlines_buffer _ h, Windows.modBuf_of_ne _ h, bclear_buffer s h]

theorem lookForOld_buffer (bp : BufId) : (lookForOld bp s).buffer = s.buffer := by
  unfold lookForOld
  split <;> rfl

theorem activate_buffer (h : b ≠ bp) : (activate bp io s).buffer b = s.buffer b := by
  unfold activate
  rw [Windows.modBuf_of_ne _ h]
  split
  · rfl
  · rw [Windows.modBuf_of_ne _ h, readin_buffer s _ h]

theorem undisplay_buffer (h : b ≠ s.curbp) : (undisplay s).buffer b = s.buffer b :=
  Windows.modBuf_of_ne s h _

theorem enter_buffer (bp : BufId) : (enter bp s).buffer =
    (s.modBuf bp fun b => { b with b_nwnd := schar (b.b_nwnd + 1) }).buffer := by
  unfold enter
  dsimp only
  split
  · rfl
  · exact lookForOld_buffer _ bp

/-- `bclear` refuses to throw changes away that are not to be discarded. -/
theorem bclear_ok (s : Windows) (bp : BufId) (discard : Bool) :
    (bclear bp discard s).2 = true ↔ ((s.buffer bp).bfchg = true → discard = true) := by
  unfold bclear
  cases (s.buffer bp).bfchg <;> cases discard <;> simp

theorem startsaveundo_buffer {s : Windows} (b : BufId) : (startsaveundo s).buffer b =
    { s.buffer b with b_undo := ((startsaveundo s).buffer b).b_undo } := by
  by_cases hb : b = s.curbp
  · subst hb
    have hself := Windows.modBuf_self s s.curbp fun b => { b with b_undo := true }
    change (startsaveundo s).buffer s.curbp = _ at hself
    rw [hself]
  · have hne := Windows.modBuf_of_ne s hb fun b => { b with b_undo := true }
    change (startsaveundo s).buffer b = _ at hne
    rw [hne]

/-- `swbuffer` looks after two buffers only. -/
theorem swbuffer_buffer (h : b ≠ bp) : (swbuffer bp io s).buffer b = (undisplay s).buffer b := by
  unfold swbuffer
  rw [enter_buffer, Windows.modBuf_of_ne _ h]
  split
  · rfl
  · exact activate_buffer _ io h

end Others

end Emacs
