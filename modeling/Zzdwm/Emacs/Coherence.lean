import Zzdwm.Emacs.Handover

/-!
# Windows and their buffers in every run

What a command may meet so that no window is left with a pointer to a line of
another buffer, or to a line that is gone.

* `Coherent` — the counters, and the dots and marks of all windows;
* `Careful` — the condition on an action and the state that it meets;
* `handover_coherent` — a run whose actions all meet it.
-/

namespace Emacs

open Machine Windows

/-- Each buffer counts the windows that show it, and each window's dot and marks are
at lines of its own buffer or at its header line. -/
structure Coherent (s : Windows) : Prop where
  counts : ∀ b ∈ s.bheadp, (s.buffer b).b_nwnd = (s.wheadp.map Window.w_bufp).count b
  dots : ∀ w ∈ s.wheadp, (s.buffer w.w_bufp).Has w.w_dot.p
  marks : ∀ w ∈ s.wheadp, w.w_ring.Marks (s.buffer w.w_bufp).Has

theorem Windows.Handed.coherent {s : Windows} (h : Handed s) : Coherent s where
  counts := fun b hb => by
    rw [Table.nwnd_eq h.table h.fits hb, (shown_perm s).count_eq]
  dots := fun w hw => (h.home w hw).dot
  marks := fun w hw => MARKRING.marks_of_older (h.home w hw).mark (h.home w hw).older

/-! ## Windows that come and go -/

/-- What a window shows, and its pointers. -/
def Window.load (w : Window) : BufId × POS × MARKRING := (w.w_bufp, w.w_dot, w.w_ring)

section Commands

variable {s t : Windows} {bp b : BufId}

/-- The windows have what windows had before. -/
theorem Windows.Handed.reload (h : Handed s) (hstore : Store t.shown t)
    (hload : ∀ w ∈ t.wheadp, ∃ v ∈ s.wheadp, v.load = w.load)
    (hhas : ∀ b, (t.buffer b).Has = (s.buffer b).Has) : Handed t where
  table := hstore.table
  fits := hstore.fits
  kept := hstore.kept
  home := fun w hw => by
    obtain ⟨v, hv, hvw⟩ := hload w hw
    obtain ⟨hbufp, hdot, hring⟩ : v.w_bufp = w.w_bufp ∧ v.w_dot = w.w_dot ∧ v.w_ring = w.w_ring := by
      simpa [Window.load] using hvw
    have hset := (h.home v hv).congr (hhas v.w_bufp)
    refine ⟨?_, ?_, ?_⟩
    · rw [← hbufp, ← hdot]
      exact hset.dot
    · rw [EWINDOW.w_mark, ← hbufp, ← hring]
      exact hset.mark
    · rw [← hbufp, ← hring]
      exact hset.older

/-- Only rows and frames have changed. -/
theorem Windows.Handed.same (h : Handed s) (hbuf : t.buffer = s.buffer) (hb : t.bheadp = s.bheadp)
    (hn : t.nextbuf = s.nextbuf) (hw : t.wheadp.map Window.load = s.wheadp.map Window.load) :
    Handed t := by
  have hbufp : Window.w_bufp = Prod.fst ∘ Window.load := rfl
  have hperm : t.shown.Perm s.shown := by
    refine (shown_perm t).trans ?_
    rw [hbufp, ← List.map_map, hw, List.map_map, ← hbufp]
    exact (shown_perm s).symm
  refine h.reload ⟨Table.perm (h.table.of_eq hbuf hb hn) hperm.symm, fun b => ?_, fun b hbm hs => ?_⟩
    (fun w hwm => ?_) fun b => by rw [hbuf]
  · rw [hperm.count_eq]
    exact h.fits b
  · rw [hbuf]
    exact h.kept b (hb ▸ hbm) fun hm => hs (hperm.mem_iff.mpr hm)
  · have hmem : w.load ∈ s.wheadp.map Window.load := hw ▸ List.mem_map_of_mem hwm
    obtain ⟨v, hv, hvw⟩ := List.mem_map.mp hmem
    exact ⟨v, hv, hvw⟩

theorem Windows.Handed.turned (h : Handed s) (ht : Turned s t) : Handed t :=
  h.same ht.buffer ht.bheadp ht.nextbuf (by rw [ht.wheadp])

theorem enlarge_handed (n : Int) (h : Handed s) : Handed (enlarge n s).1 := by
  unfold enlarge
  dsimp only
  split
  · next _ adj below hb =>
      split
      · exact h
      · refine h.same rfl rfl rfl ?_
        simp [wheadp, hb, Window.load, Window.redraw]
  · next adj above hb ha =>
      split
      · exact h
      · refine h.same rfl rfl rfl ?_
        simp [wheadp, ha, hb, Window.load, Window.redraw]
  · exact h

theorem shrink_handed (n : Int) (h : Handed s) : Handed (shrink n s).1 := by
  unfold shrink
  dsimp only
  split
  · next _ adj below hb =>
      split
      · exact h
      · refine h.same rfl rfl rfl ?_
        simp [wheadp, hb, Window.load, Window.redraw]
  · next adj above hb ha =>
      split
      · exact h
      · refine h.same rfl rfl rfl ?_
        simp [wheadp, ha, hb, Window.load, Window.redraw]
  · exact h

theorem enlargewind_handed (n : Int) (h : Handed s) : Handed (enlargewind n s).1 := by
  unfold enlargewind
  split
  · exact shrink_handed _ h
  · exact enlarge_handed _ h

theorem shrinkwind_handed (n : Int) (h : Handed s) : Handed (shrinkwind n s).1 := by
  unfold shrinkwind
  split
  · exact enlarge_handed _ h
  · exact shrink_handed _ h

theorem balance_load {size : Int} (toprow : Int) (ws : List Window) :
    (balance s size toprow ws).map Window.load = ws.map Window.load := by
  induction ws generalizing toprow with
  | nil => rfl
  | cons w ws ih =>
      rw [balance, List.map_cons, List.map_cons, ih]
      rfl

theorem balancewindows_handed (h : Handed s) : Handed (balancewindows s).1 := by
  cases honly : s.only with
  | true => rwa [balancewindows, honly]
  | false =>
      have hkeep := balancewindows_buffers s
      refine h.same hkeep.1 hkeep.2.1 hkeep.2.2 ?_
      rw [balancewindows_spans honly, balance_load]

/-- The two halves of a window have its pointers. -/
theorem splitwind_handed (h : Handed s) (hroom : s.curwp.w_ntrows < 3 ∨ (s.buffer s.curbp).b_nwnd < 127) :
    Handed (splitwind s).1 := by
  have hcur : s.curbp ∈ s.bheadp := h.table.tally.mem _ List.mem_cons_self
  unfold splitwind
  dsimp only
  split
  · exact h
  next hrows =>
  have hcount : s.shown.count s.curbp < 127 := by
    have hn := hroom.resolve_left hrows
    rw [Table.nwnd_eq h.table h.fits hcur] at hn
    omega
  -- the buffer has been counted up
  have hstore : Store (s.curbp :: s.shown) (s.modBuf s.curbp fun b =>
      { b with b_nwnd := schar (b.b_nwnd + 1) }) := by
    refine ⟨Table.acquire h.table hcur rfl rfl, h.fits.cons hcount, fun b hb hrefs => ?_⟩
    obtain ⟨hne, hs⟩ := List.ne_and_not_mem_of_not_mem_cons hrefs
    rw [modBuf_of_ne s hne]
    exact h.kept b hb hs
  have hhas (b : BufId) : ((s.modBuf s.curbp fun b =>
      { b with b_nwnd := schar (b.b_nwnd + 1) }).buffer b).Has = (s.buffer b).Has :=
    modBuf_keeps Buffer.Has s s.curbp rfl b
  have hold (w : Window) (hw : w ∈ s.above ++ s.below) : ∃ v ∈ s.wheadp, v.load = w.load :=
    ⟨w, mem_wheadp.mpr (.inr hw), rfl⟩
  have hcurwp : s.curwp ∈ s.wheadp := mem_wheadp.mpr (.inl rfl)
  split
  · refine h.reload (@Store.perm _ (s.curbp :: s.shown) _ ⟨hstore.table.of_eq rfl rfl rfl,
      hstore.fits, hstore.kept⟩ ?_) (fun w hw => ?_) hhas
    · simp only [shown, elsewhere, curbp, List.map_append, List.map_cons]
      exact (@List.perm_middle _ _ (s.above.map Window.w_bufp) _).symm.cons _
    · rcases mem_wheadp.mp hw with rfl | hw
      · exact ⟨s.curwp, hcurwp, rfl⟩
      · rcases List.mem_append.mp hw with hw | hw
        · exact hold w (List.mem_append_left _ hw)
        · rcases List.mem_cons.mp hw with rfl | hw
          · exact ⟨s.curwp, hcurwp, rfl⟩
          · exact hold w (List.mem_append_right _ hw)
  · refine h.reload ⟨hstore.table.of_eq rfl rfl rfl, hstore.fits, hstore.kept⟩ (fun w hw => ?_) hhas
    rcases mem_wheadp.mp hw with rfl | hw
    · exact ⟨s.curwp, hcurwp, rfl⟩
    · rcases List.mem_cons.mp hw with rfl | hw
      · exact ⟨s.curwp, hcurwp, rfl⟩
      · exact hold w hw

/-- `zappwind` saves the pointers of the last window on a buffer. -/
theorem countOut_store {refs : List BufId} (h : Store (s.curbp :: refs) s) (hw : s.Home s.curwp) :
    Store refs (countOut s.curwp s) := by
  refine h.release hw ?_ ?_ ?_ fun hzero => ?_
  · dsimp only
    split <;> rfl
  · dsimp only
    split <;> rfl
  · dsimp only
    split <;> rfl
  · dsimp only
    rw [if_pos hzero.le]
    exact ⟨rfl, MARKRING.mark_setMark ..⟩

theorem countOut_has (w : Window) (b : BufId) :
    ((countOut w s).buffer b).Has = (s.buffer b).Has := by
  refine modBuf_keeps Buffer.Has s w.w_bufp ?_ b
  dsimp only
  split <;> rfl

theorem zapwind_handed (h : Handed s) : Handed (zapwind s).1 := by
  have hcurwp : s.Home s.curwp := h.home _ (mem_wheadp.mpr (.inl rfl))
  unfold zapwind
  dsimp only
  split
  · next _ pp above ha =>
      have hout : Store (pp.w_bufp :: (above ++ s.below).map Window.w_bufp) (countOut s.curwp s) := by
        refine countOut_store (h.store.perm ?_) hcurwp
        simp [shown, elsewhere, curbp, ha]
      refine h.reload ⟨hout.table.of_eq rfl rfl rfl, hout.fits, hout.kept⟩ (fun w hw => ?_)
        fun b => countOut_has s.curwp b
      rcases mem_wheadp.mp hw with rfl | hw
      · exact ⟨pp, mem_wheadp.mpr (.inr (by simp [ha])), rfl⟩
      · refine ⟨w, mem_wheadp.mpr (.inr ?_), rfl⟩
        rw [ha]
        exact List.mem_cons_of_mem _ hw
  · next pp below ha hb =>
      have hout : Store (pp.w_bufp :: (s.above ++ below).map Window.w_bufp) (countOut s.curwp s) := by
        refine countOut_store (h.store.perm ?_) hcurwp
        simp only [shown, elsewhere, curbp, hb, List.map_append, List.map_cons]
        exact List.perm_middle.cons _
      refine h.reload ⟨hout.table.of_eq rfl rfl rfl, hout.fits, hout.kept⟩ (fun w hw => ?_)
        fun b => countOut_has s.curwp b
      rcases mem_wheadp.mp hw with rfl | hw
      · exact ⟨pp, mem_wheadp.mpr (.inr (by simp [hb])), rfl⟩
      · refine ⟨w, mem_wheadp.mpr (.inr ?_), rfl⟩
        rw [hb]
        rcases List.mem_append.mp hw with hw | hw
        · exact List.mem_append_left _ hw
        · exact List.mem_append_right _ (List.mem_cons_of_mem _ hw)
  · exact h.same rfl rfl rfl (by simp [wheadp, Window.load])

/-- `onlywind` counts windows out one after the other. -/
theorem foldl_addwind_store (ws : List Window) {refs : List BufId} {s : Windows}
    (h : Store (ws.map Window.w_bufp ++ refs) s) (hw : ∀ w ∈ ws, s.Home w) :
    Store refs (ws.foldl (fun s w => (addwind w (-1) s).2) s) ∧
      ∀ b, ((ws.foldl (fun s w => (addwind w (-1) s).2) s).buffer b).Has = (s.buffer b).Has := by
  induction ws generalizing s with
  | nil => exact ⟨h, fun _ => rfl⟩
  | cons w ws ih =>
      obtain ⟨hhome, hws⟩ := List.forall_mem_cons.mp hw
      have hmem : w.w_bufp ∈ s.bheadp := h.table.tally.mem _ List.mem_cons_self
      have hne : (s.buffer w.w_bufp).b_nwnd ≠ 0 := fun hzero =>
        (h.table.nwnd_eq_zero h.fits hmem).mp hzero List.mem_cons_self
      have hstep : (addwind w (-1) s).2 = s.modBuf w.w_bufp (Buffer.counted (-1) w) := by
        rw [addwind_eq, counted_eq_self hne]
      have hout : Store (ws.map Window.w_bufp ++ refs) (addwind w (-1) s).2 := by
        rw [hstep]
        refine h.release hhome (Buffer.counted_nwnd ..) (Buffer.counted_active ..)
          (Buffer.counted_has ..) fun hzero => ?_
        have hzero' : schar ((s.buffer w.w_bufp).b_nwnd + -1) = 0 := hzero
        rw [Buffer.counted, if_pos hzero']
        exact ⟨rfl, rfl⟩
      have hhas (b : BufId) : ((addwind w (-1) s).2.buffer b).Has = (s.buffer b).Has := by
        rw [hstep]
        exact modBuf_keeps Buffer.Has s w.w_bufp (Buffer.counted_has ..) b
      obtain ⟨hrest, hrhas⟩ := ih hout fun v hv => (hws v hv).congr (hhas _)
      exact ⟨hrest, fun b => (hrhas b).trans (hhas b)⟩

theorem onlywind_handed (h : Handed s) : Handed (onlywind s).1 := by
  unfold onlywind
  dsimp only
  rw [(foldl_addwind_windows _ s).2]
  set t := s.above.reverse.foldl (fun s w => (addwind w (-1) s).2) s with ht
  have hhome (w : Window) (hw : w ∈ s.above ++ s.below) : s.Home w :=
    h.home w (mem_wheadp.mpr (.inr hw))
  have hsides : s.shown.Perm (s.above.reverse.map Window.w_bufp ++
      (s.below.map Window.w_bufp ++ [s.curbp])) := by
    refine (shown_perm s).trans ?_
    simp only [wheadp, List.map_append, List.map_cons]
    exact List.Perm.append_left _ (List.perm_append_singleton _ _).symm
  obtain ⟨habove, hahas⟩ := foldl_addwind_store s.above.reverse
    (h.store.perm hsides)
    fun w hw => hhome w (List.mem_append_left _ (List.mem_reverse.mp hw))
  obtain ⟨hbelow, hbhas⟩ := foldl_addwind_store s.below habove fun w hw =>
    (hhome w (List.mem_append_right _ hw)).congr (hahas _)
  have hcur : (s.below.foldl (fun s w => (addwind w (-1) s).2) t).curwp = s.curwp :=
    (foldl_addwind_windows s.below t).1.trans (foldl_addwind_windows _ s).1
  rw [hcur]
  refine h.reload ⟨hbelow.table.of_eq rfl rfl rfl, hbelow.fits, hbelow.kept⟩ (fun w hw => ?_)
    fun b => (hbhas b).trans (hahas b)
  have hone : w = _ := List.mem_singleton.mp hw
  exact ⟨s.curwp, mem_wheadp.mpr (.inl rfl), by rw [hone]; rfl⟩

/-! ## Marks -/

/-- `pushmark` moves the marks one position up. -/
theorem pushmark_settled {c : Buffer} {w : Window} (h : w.Settled c) :
    Window.Settled c { w with w_ring := w.w_ring.pushmark w.w_dot } := by
  by_cases hnull : w.w_dot.p = null
  · have hsame : w.w_ring.pushmark w.w_dot = w.w_ring := if_pos hnull
    rw [hsame]
    exact h
  have hpush : w.w_ring.pushmark w.w_dot =
      { m_count := min (w.w_ring.m_count + 1) RINGSIZE
        m_ring := w.w_ring.pushed (min (w.w_ring.m_count + 1) RINGSIZE) w.w_dot
        count_le := Nat.min_le_right .. } := if_neg hnull
  rw [hpush]
  refine ⟨h.dot, fun _ => h.dot, fun i h0 hi => ?_⟩
  change i.val < min (w.w_ring.m_count + 1) RINGSIZE at hi
  show POS.On c.Has (w.w_ring.pushed _ w.w_dot i)
  have hne : i ≠ first := fun he => by
    rw [he] at h0
    exact absurd h0 (Nat.lt_irrefl 0)
  rw [MARKRING.pushed, if_neg hne, if_pos hi]
  by_cases hone : i.val = 1
  · have hfirst : (⟨i.val - 1, Nat.lt_of_le_of_lt (Nat.sub_le ..) i.isLt⟩ : Fin RINGSIZE) = first :=
      Fin.ext (by simp [hone, first])
    rw [hfirst]
    exact h.mark
  · exact h.older _ (by dsimp only; omega) (by dsimp only; omega)

/-- `popmark` moves them one position down, and the current one to the end. -/
theorem popmark_settled {c : Buffer} {w : Window} (h : w.Settled c) (hcount : 0 < w.w_ring.m_count)
    (hmark : w.w_mark.p ≠ null) (flag : BitVec 8) :
    Window.Settled c { w with
      w_dot := w.w_ring.popmark.1, w_ring := w.w_ring.popmark.2, w_flag := flag } := by
  have hpop : w.w_ring.popmark = (w.w_ring.mark, { w.w_ring with m_ring := w.w_ring.rotated }) :=
    if_neg hcount.ne'
  have hon (i : Fin RINGSIZE) (hi : i.val < w.w_ring.m_count) : (w.w_ring.rotated i).On c.Has := by
    unfold MARKRING.rotated
    split
    · next hlt => exact h.older _ (Nat.succ_pos _) hlt
    · split
      · exact h.mark
      · omega
  rw [hpop]
  exact ⟨h.mark hmark, hon first hcount, fun i _ hi => hon i hi⟩

theorem setmark_handed (h : Handed s) {f : Bool}
    (hmay : f = true → s.curwp.w_mark.p = null ∨ 0 < s.curwp.w_ring.m_count) :
    Handed (setmark f s).1 := by
  have hcur := h.home _ (mem_wheadp.mpr (.inl rfl))
  unfold setmark
  split
  · dsimp only
    exact h.frame rfl (pushmark_settled hcur)
  · next hf =>
    split
    · exact h
    · next hmark =>
      have hcount := (hmay (by simpa using hf)).resolve_left hmark
      dsimp only
      exact h.frame rfl (popmark_settled hcur hcount hmark _)

theorem swapmark_handed (h : Handed s) : Handed (swapmark s).1 := by
  have hcur := h.home _ (mem_wheadp.mpr (.inl rfl))
  unfold swapmark
  split
  · exact h
  · next hmark =>
    dsimp only
    refine h.frame rfl ⟨hcur.mark hmark, ?_, hcur.older.setMark _⟩
    have hset : (s.curwp.w_ring.setMark s.curwp.w_dot).mark = s.curwp.w_dot := MARKRING.mark_setMark ..
    intro _
    exact hset ▸ hcur.dot

theorem movedot_handed (h : Handed s) (i o : Nat) : Handed (movedot i o s) := by
  have hcur := h.home _ (mem_wheadp.mpr (.inl rfl))
  unfold movedot
  refine h.frame rfl ⟨?_, hcur.mark, hcur.older⟩
  show (s.buffer s.curbp).Has ((s.buffer s.curbp).lines.getD i (s.buffer s.curbp).b_linep)
  rw [List.getD_eq_getElem?_getD]
  cases hline : (s.buffer s.curbp).lines[i]? with
  | none => exact .inl rfl
  | some lp => exact .inr (List.mem_of_getElem? hline)

/-! ## Saving -/

theorem writeout_handed (h : Handed s) (o : SaveOutcome) : Handed (writeout bp o s).1 := by
  unfold writeout
  dsimp only
  split
  · refine Windows.Handed.nextline (h.grow rfl (fun ha => ha) (fun lp hlp => ?_) rfl rfl) _
    exact hlp.imp_right fun hm => List.mem_append_left _ hm
  · exact h

theorem useundo_handed (h : Handed s) : Post (useundo bp s) Handed := by
  unfold useundo
  split
  · exact (post_ok s).mpr h
  · exact post_error _

theorem killundo_handed (h : Handed s) : Post (killundo bp s) Handed :=
  (useundo_handed h).bind fun _ ht => (post_pure _).mpr
    (ht.grow rfl (fun ha => ha) (fun _ hlp => hlp) rfl rfl)

theorem unchanged_handed (h : Handed s) (chg : Bool) :
    Handed (s.modBuf bp fun b => { b with bfchg := chg }) :=
  h.grow rfl (fun ha => ha) (fun _ hlp => hlp) rfl rfl

theorem replay_handed (h : Handed s) (chg : Bool) : Post (replay chg s) fun r => Handed r.1 := by
  refine (useundo_handed h).bind fun t ht => (post_pure _).mpr ?_
  dsimp only
  exact unchanged_handed ht chg

theorem filesave_handed (h : Handed s) (o : SaveOutcome) :
    Post (filesave bp o s) fun r => Handed r.1 := by
  unfold filesave
  dsimp only
  split
  · exact (post_ok _).mpr h
  split
  · exact (post_ok _).mpr h
  split
  · exact (post_ok _).mpr h
  split
  · split
    · exact (post_ok _).mpr h
    · exact (useundo_handed (unchanged_handed h false)).bind fun _ ht => (post_pure _).mpr ht
  · refine (useundo_handed ?_).bind fun _ ht => (post_pure _).mpr ht
    split
    · exact unchanged_handed (writeout_handed h o) false
    · exact writeout_handed h o

theorem saveTour_handed (ask : BufId → Option Bool) (o : BufId → SaveOutcome) (bps : List BufId)
    {s : Windows} (h : Handed s) : Post (saveTour ask o bps s) fun r => Handed r.1 := by
  induction bps generalizing s with
  | nil => exact (post_ok _).mpr h
  | cons bp bps ih =>
      unfold saveTour
      split
      · exact ih h
      · split
        · exact (post_ok _).mpr h
        · exact ih h
        · refine (filesave_handed h (o bp)).bind fun r hr => ?_
          obtain ⟨t, ok⟩ := r
          cases ok with
          | false => exact (post_pure _).mpr hr
          | true => exact ih hr

theorem filewrite_handed (h : Handed s) (fname : String) (o : SaveOutcome) :
    Handed (filewrite fname o s).1 := by
  unfold filewrite
  split
  · exact h
  · dsimp only
    split
    · exact (writeout_handed h o).grow rfl (fun ha => ha) (fun _ hlp => hlp) rfl rfl
    · exact writeout_handed h o

end Commands

/-! ## Buffers that go, and text that is read again -/

section Texts

variable {s : Windows} {bp b : BufId} {io : ReadIo}

/-- No window is left on a buffer that goes. -/
theorem zotbuf_handed (h : Handed s) (hbp : bp ∈ s.bheadp) (discard : Bool) :
    Post (zotbuf bp discard s) fun r => Handed r.1 := by
  unfold zotbuf
  split
  · exact (post_ok _).mpr h
  next hzero =>
  have hshown : bp ∉ s.shown :=
    (Table.nwnd_eq_zero h.table h.fits hbp).mp (not_not.mp hzero)
  have hcalm := calm_bclear s bp discard
  have hclear : Handed (bclear bp discard s).1 := by
    cases hok : (bclear bp discard s).2 with
    | false =>
        rw [bclear_refused hok]
        exact h
    | true =>
        refine bclear_handed (h.but bp) (fun w hw hwbp => ?_) hok
        exact absurd (mem_shown.mpr ⟨w, hw, hwbp⟩) hshown
  dsimp only
  split
  · exact (post_ok _).mpr hclear
  · refine (killundo_handed ?_).bind fun _ ht => (post_pure _).mpr ht
    exact ⟨Table.erase hclear.table (hcalm.shown ▸ hshown), hclear.fits, hclear.home,
      fun b hb hs => hclear.kept b (List.mem_of_mem_erase hb) hs⟩

/-- The window may go to the buffer that `killbuffer` finds for it. -/
def MayKill (bp : BufId) (s : Windows) : Prop :=
  match s.bheadp.find? fun b => b ≠ bp with
  | some b => MaySwitch b s
  | none => (findbuf "main" s).isSome ∨ s.curwp.w_ring.Older fun _ => False

theorem newbuf_maySwitch (hold : s.curwp.w_ring.Older fun _ => False) (bname : String) :
    MaySwitch s.nextbuf (newbuf bname s) := by
  refine .inr ⟨hold, ?_⟩
  rw [newbuf_buffer_self]
  show (0 : Int) < 127
  decide

theorem alternate_handed (h : Handed s) (bp : BufId) :
    Handed (alternate bp s).2 ∧ (alternate bp s).1 ∈ (alternate bp s).2.bheadp := by
  refine ⟨?_, (alternate_counted h.table bp).2⟩
  unfold alternate
  split
  · exact h
  · exact getscratch_handed h

theorem alternate_maySwitch (h : Handed s) (hmay : MayKill bp s) :
    MaySwitch (alternate bp s).1 (alternate bp s).2 := by
  cases hfind : s.bheadp.find? fun b => b ≠ bp with
  | some b =>
      have halt : alternate bp s = (b, s) := by rw [alternate, hfind]
      rw [MayKill, hfind] at hmay
      rw [halt]
      exact hmay
  | none =>
      have hall (b : BufId) (hb : b ∈ s.bheadp) : b = bp := by
        simpa using List.find?_eq_none.mp hfind b hb
      have hcur : s.curbp = bp := hall _ (h.table.tally.mem _ List.mem_cons_self)
      have halt : alternate bp s = getscratch s := by rw [alternate, hfind]
      rw [MayKill, hfind] at hmay
      rw [halt]
      cases hmain : findbuf "main" s with
      | some b =>
          have hscratch : (getscratch s).1 = b := by rw [getscratch, hmain]
          exact .inl (hscratch.trans ((hall b (findbuf_mem hmain)).trans
            (by rw [getscratch, hmain]; exact hcur.symm)))
      | none =>
          have hscratch : getscratch s = (s.nextbuf, newbuf "main" s) := by rw [getscratch, hmain]
          rw [hmain] at hmay
          rw [hscratch]
          exact newbuf_maySwitch (hmay.resolve_left nofun) "main"

theorem killbuf_handed (h : Handed s) (hbp : bp ∈ s.bheadp) (hmay : MayKill bp s) (discard : Bool)
    (io : ReadIo) : Post (killbuf bp discard io s) fun r => Handed r.1 := by
  obtain ⟨halt, hmem⟩ := alternate_handed h bp
  have hsw := swbuffer_handed halt hmem (alternate_maySwitch h hmay) io
  refine zotbuf_handed hsw ?_ discard
  rw [swbuffer_eq io halt.table hmem, enter_bheadp]
  exact alternate_bheadp hbp

/-- `bfind` does not touch the windows. -/
theorem mayKill_activate (hmay : MayKill bp s) (b : BufId) :
    MayKill bp (s.modBuf b fun b => { b with b_active := true }) := by
  have hname : findbuf "main" (s.modBuf b fun b => { b with b_active := true }) =
      findbuf "main" s := by
    unfold findbuf
    refine congrArg (fun p => List.find? p s.bheadp) (funext fun b' => ?_)
    rw [modBuf_keeps Buffer.b_bname s b rfl b']
  unfold MayKill MaySwitch at hmay ⊢
  rw [hname]
  split
  · next b' hb' =>
    change s.bheadp.find? _ = _ at hb'
    rw [hb'] at hmay
    rw [modBuf_keeps Buffer.b_nwnd s b rfl b']
    exact hmay
  · next hb' =>
    change s.bheadp.find? _ = _ at hb'
    rw [hb'] at hmay
    exact hmay

theorem killbuffer_handed (h : Handed s) {name : Option String}
    (hmay : ∀ bp, (match name with | none => some s.curbp | some bname => findbuf bname s) = some bp →
      MayKill bp s) (discard : Bool) (io : ReadIo) :
    Post (killbuffer name discard io s) fun r => Handed r.1 := by
  unfold killbuffer
  split
  · exact killbuf_handed h (h.table.tally.mem _ List.mem_cons_self) (hmay _ rfl) discard io
  · next bname =>
    split
    · next bp hbp =>
      have hmem : bp ∈ s.bheadp := findbuf_mem hbp
      exact killbuf_handed (h.grow rfl (fun _ => rfl) (fun _ hlp => hlp) rfl rfl) hmem
        (mayKill_activate (hmay _ hbp) bp) discard io
    · exact (post_ok _).mpr h

theorem revertbuffer_handed (h : Handed s) (hmay : MayRead s.curbp io s) (aborted : Bool) :
    Post (revertbuffer aborted io s) fun r => Handed r.1 := by
  unfold revertbuffer
  dsimp only
  split
  · exact (post_ok _).mpr h
  · have hread : Handed (readin s.curbp { io with fname := (s.buffer s.curbp).b_fname } s).1 :=
      reread_handed h hmay
    split
    · exact (post_ok _).mpr hread
    · exact (useundo_handed (unchanged_handed hread false)).bind fun _ ht => (post_pure _).mpr ht

/-- The older marks of the windows on the buffer are at lines that stay. -/
def MayRelay (bp : BufId) (n : Nat) (s : Windows) : Prop :=
  n = 0 ∨ ∀ w ∈ s.wheadp, w.w_bufp = bp →
    w.w_ring.Older fun lp => lp = (s.buffer bp).b_linep ∨ lp ∈ (s.buffer bp).lines.drop n

theorem hexlrelay_handed (h : Handed s) {n : Nat} (hmay : MayRelay bp n s) (o : Nat) :
    Handed (hexlrelay bp n o s) := by
  unfold hexlrelay
  split
  · exact h
  next hn =>
  have hfirst : s.nextline ∈ List.range' s.nextline n ++ (s.buffer bp).lines.drop n := by
    refine List.mem_append_left _ (List.mem_range'_1.mpr ⟨le_rfl, ?_⟩)
    omega
  refine (reset_handed (s := s) (f := fun b => { b with
      lines := List.range' s.nextline n ++ b.lines.drop n
      b_dot := { b.b_dot with p := s.nextline }, b_ring := b.b_ring.setMark nullpos })
    (g := fun w => if w.w_bufp = bp then Window.redraw { w with
      w_linep := s.nextline, w_dot := ⟨s.nextline, o⟩, w_ring := w.w_ring.setMark nullpos } else w)
    (h.but bp) rfl rfl ?_ (fun w => ?_) (fun w hw => ?_) fun w hw hwbp => ?_).nextline (s.nextline + n)
  · exact ⟨.inr hfirst, by
      rw [Buffer.b_mark, MARKRING.mark_setMark]
      exact POS.on_nullpos _⟩
  · split <;> rfl
  · exact if_neg hw
  · rw [if_pos hwbp]
    refine settled_of_reset (.inr hfirst) rfl ((hmay.resolve_left hn w hw hwbp).mono fun lp hlp => ?_)
    exact hlp.imp_right fun hm => List.mem_append_right _ hm

theorem hexlchangeLines_handed (h : Handed s) {parses trailing : Bool}
    (hmay : (s.buffer s.curbp).bfhexl = true → parses = true → MayRelay s.curbp
      (if trailing then (s.buffer s.curbp).lines.length - 1 else (s.buffer s.curbp).lines.length) s)
    (o : Nat) : Post (hexlchangeLines parses trailing o s) fun r => Handed r.1 := by
  unfold hexlchangeLines
  dsimp only
  split
  · exact (post_ok _).mpr h
  next hgo =>
  simp only [Bool.or_eq_true, Bool.not_eq_true', not_or, Bool.not_eq_false] at hgo
  unfold killundo useundo
  split
  · refine (post_ok _).mpr ?_
    refine hexlrelay_handed (h.grow rfl (fun ha => ha) (fun _ hlp => hlp) rfl rfl) ?_ o
    have hlay := hmay hgo.1 hgo.2
    unfold MayRelay at hlay ⊢
    rw [modBuf_keeps Buffer.lines s s.curbp rfl, modBuf_keeps Buffer.b_linep s s.curbp rfl]
    exact hlay
  · exact post_error _

/-! ## Files -/

/-- The window may visit a new buffer: its name passes the checks, and the window
brings no older mark. -/
def MayVisitNew (io : ReadIo) (s : Windows) : Prop :=
  io.named = true ∧ s.curwp.w_ring.Older fun _ => False

/-- The condition for `getfile` and `visit_file`; `old` is that for a file that has
a buffer. -/
def MayFind (old : BufId → Windows → Prop) (name : Option String) (io : ReadIo) (s : Windows) :
    Prop :=
  io.fname ≠ "" →
    match filebuf io.fname s with
    | some bp => old bp s
    | none => ∀ bname, name = some bname →
        match findbuf bname s with
        | some bp => MayVisit bp io s
        | none => MayVisitNew io s

/-- `bfind` gives a buffer that the file may be read into. -/
theorem bfind_mayVisit (h : Handed s) {bname : String}
    (hmay : match findbuf bname s with
      | some bp => MayVisit bp io s
      | none => MayVisitNew io s) :
    MayVisit (bfind bname s).1 io (bfind bname s).2 := by
  unfold bfind
  cases hfind : findbuf bname s with
  | some bp =>
      rw [hfind] at hmay
      have hclears : Clears bp io.discard (s.modBuf bp fun b => { b with b_active := true }) ↔
          Clears bp io.discard s := by
        unfold Clears
        rw [modBuf_self]
      have hclear : MayClear bp s → MayClear bp (s.modBuf bp fun b => { b with b_active := true }) :=
        fun hm => mayClear_modBuf hm rfl
      dsimp only at hmay ⊢
      unfold MayVisit MayRead at hmay ⊢
      change if bp = s.curbp then _ else _
      split at hmay
      · next hcur =>
        rw [if_pos hcur]
        exact fun hnamed hc => hclear (hmay hnamed (hclears.mp hc))
      · next hcur =>
        rw [if_neg hcur, modBuf_self]
        obtain ⟨hnamed, hc, hm, hold, hn⟩ := hmay
        exact ⟨hnamed, hclears.mpr hc, hclear hm, hold, hn⟩
  | none =>
      rw [hfind] at hmay
      have hcur : s.nextbuf ≠ s.curbp :=
        (h.table.fresh _ (h.table.tally.mem _ List.mem_cons_self)).ne'
      have hfresh (w : Window) (hw : w ∈ s.wheadp) : w.w_bufp ≠ s.nextbuf :=
        (h.table.fresh _ (h.table.tally.mem _ (mem_shown.mpr ⟨w, hw, rfl⟩))).ne
      dsimp only at hmay ⊢
      unfold MayVisit
      change if s.nextbuf = s.curbp then _ else _
      rw [if_neg hcur, newbuf_buffer_self]
      refine ⟨hmay.1, fun hchg => ?_, fun w hw hwbp => absurd hwbp (hfresh w hw), hmay.2, by
        show (0 : Int) < 127
        decide⟩
      rw [newbuf_buffer_self] at hchg
      cases hchg

theorem getfile_handed (h : Handed s) {name : Option String} (hmay : MayFind MaySwitch name io s) :
    Handed (getfile name io s).1 := by
  unfold getfile
  split
  · exact h
  next hfname =>
  have hgo := hmay hfname
  cases hfile : filebuf io.fname s with
  | some bp =>
      rw [hfile] at hgo
      exact swbuffer_handed h (filebuf_mem hfile) hgo io
  | none =>
      rw [hfile] at hgo
      cases name with
      | none => exact h
      | some bname =>
          have hfind := bfind_handed h bname
          exact newfile_handed hfind (bfind_table h.table bname).2 (bfind_mayVisit h (hgo bname rfl))
            (undisplay_left hfind)

theorem visit_file_handed (h : Handed s) {name : Option String} (hmay : MayFind MayUse name io s) :
    Handed (visit_file name io s).1 := by
  unfold visit_file
  split
  · exact h
  next hfname =>
  have hgo := hmay hfname
  cases hfile : filebuf io.fname s with
  | some bp =>
      rw [hfile] at hgo
      exact visitOld_handed h (filebuf_mem hfile) hgo
  | none =>
      rw [hfile] at hgo
      cases name with
      | none => exact h
      | some bname =>
          have hfind := bfind_handed h bname
          exact newfile_handed hfind (bfind_table h.table bname).2 (bfind_mayVisit h (hgo bname rfl))
            (addcur_left hfind)

end Texts

/-! ## The condition on an action -/

/-- A buffer that is looked for by its name. -/
def IfFound (bname : String) (old : BufId → Windows → Prop) (new : Prop) (s : Windows) : Prop :=
  match findbuf bname s with
  | some bp => old bp s
  | none => new

/-- What a command may meet. -/
def Command.Careful (c : Command) (s : Windows) : Prop :=
  match c with
  | .splitwind => s.curwp.w_ntrows < 3 ∨ (s.buffer s.curbp).b_nwnd < 127
  | .setmark f => f = true → s.curwp.w_mark.p = null ∨ 0 < s.curwp.w_ring.m_count
  | .usebuffer bname => IfFound bname MayUse True s
  | .nextbuffer => MayUse (bufafter s) s
  | .prevbuffer => MayUse (bufbefore s) s
  | .swbuffer bp _ => bp ∈ s.bheadp → MaySwitch bp s
  | .getfile name io => MayFind MaySwitch name io s
  | .visit_file name io => MayFind MayUse name io s
  | .killbuffer none _ _ => MayKill s.curbp s
  | .killbuffer (some bname) _ _ => IfFound bname MayKill True s
  | .fileread io => MayRead s.curbp io s
  | .bclear bp discard => bp ∈ s.bheadp → Clears bp discard s → MayClear bp s
  | .revertbuffer _ io => MayRead s.curbp io s
  | .hexlchange parses trailing _ =>
      (s.buffer s.curbp).bfhexl = true → parses = true → MayRelay s.curbp
        (if trailing then (s.buffer s.curbp).lines.length - 1 else (s.buffer s.curbp).lines.length) s
  | _ => True

/-- What a call from Lisp may meet. -/
def Call.Careful (c : Call) (s : Windows) : Prop :=
  match c with
  | .switchtobuffer bname _ => IfFound bname MaySwitch (s.curwp.w_ring.Older fun _ => False) s
  | .findfile name io => MayFind MayUse name io s
  | .savebuffer _ => True

/-- The condition on an action and the state that it meets: a window that gets
another buffer brings no older marks with it, unless they are replaced by good ones,
lines with such marks do not go, and no counter gets to 128. -/
def Careful (e : Action) (s : Windows) : Prop :=
  match e with
  | .key c => c.Careful s
  | .call c => c.Careful s

section Step

variable {s : Windows}

theorem bfind_found {bname : String} {old : BufId → Windows → Prop} {new : Prop}
    (hmay : IfFound bname old new s)
    (hold : ∀ bp, old bp s → old bp (s.modBuf bp fun b => { b with b_active := true }))
    (hnew : new → old s.nextbuf (newbuf bname s)) : old (bfind bname s).1 (bfind bname s).2 := by
  unfold IfFound at hmay
  unfold bfind
  cases hfind : findbuf bname s with
  | some bp =>
      rw [hfind] at hmay
      exact hold bp hmay
  | none =>
      rw [hfind] at hmay
      exact hnew hmay

theorem mayUse_activate {bp : BufId} (h : MayUse bp s) :
    MayUse bp (s.modBuf bp fun b => { b with b_active := true }) := by
  unfold MayUse
  rw [modBuf_self]
  exact h

theorem maySwitch_activate {bp : BufId} (h : MaySwitch bp s) :
    MaySwitch bp (s.modBuf bp fun b => { b with b_active := true }) := by
  unfold MaySwitch
  rw [modBuf_self]
  exact h

theorem newbuf_mayUse (s : Windows) (bname : String) : MayUse s.nextbuf (newbuf bname s) := by
  refine .inr ?_
  rw [newbuf_buffer_self]
  have hzero : (bcreate bname s.nextline (s.nextline + 1)).b_nwnd = 0 := rfl
  rw [if_pos hzero, hzero]
  exact ⟨by decide, fun i _ hi => absurd hi (Nat.not_lt_zero _)⟩

/-- **One command.** -/
theorem Command.run_handed (c : Command) (h : Handed s) (hc : c.Careful s) :
    Post (c.run s) fun r => Handed r.1 := by
  have hcur : s.curbp ∈ s.bheadp := h.table.tally.mem _ List.mem_cons_self
  have hne : s.bheadp ≠ [] := List.ne_nil_of_mem hcur
  cases c with
  | nextwind => exact (post_ok _).mpr (h.turned (turned_nextwind s))
  | prevwind => exact (post_ok _).mpr (h.turned (turned_prevwind s))
  | onlywind => exact (post_ok _).mpr (onlywind_handed h)
  | splitwind => exact (post_ok _).mpr (splitwind_handed h hc)
  | enlargewind n => exact (post_ok _).mpr (enlargewind_handed n h)
  | shrinkwind n => exact (post_ok _).mpr (shrinkwind_handed n h)
  | balancewindows => exact (post_ok _).mpr (balancewindows_handed h)
  | zapwind => exact (post_ok _).mpr (zapwind_handed h)
  | setmark f => exact (post_ok _).mpr (setmark_handed h hc)
  | swapmark => exact (post_ok _).mpr (swapmark_handed h)
  | movedot i o => exact (post_ok _).mpr (movedot_handed h i o)
  | usebuffer bname =>
      exact (post_ok _).mpr (usebuf_handed (bfind_handed h bname) (bfind_table h.table bname).2
        (bfind_found hc (fun _ => mayUse_activate) fun _ => newbuf_mayUse s bname))
  | nextbuffer => exact (post_ok _).mpr (usebuf_handed h (bufafter_mem hne) hc)
  | prevbuffer => exact (post_ok _).mpr (usebuf_handed h (bufbefore_mem hne) hc)
  | swbuffer bp io =>
      dsimp only [Command.run]
      split
      · next hbp => exact (post_ok _).mpr (swbuffer_handed h hbp (hc hbp) io)
      · exact (post_ok _).mpr h
  | getfile name io => exact (post_ok _).mpr (getfile_handed h hc)
  | visit_file name io => exact (post_ok _).mpr (visit_file_handed h hc)
  | killbuffer name discard io =>
      refine killbuffer_handed h (fun bp hbp => ?_) discard io
      cases name with
      | none => exact Option.some.inj hbp ▸ hc
      | some bname =>
          change IfFound bname MayKill True s at hc
          rw [IfFound, show findbuf bname s = some bp from hbp] at hc
          exact hc
  | fileread io => exact (post_ok _).mpr (reread_handed h hc)
  | bclear bp discard =>
      dsimp only [Command.run]
      split
      · next hbp =>
        refine (post_ok _).mpr ?_
        cases hok : (Emacs.bclear bp discard s).2 with
        | false =>
            rw [bclear_refused hok]
            exact h
        | true => exact bclear_handed (h.but bp) (hc hbp ((bclear_ok_iff discard).mp hok)) hok
      · exact (post_ok _).mpr h
  | edit => exact replay_handed h true
  | undo chg => exact replay_handed h chg
  | redo => exact replay_handed h true
  | unmark => exact (post_ok _).mpr (unchanged_handed h false)
  | filesave o => exact filesave_handed h o
  | filewrite fname o => exact (post_ok _).mpr (filewrite_handed h fname o)
  | filesaveall ask o => exact saveTour_handed ask o _ h
  | quickexit o => exact saveTour_handed _ o _ h
  | revertbuffer aborted io => exact revertbuffer_handed h hc aborted
  | hexlchange parses trailing o => exact hexlchangeLines_handed h hc o

theorem Call.run_handed (c : Call) (h : Handed s) (hc : c.Careful s) :
    Post (c.run s) fun r => Handed r.1 := by
  cases c with
  | switchtobuffer bname io =>
      exact (post_ok _).mpr (swbuffer_handed (bfind_handed h bname) (bfind_table h.table bname).2
        (bfind_found hc (fun _ => maySwitch_activate) fun hold => newbuf_maySwitch hold bname) io)
  | findfile name io => exact (post_ok _).mpr (visit_file_handed h hc)
  | savebuffer o => exact filesave_handed h o

/-- The undo stacks do not matter. -/
theorem Command.careful_undo (c : Command) (u : BufId → Bool) :
    c.Careful { s with buffer := fun b => { s.buffer b with b_undo := u b } } ↔ c.Careful s := by
  cases c with
  | killbuffer name discard io => cases name <;> exact Iff.rfl
  | _ => exact Iff.rfl

theorem startsaveundo_eq (s : Windows) : ∃ u : BufId → Bool,
    startsaveundo s = { s with buffer := fun b => { s.buffer b with b_undo := u b } } := by
  refine ⟨fun b => ((startsaveundo s).buffer b).b_undo, ?_⟩
  have hbuf : (startsaveundo s).buffer =
      fun b => { s.buffer b with b_undo := ((startsaveundo s).buffer b).b_undo } :=
    funext fun b => startsaveundo_buffer b
  exact congrArg (fun f => ({ s with buffer := f } : Windows)) hbuf

/-- **One action.** -/
theorem act_handed (e : Action) (h : Handed s) (hc : Careful e s) : Post (act e s) Handed := by
  cases e with
  | key c =>
      have hs : Handed (startsaveundo s) :=
        h.grow rfl (fun ha => ha) (fun _ hlp => hlp) rfl rfl
      have hc' : c.Careful (startsaveundo s) := by
        obtain ⟨u, hu⟩ := startsaveundo_eq s
        rw [hu]
        exact (c.careful_undo u).mpr hc
      exact (c.run_handed hs hc').bind fun _ hr => (post_pure _).mpr hr
  | call c => exact (c.run_handed h hc).bind fun _ hr => (post_pure _).mpr hr

end Step

/-! ## The start -/

/-- A ring without older marks. -/
theorem older_of_count {r : MARKRING} {P : LineId → Prop} (h : r.m_count = 0) : r.Older P :=
  fun i _ hi => absurd (h ▸ hi) (Nat.not_lt_zero i.val)

theorem bufinit_handed (nrow : Int) (bname : String) : Handed (bufinit nrow bname) where
  table := bufinit_counted nrow bname
  fits := fun b => by
    have hle : [0].count b ≤ [0].length := List.count_le_length
    exact hle.trans (by decide)
  home := fun w hw => by
    have hone : w = newwind 0 2 0 (nrow - 0 - 2) := List.mem_singleton.mp hw
    subst hone
    exact ⟨.inr List.mem_cons_self, POS.on_nullpos _, older_of_count rfl⟩
  kept := fun b hb hs => absurd hb hs

theorem readin_first_handed (nrow : Int) (a : FileArg) :
    Handed (readin 0 a.io (bufinit nrow a.bname)).1 := by
  refine reread_handed (bufinit_handed nrow a.bname) fun _ _ w hw _ => ?_
  have hone : w = newwind 0 2 0 (nrow - 0 - 2) := List.mem_singleton.mp hw
  subst hone
  exact older_of_count rfl

/-- The second buffer has the lower window, which is new. -/
theorem readin_second_handed {s : Windows} (h : Handed s) (honly : s.only = true) (a : FileArg) :
    Handed (readin s.nextbuf a.io (bufinitSecond a.bname s)).1 := by
  obtain ⟨habove, hbelow⟩ : s.above = [] ∧ s.below = [] := by
    simpa [only] using honly
  have hcur : s.curbp < s.nextbuf := h.table.fresh _ (h.table.tally.mem _ List.mem_cons_self)
  have hnew := newbuf_handed h a.bname
  have hshown : (bufinitSecond a.bname s).shown = [s.curbp, s.nextbuf] := by
    simp [bufinitSecond, shown, elsewhere, newbuf, modBuf, habove, newwind, curbp]
  have hold (b : BufId) (hne : b ≠ s.nextbuf) : (bufinitSecond a.bname s).buffer b = s.buffer b :=
    (modBuf_of_ne (newbuf a.bname s) hne fun b => { b with b_nwnd := 1 }).trans
      (newbuf_buffer s hne a.bname)
  have hwind : (bufinitSecond a.bname s).wheadp =
      [{ s.curwp with w_ntrows := s.nrow.tdiv 2 - 1 }, newwind s.nextbuf
        ((bufinitSecond a.bname s).buffer s.nextbuf).firstline (s.nrow.tdiv 2)
        (s.nrow - s.nrow.tdiv 2 - 2)] := by
    simp [bufinitSecond, wheadp, newbuf, modBuf, habove]
  have hsecond : Handed (bufinitSecond a.bname s) := by
    refine ⟨bufinitSecond_counted h.table honly a.bname, fun b => ?_, fun w hw => ?_, fun b hb hs => ?_⟩
    · have hle := List.count_le_length (a := b) (l := (bufinitSecond a.bname s).shown)
      rw [hshown] at hle ⊢
      exact hle.trans (Nat.le_of_ble_eq_true rfl)
    · rw [hwind] at hw
      rcases List.mem_cons.mp hw with rfl | hw
      · have hhome := h.home _ (mem_wheadp.mpr (.inl rfl))
        show Window.Settled ((bufinitSecond a.bname s).buffer s.curbp) _
        rw [hold _ hcur.ne]
        exact ⟨hhome.dot, hhome.mark, hhome.older⟩
      · rw [List.mem_singleton.mp hw]
        exact ⟨Buffer.has_firstline _, POS.on_nullpos _, older_of_count rfl⟩
    · rw [hshown] at hs
      have hne : b ≠ s.nextbuf := fun he => hs (by simp [he])
      have hb' : b ∈ s.bheadp := (List.mem_cons.mp hb).resolve_left hne
      have hs' : b ∉ s.shown := fun hm => by
        rw [shown, elsewhere, habove, hbelow] at hm
        exact hs (by simpa using Or.inl (List.mem_singleton.mp hm))
      rw [hold b hne]
      exact h.kept b hb' hs'
  refine reread_handed hsecond fun _ _ w hw hwbp => ?_
  rw [hwind] at hw
  rcases List.mem_cons.mp hw with rfl | hw
  · exact absurd hwbp hcur.ne
  · rw [List.mem_singleton.mp hw]
    exact older_of_count rfl

theorem otherFiles_handed (files : List FileArg) {s : Windows} (h : Handed s) :
    Handed (otherFiles files s) := by
  induction files generalizing s with
  | nil => exact h
  | cons a files ih =>
      refine ih (reread_handed (newbuf_handed h a.bname) fun _ _ w hw hwbp => ?_)
      have hmem : w.w_bufp ∈ s.bheadp := h.table.tally.mem _ (mem_shown.mpr ⟨w, hw, rfl⟩)
      exact absurd hwbp (h.table.fresh _ hmem).ne

theorem startup_handed (nrow : Int) (files : List FileArg) : Handed (startup nrow files) := by
  match files with
  | [] => exact bufinit_handed nrow "main"
  | [a] => exact readin_first_handed nrow a
  | a :: a' :: files =>
      have hcalm := calm_readin (bufinit nrow a.bname) 0 a.io
      have honly : (readin 0 a.io (bufinit nrow a.bname)).1.only = true := by
        simp only [only, Bool.and_eq_true, List.isEmpty_iff]
        exact ⟨List.map_eq_nil_iff.mp hcalm.above, List.map_eq_nil_iff.mp hcalm.below⟩
      exact otherFiles_handed files (readin_second_handed (readin_first_handed nrow a) honly a')

/-- **Windows stay with their buffers.**  In every run whose actions all meet the
condition, each buffer counts the windows that show it, and dots and marks are at
lines of the window's own buffer. -/
theorem handover_coherent {nrow : Int} {files : List FileArg} {s : Windows}
    (hrun : Runs nrow files Careful s) : Coherent s := by
  obtain ⟨es, hrun⟩ := hrun
  exact (hrun.preserves Handed (fun e _ _ hs hok hstep => act_handed e hs hok _ hstep)
    (startup_handed nrow files)).coherent

/-- A text file on the command line. -/
def textArg (name : String) : FileArg := ⟨name, true, true, name, .lines 3 true false⟩

/-- Two files, each in a window. -/
def twoFiles : List FileArg := [textArg "a", textArg "b"]

/-- A window with one mark may go to a buffer that another window shows. -/
theorem handover_coherent_one_mark : ∃ s, Runs 24 twoFiles Careful s ∧
    s.curbp = 1 ∧ Coherent s := by
  obtain ⟨s, hs, hp⟩ := exists_of_passes
    (x := exec act [.key (.setmark false)] (startup 24 twoFiles))
    (p := fun s => findbuf "b" s == some 1 && (s.buffer 1).b_nwnd == 1 &&
      s.curwp.w_ring.m_count == 1 &&
      passes (act (.key (.usebuffer "b")) s) fun t => t.curbp == 1) (by decide)
  simp only [Bool.and_eq_true, beq_iff_eq] at hp
  obtain ⟨⟨⟨hfind, hnwnd⟩, hcount⟩, huse⟩ := hp
  obtain ⟨t, ht, hcur⟩ := exists_of_passes huse
  have hfirst : Run act Careful (startup 24 twoFiles) [.key (.setmark false)] s := by
    refine (Run.exec.mpr hs).guarded fun e he s => ?_
    rw [List.mem_singleton.mp he]
    exact fun hf => absurd hf Bool.false_ne_true
  have hcareful : Careful (.key (.usebuffer "b")) s := by
    show IfFound "b" MayUse True s
    rw [IfFound, hfind]
    refine .inr ⟨hnwnd ▸ by decide, ?_⟩
    rw [if_neg (hnwnd ▸ by decide)]
    intro i h0 hi
    omega
  have hrun : Runs 24 twoFiles Careful t := ⟨_, hfirst.append (Run.cons hcareful ht (Run.nil t))⟩
  exact ⟨t, hrun, by simpa using hcur, handover_coherent hrun⟩

/-- The second mark of the ring is at a line of the buffer. -/
def secondMarkHome (s : Windows) : Bool :=
  let b := s.buffer s.curbp
  let lp := (s.curwp.w_ring.m_ring ⟨1, by decide⟩).p
  lp == null || lp == b.b_linep || b.lines.contains lp

/-- Two marks in a buffer, then another buffer: the older mark stays behind. -/
theorem handover_coherent_two_marks : ¬ ∀ nrow files s, Runs nrow files Any s → Coherent s := by
  intro h
  obtain ⟨s, hs, hp⟩ := exists_of_passes
    (x := exec act [.key (.setmark false), .key (.setmark false), .key (.usebuffer "b")]
      (startup 24 twoFiles))
    (p := fun s => decide (1 < s.curwp.w_ring.m_count) && !secondMarkHome s) (by decide)
  simp only [Bool.and_eq_true, decide_eq_true_eq, Bool.not_eq_true'] at hp
  obtain ⟨hcount, hhome⟩ := hp
  have hmarks := (h 24 twoFiles s ⟨_, Run.exec.mpr hs⟩).marks _ (mem_wheadp.mpr (.inl rfl))
    ⟨1, by decide⟩ hcount
  simp only [secondMarkHome, Bool.or_eq_false_iff, beq_eq_false_iff_ne, List.contains_eq_mem,
    decide_eq_false_iff_not] at hhome
  rcases hmarks hhome.1.1 with hlp | hlp
  · exact hhome.1.2 hlp
  · exact hhome.2 hlp

end Emacs
