import Zzdwm.Emacs.Frames
import Zzdwm.Emacs.Tiling
import Zzdwm.Lib.RefCount

/-!
# How many windows show a buffer

`b_nwnd` is a `char` that counts the windows on a buffer: every command keeps the
count, as far as a `char` can hold it.

* `Table`, `Counted` — the buffers in the list, with their counters;
* `Counted.swbuffer`, `Counted.usebuf`, … — the routines that hand a window over;
* `Command.run_counted`, `act_counted` — one command, one action.
-/

namespace Emacs

open Machine RefCount

theorem wraps_schar : Wraps schar where
  zero := rfl
  add := fun _ _ => Int.bmod_add_bmod ..

namespace Windows

/-- What the other windows show. -/
def elsewhere (s : Windows) : List BufId := (s.above ++ s.below).map Window.w_bufp

/-- What the windows show, the current one first. -/
def shown (s : Windows) : List BufId := s.curbp :: s.elsewhere

/-- The counters of the buffers. -/
def nwnds (s : Windows) : BufId → Int := fun b => (s.buffer b).b_nwnd

/-- The buffers in the list are active and count the references to them. -/
structure Table (refs : List BufId) (s : Windows) : Prop where
  tally : Tally schar s.bheadp s.nwnds refs
  fresh : ∀ b ∈ s.bheadp, b < s.nextbuf
  active : ∀ b ∈ s.bheadp, (s.buffer b).b_active = true

/-- The buffers count the windows that show them. -/
def Counted (s : Windows) : Prop := Table s.shown s

end Windows

open Windows

namespace Calm

variable {s t : Windows}

theorem elsewhere (h : Calm s t) : t.elsewhere = s.elsewhere := by
  have hbufp : Window.w_bufp = Place.bufp ∘ Window.place := rfl
  simp only [Windows.elsewhere, List.map_append]
  rw [hbufp, ← List.map_map, ← List.map_map, ← List.map_map, ← List.map_map, h.above, h.below]

theorem shown (h : Calm s t) : t.shown = s.shown := by
  rw [Windows.shown, h.curbp, h.elsewhere, Windows.shown]

end Calm

namespace Windows.Table

variable {s t : Windows} {refs refs' : List BufId} {bp : BufId}

theorem perm (h : Table refs s) (hp : refs.Perm refs') : Table refs' s :=
  ⟨h.tally.perm hp, h.fresh, h.active⟩

/-- Only the buffers in the list matter, and of them two fields. -/
theorem congr (h : Table refs s) (hb : t.bheadp = s.bheadp) (hn : t.nextbuf = s.nextbuf)
    (hw : ∀ b ∈ s.bheadp, (t.buffer b).b_nwnd = (s.buffer b).b_nwnd)
    (ha : ∀ b ∈ s.bheadp, (s.buffer b).b_active = true → (t.buffer b).b_active = true) :
    Table refs t where
  tally := hb ▸ h.tally.congr hw
  fresh := by
    rw [hb, hn]
    exact h.fresh
  active := by
    rw [hb]
    exact fun b hbm => ha b hbm (h.active b hbm)

theorem calm (h : Table refs s) (hc : Calm s t) : Table refs t :=
  h.congr hc.bheadp hc.nextbuf (fun b _ => hc.nwnd b) fun b _ ha => (hc.active b).trans ha

/-- The windows do not matter. -/
theorem of_eq (h : Table refs s) (hbuf : t.buffer = s.buffer) (hb : t.bheadp = s.bheadp)
    (hn : t.nextbuf = s.nextbuf) : Table refs t :=
  h.congr hb hn (fun b _ => by rw [hbuf]) fun b _ ha => by rwa [hbuf]

theorem modBuf {f : Buffer → Buffer} (h : Table refs s)
    (hn : (f (s.buffer bp)).b_nwnd = (s.buffer bp).b_nwnd)
    (ha : (s.buffer bp).b_active = true → (f (s.buffer bp)).b_active = true) :
    Table refs (s.modBuf bp f) := by
  refine h.congr rfl rfl (fun b _ => modBuf_keeps Buffer.b_nwnd s bp hn b) fun b _ hb => ?_
  by_cases hbp : b = bp
  · subst hbp
    rw [modBuf_self]
    exact ha hb
  · rwa [modBuf_of_ne s hbp]

theorem nwnds_modBuf (s : Windows) (bp : BufId) (f : Buffer → Buffer) :
    (s.modBuf bp f).nwnds = Function.update s.nwnds bp (f (s.buffer bp)).b_nwnd := by
  funext b
  by_cases hb : b = bp
  · rw [hb, Function.update_self]
    exact congrArg Buffer.b_nwnd (modBuf_self s bp f)
  · rw [Function.update_of_ne hb]
    exact congrArg Buffer.b_nwnd (modBuf_of_ne s hb f)

/-- A window more. -/
theorem acquire {f : Buffer → Buffer} (h : Table refs s) (hbp : bp ∈ s.bheadp)
    (hn : (f (s.buffer bp)).b_nwnd = schar ((s.buffer bp).b_nwnd + 1))
    (ha : (f (s.buffer bp)).b_active = (s.buffer bp).b_active) :
    Table (bp :: refs) (s.modBuf bp f) where
  tally := by
    rw [nwnds_modBuf, hn]
    exact h.tally.acquire wraps_schar hbp
  fresh := h.fresh
  active := fun b hb => (modBuf_keeps Buffer.b_active s bp ha b).trans (h.active b hb)

/-- A window less. -/
theorem release {f : Buffer → Buffer} (h : Table (bp :: refs) s)
    (hn : (f (s.buffer bp)).b_nwnd = schar ((s.buffer bp).b_nwnd - 1))
    (ha : (f (s.buffer bp)).b_active = (s.buffer bp).b_active) :
    Table refs (s.modBuf bp f) where
  tally := by
    rw [nwnds_modBuf, hn]
    exact h.tally.release wraps_schar
  fresh := h.fresh
  active := fun b hb => (modBuf_keeps Buffer.b_active s bp ha b).trans (h.active b hb)

/-- A buffer that no window shows. -/
theorem newbuf (h : Table refs s) (bname : String) : Table refs (Emacs.newbuf bname s) := by
  have hne (b : BufId) (hb : b ∈ s.bheadp) : b ≠ s.nextbuf := (h.fresh b hb).ne
  have hold (b : BufId) (hb : b ∈ s.bheadp) : (Emacs.newbuf bname s).buffer b = s.buffer b :=
    newbuf_buffer s (hne b hb) bname
  refine ⟨?_, List.forall_mem_cons.mpr ⟨Nat.lt_succ_self _, fun b hb => ?_⟩,
    List.forall_mem_cons.mpr ⟨?_, fun b hb => ?_⟩⟩
  · refine (h.tally.congr fun b hb => congrArg Buffer.b_nwnd (hold b hb)).insert wraps_schar
      (fun hm => hne _ hm rfl) ?_
    exact congrArg Buffer.b_nwnd (newbuf_buffer_self s bname)
  · exact (h.fresh b hb).trans (Nat.lt_succ_self _)
  · rw [newbuf_buffer_self]
    rfl
  · rw [hold b hb]
    exact h.active b hb

theorem erase (h : Table refs s) (hbp : bp ∉ refs) :
    Table refs { s with bheadp := s.bheadp.erase bp } where
  tally := h.tally.erase hbp
  fresh := fun b hb => h.fresh b (List.mem_of_mem_erase hb)
  active := fun b hb => h.active b (List.mem_of_mem_erase hb)

end Windows.Table

/-! ## Handing a window over -/

theorem Windows.Counted.calm {s t : Windows} (h : Counted s) (hc : Calm s t) : Counted t := by
  rw [Counted, hc.shown]
  exact Table.calm h hc

section Handing

variable {s : Windows} {bp : BufId} (io : ReadIo)

theorem findbuf_mem {bname : String} (h : findbuf bname s = some bp) : bp ∈ s.bheadp :=
  List.mem_of_find?_eq_some h

theorem filebuf_mem {fname : String} (h : filebuf fname s = some bp) : bp ∈ s.bheadp :=
  List.mem_of_find?_eq_some h

/-- The windows are as before, and the buffer is in the list. -/
theorem bfind_table {refs : List BufId} (h : Table refs s) (bname : String) :
    Table refs (bfind bname s).2 ∧ (bfind bname s).1 ∈ (bfind bname s).2.bheadp := by
  unfold bfind
  split
  · next b hb =>
      have hmem : b ∈ s.bheadp := findbuf_mem hb
      dsimp only
      exact ⟨h.modBuf rfl fun _ => rfl, hmem⟩
  · exact ⟨h.newbuf bname, List.mem_cons_self⟩

theorem bfind_shown (bname : String) : (bfind bname s).2.shown = s.shown := by
  unfold bfind
  split <;> rfl

theorem undisplay_table (h : Counted s) : Table s.elsewhere (undisplay s) := by
  refine Table.release h ?_ ?_ <;> dsimp only <;> split <;> rfl

theorem addcur_out (h : Counted s) : Table s.elsewhere (addcur (-1) s) := by
  rw [addcur_eq]
  refine Table.of_eq (s := s.modBuf s.curbp (Buffer.counted (-1) (s.curwp.counted s))) ?_ rfl rfl rfl
  exact Table.release h (Buffer.counted_nwnd ..) (Buffer.counted_active ..)

theorem addcur_in (h : Table s.elsewhere s) (hbp : s.curbp ∈ s.bheadp) : Counted (addcur 1 s) := by
  have hcur : (addcur 1 s).shown = s.curbp :: s.elsewhere := by
    rw [addcur_eq]
    exact congrArg (· :: s.elsewhere) (congrArg Place.bufp (Window.counted_place ..))
  rw [Counted, hcur, addcur_eq]
  refine Table.of_eq (s := s.modBuf s.curbp (Buffer.counted 1 (s.curwp.counted s))) ?_ rfl rfl rfl
  exact Table.acquire h hbp (Buffer.counted_nwnd ..) (Buffer.counted_active ..)

theorem usebuf_counted (h : Counted s) (hbp : bp ∈ s.bheadp) : Counted (usebuf bp s) := by
  have hout := addcur_out h
  have hin : Counted (addcur 1 ((addcur (-1) s).setCur fun w => { w with
      w_bufp := bp, w_linep := ((addcur (-1) s).buffer bp).firstline
      w_flag := w.w_flag ||| (WFMODE ||| WFFORCE ||| WFHARD) })) :=
    addcur_in (hout.of_eq rfl rfl rfl) hbp
  unfold usebuf
  dsimp only
  split
  · exact hin
  · exact hin.calm (calm_lookForOld _ bp)

theorem enter_counted (h : Table s.elsewhere s) (hbp : bp ∈ s.bheadp) : Counted (enter bp s) := by
  set t := (s.setCur fun w => { w with
    w_bufp := bp, w_linep := (s.buffer bp).b_linep
    w_flag := w.w_flag ||| (WFMODE ||| WFFORCE ||| WFHARD) }).modBuf bp fun b =>
      { b with b_nwnd := schar (b.b_nwnd + 1) } with ht
  have hin : Counted t := Table.acquire (h.of_eq rfl rfl rfl) hbp rfl rfl
  unfold enter
  dsimp only
  split
  · exact hin.calm (Calm.setCur rfl)
  · exact hin.calm (calm_lookForOld _ bp)

/-- Buffers in the list are active, so none is read. -/
theorem swbuffer_eq (h : Counted s) (hbp : bp ∈ s.bheadp) :
    swbuffer bp io s = enter bp (undisplay s) := by
  unfold swbuffer
  dsimp only
  rw [if_pos ((undisplay_table h).active bp hbp)]

theorem swbuffer_counted (h : Counted s) (hbp : bp ∈ s.bheadp) : Counted (swbuffer bp io s) := by
  rw [swbuffer_eq io h hbp]
  exact enter_counted (undisplay_table h) hbp

theorem newfile_counted (h : Table s.elsewhere s) (hbp : bp ∈ s.bheadp) :
    Counted (newfile bp io s).1 := by
  unfold newfile
  refine Counted.calm ?_ (calm_readin _ bp io)
  exact Table.acquire (h.of_eq rfl rfl rfl) hbp rfl rfl

theorem bfind_counted (h : Counted s) (bname : String) : Counted (bfind bname s).2 := by
  rw [Counted, bfind_shown]
  exact (bfind_table h bname).1

theorem getfile_counted (h : Counted s) (name : Option String) : Counted (getfile name io s).1 := by
  unfold getfile
  split
  · exact h
  · split
    · next bp hbp => exact swbuffer_counted io h (filebuf_mem hbp)
    · split
      · exact h
      · next bname =>
          exact newfile_counted io (undisplay_table (bfind_counted h bname)) (bfind_table h bname).2

theorem visitOld_counted (h : Counted s) (hbp : bp ∈ s.bheadp) : Counted (visitOld bp s) := by
  have hin : Counted (addcur 1 ((addcur (-1) s).setCur fun w => { w with w_bufp := bp })) :=
    addcur_in ((addcur_out h).of_eq rfl rfl rfl) hbp
  unfold visitOld
  refine Counted.calm ?_ (Calm.setCur rfl)
  split
  · exact hin
  · exact hin.calm (calm_lookForOld _ bp)

theorem visit_file_counted (h : Counted s) (name : Option String) :
    Counted (visit_file name io s).1 := by
  unfold visit_file
  split
  · exact h
  · split
    · next bp hbp => exact visitOld_counted h (filebuf_mem hbp)
    · split
      · exact h
      · next bname =>
          exact newfile_counted io (addcur_out (bfind_counted h bname)) (bfind_table h bname).2

theorem getscratch_counted (h : Counted s) :
    Counted (getscratch s).2 ∧ (getscratch s).1 ∈ (getscratch s).2.bheadp := by
  unfold getscratch
  split
  · next b hb =>
      have hmem : b ∈ s.bheadp := findbuf_mem hb
      dsimp only
      exact ⟨Table.modBuf h rfl fun _ => rfl, hmem⟩
  · exact ⟨Table.newbuf h "main", List.mem_cons_self⟩

theorem alternate_counted (h : Counted s) (bp : BufId) :
    Counted (alternate bp s).2 ∧ (alternate bp s).1 ∈ (alternate bp s).2.bheadp := by
  unfold alternate
  split
  · next b hb => exact ⟨h, List.mem_of_find?_eq_some hb⟩
  · exact getscratch_counted h

end Handing

/-! ## Windows that come and go -/

section Commands

variable {s : Windows}

/-- In screen order. -/
theorem Windows.shown_perm (s : Windows) : s.shown.Perm (s.wheadp.map Window.w_bufp) := by
  simp only [shown, elsewhere, wheadp, curbp, List.map_append, List.map_reverse, List.map_cons]
  refine (List.perm_middle.symm : (s.curwp.w_bufp :: _).Perm _).trans ?_
  exact (List.reverse_perm _).symm.append_right _

/-- The same buffers, in the same windows. -/
theorem Windows.Counted.same {t : Windows} (h : Counted s) (hbuf : t.buffer = s.buffer)
    (hb : t.bheadp = s.bheadp) (hn : t.nextbuf = s.nextbuf) (hw : t.shown.Perm s.shown) : Counted t :=
  Table.perm (Table.of_eq h hbuf hb hn) hw.symm

theorem Windows.Counted.turned {t : Windows} (h : Counted s) (ht : Turned s t) : Counted t := by
  refine h.same ht.buffer ht.bheadp ht.nextbuf ?_
  refine (shown_perm t).trans ?_
  rw [ht.wheadp]
  exact (shown_perm s).symm

theorem splitwind_counted (h : Counted s) : Counted (splitwind s).1 := by
  unfold splitwind
  dsimp only
  split
  · exact h
  have hnew : Table (s.curbp :: s.shown) (s.modBuf s.curbp fun b =>
      { b with b_nwnd := schar (b.b_nwnd + 1) }) :=
    Table.acquire h (h.tally.mem _ List.mem_cons_self) rfl rfl
  split
  · refine @Table.perm _ (s.curbp :: s.shown) _ (hnew.of_eq rfl rfl rfl) ?_
    simp only [shown, elsewhere, curbp, List.map_append, List.map_cons]
    exact (@List.perm_middle _ _ (s.above.map Window.w_bufp) _).symm.cons _
  · exact hnew.of_eq rfl rfl rfl

theorem enlarge_counted (n : Int) (h : Counted s) : Counted (enlarge n s).1 := by
  unfold enlarge
  dsimp only
  split
  · next _ adj below hb =>
      split
      · exact h
      · refine h.same rfl rfl rfl ?_
        simp [shown, elsewhere, curbp, hb, Window.redraw]
  · next adj above hb ha =>
      split
      · exact h
      · refine h.same rfl rfl rfl ?_
        simp [shown, elsewhere, curbp, ha, hb, Window.redraw]
  · exact h

theorem shrink_counted (n : Int) (h : Counted s) : Counted (shrink n s).1 := by
  unfold shrink
  dsimp only
  split
  · next _ adj below hb =>
      split
      · exact h
      · refine h.same rfl rfl rfl ?_
        simp [shown, elsewhere, curbp, hb, Window.redraw]
  · next adj above hb ha =>
      split
      · exact h
      · refine h.same rfl rfl rfl ?_
        simp [shown, elsewhere, curbp, ha, hb, Window.redraw]
  · exact h

theorem enlargewind_counted (n : Int) (h : Counted s) : Counted (enlargewind n s).1 := by
  unfold enlargewind
  split
  · exact shrink_counted _ h
  · exact enlarge_counted _ h

theorem shrinkwind_counted (n : Int) (h : Counted s) : Counted (shrinkwind n s).1 := by
  unfold shrinkwind
  split
  · exact enlarge_counted _ h
  · exact shrink_counted _ h

theorem balance_bufp {size : Int} (toprow : Int) (ws : List Window) :
    (balance s size toprow ws).map Window.w_bufp = ws.map Window.w_bufp := by
  induction ws generalizing toprow with
  | nil => rfl
  | cons w ws ih =>
      rw [balance, List.map_cons, List.map_cons, ih]
      rfl

theorem balancewindows_buffers (s : Windows) : (balancewindows s).1.buffer = s.buffer ∧
    (balancewindows s).1.bheadp = s.bheadp ∧ (balancewindows s).1.nextbuf = s.nextbuf := by
  unfold balancewindows
  split
  · exact ⟨rfl, rfl, rfl⟩
  · dsimp only
    split <;> exact ⟨rfl, rfl, rfl⟩

theorem balancewindows_counted (h : Counted s) : Counted (balancewindows s).1 := by
  cases honly : s.only with
  | true => rwa [balancewindows, honly]
  | false =>
      have hw := balancewindows_spans honly
      have hkeep := balancewindows_buffers s
      refine h.same hkeep.1 hkeep.2.1 hkeep.2.2 ?_
      refine (shown_perm _).trans ?_
      rw [hw, balance_bufp]
      exact (shown_perm s).symm

theorem zapwind_counted (h : Counted s) : Counted (zapwind s).1 := by
  have hout {refs : List BufId} (hrefs : Table (s.curbp :: refs) s) :
      Table refs (countOut s.curwp s) := by
    refine Table.release hrefs ?_ ?_ <;> dsimp only <;> split <;> rfl
  unfold zapwind
  dsimp only
  split
  · next _ pp above ha =>
      refine Table.of_eq (s := countOut s.curwp s) (hout (h.perm ?_)) rfl rfl rfl
      simp [shown, elsewhere, curbp, ha, Window.redraw, countOut, modBuf]
  · next pp below ha hb =>
      refine Table.of_eq (s := countOut s.curwp s) (hout (h.perm ?_)) rfl rfl rfl
      simp only [shown, elsewhere, curbp, hb, List.map_append, List.map_cons]
      exact List.perm_middle.cons _
  · exact h.same rfl rfl rfl (List.Perm.refl _)

/-- `onlywind` counts windows out one after the other. -/
theorem foldl_addwind_table (ws : List Window) {refs : List BufId} {s : Windows}
    (h : Table (ws.map Window.w_bufp ++ refs) s) :
    Table refs (ws.foldl (fun s w => (addwind w (-1) s).2) s) := by
  induction ws generalizing s with
  | nil => exact h
  | cons w ws ih =>
      refine ih ?_
      dsimp only
      rw [addwind_eq]
      exact Table.release h (Buffer.counted_nwnd ..) (Buffer.counted_active ..)

theorem foldl_addwind_windows (ws : List Window) (s : Windows) :
    (ws.foldl (fun s w => (addwind w (-1) s).2) s).curwp = s.curwp ∧
      (ws.foldl (fun s w => (addwind w (-1) s).2) s).below = s.below := by
  induction ws generalizing s with
  | nil => exact ⟨rfl, rfl⟩
  | cons w ws ih => exact ih _

theorem onlywind_counted (h : Counted s) : Counted (onlywind s).1 := by
  unfold onlywind
  dsimp only
  rw [(foldl_addwind_windows _ s).2]
  set t := s.above.reverse.foldl (fun s w => (addwind w (-1) s).2) s with ht
  have habove : Table (s.below.map Window.w_bufp ++ [s.curbp]) t := by
    refine foldl_addwind_table s.above.reverse (h.perm ?_)
    refine (shown_perm s).trans ?_
    simp only [wheadp, List.map_append, List.map_cons]
    exact List.Perm.append_left _ (List.perm_append_singleton _ _).symm
  have hbelow := foldl_addwind_table s.below habove
  have hcur : (s.below.foldl (fun s w => (addwind w (-1) s).2) t).curwp = s.curwp :=
    (foldl_addwind_windows s.below t).1.trans (foldl_addwind_windows _ s).1
  rw [hcur]
  exact hbelow.of_eq rfl rfl rfl

end Commands

/-! ## Buffers that go -/

section Kill

variable {s : Windows} {bp : BufId}

/-- Below the number of values of a `char` only zero counts to zero. -/
theorem schar_eq_zero {n : Nat} (hn : n < 256) (h : schar n = 0) : n = 0 := by
  rw [schar, Int.bmod_def] at h
  split at h <;> omega

theorem Windows.shown_length (s : Windows) : s.shown.length = s.wheadp.length := by
  rw [(shown_perm s).length_eq, List.length_map]

/-- A counter is zero exactly where no window shows the buffer. -/
theorem Windows.Counted.nwnd_eq_zero (h : Counted s) (hfew : s.wheadp.length < 256)
    (hbp : bp ∈ s.bheadp) : (s.buffer bp).b_nwnd = 0 ↔ bp ∉ s.shown := by
  refine h.tally.eq_zero_iff hbp (schar_eq_zero ?_) wraps_schar
  exact List.count_le_length.trans_lt ((shown_length s).trans_lt hfew)

theorem zotbuf_counted (h : Counted s) (hfew : s.wheadp.length < 256) (hbp : bp ∈ s.bheadp)
    (discard : Bool) : Post (zotbuf bp discard s) fun r => Counted r.1 := by
  unfold zotbuf
  split
  · exact (post_ok _).mpr h
  · next hn =>
      dsimp only
      split
      · exact (post_ok _).mpr (h.calm (calm_bclear s bp discard))
      · have hclear := calm_bclear s bp discard
        have hgone : bp ∉ (bclear bp discard s).1.shown := by
          rw [hclear.shown]
          exact (h.nwnd_eq_zero hfew hbp).mp (not_not.mp hn)
        refine (calm_killundo _ bp).bind fun t ht => (post_pure _).mpr ?_
        exact Counted.calm (Table.erase (h.calm hclear) hgone) ht

theorem swbuffer_length (bp : BufId) (io : ReadIo) (s : Windows) :
    (swbuffer bp io s).wheadp.length = s.wheadp.length := by
  have hlen := congrArg List.length (swbuffer_rows s bp io).spans
  rwa [spans, spans, List.length_map, List.length_map] at hlen

theorem enter_bheadp (bp : BufId) (s : Windows) : (enter bp s).bheadp = s.bheadp := by
  unfold enter
  dsimp only
  split
  · rfl
  · exact (calm_lookForOld _ bp).bheadp

theorem alternate_length (bp : BufId) (s : Windows) :
    (alternate bp s).2.wheadp.length = s.wheadp.length := by
  have hlen := congrArg List.length (alternate_rows s bp).spans
  rwa [spans, spans, List.length_map, List.length_map] at hlen

theorem alternate_bheadp (hbp : bp ∈ s.bheadp) : bp ∈ (alternate bp s).2.bheadp := by
  unfold alternate
  split
  · exact hbp
  · unfold getscratch
    split
    · exact hbp
    · exact List.mem_cons_of_mem _ hbp

theorem killbuf_counted (h : Counted s) (hfew : s.wheadp.length < 256) (hbp : bp ∈ s.bheadp)
    (discard : Bool) (io : ReadIo) : Post (killbuf bp discard io s) fun r => Counted r.1 := by
  obtain ⟨halt, hmem⟩ := alternate_counted h bp
  refine zotbuf_counted (swbuffer_counted io halt hmem) ?_ ?_ discard
  · rwa [swbuffer_length, alternate_length]
  · rw [swbuffer_eq io halt hmem, enter_bheadp]
    exact alternate_bheadp hbp

theorem killbuffer_counted (h : Counted s) (hfew : s.wheadp.length < 256) (name : Option String)
    (discard : Bool) (io : ReadIo) : Post (killbuffer name discard io s) fun r => Counted r.1 := by
  unfold killbuffer
  split
  · exact killbuf_counted h hfew (h.tally.mem _ List.mem_cons_self) discard io
  · split
    · next bname bp hbp =>
        have hmem : bp ∈ s.bheadp := findbuf_mem hbp
        exact killbuf_counted (Table.modBuf h rfl fun _ => rfl) hfew hmem discard io
    · exact (post_ok _).mpr h

end Kill

/-! ## Commands -/

section Run

variable {s : Windows}

theorem headD_mem {α : Type} {l : List α} {a : α} (h : l ≠ []) : l.headD a ∈ l := by
  cases l with
  | nil => exact absurd rfl h
  | cons b l => exact List.mem_cons_self

theorem getLastD_mem {α : Type} {l : List α} {a : α} (h : l ≠ []) : l.getLastD a ∈ l := by
  rw [List.getLastD_eq_getLast?, List.getLast?_eq_some_getLast h]
  exact List.getLast_mem h

theorem bufafter_mem (h : s.bheadp ≠ []) : bufafter s ∈ s.bheadp := by
  unfold bufafter
  by_cases htail : (s.bheadp.dropWhile (· ≠ s.curbp)).tail = []
  · rw [htail]
    exact headD_mem h
  · exact (List.dropWhile_sublist _).subset (List.mem_of_mem_tail (headD_mem htail))

theorem bufbefore_mem (h : s.bheadp ≠ []) : bufbefore s ∈ s.bheadp := by
  unfold bufbefore
  by_cases htake : s.bheadp.takeWhile (· ≠ s.curbp) = []
  · rw [htake]
    exact getLastD_mem h
  · exact (List.takeWhile_sublist _).subset (getLastD_mem htake)

/-- **One command** keeps the counters. -/
theorem Command.run_counted (c : Command) (h : Counted s) (hfew : s.wheadp.length < 256) :
    Post (c.run s) fun r => Counted r.1 := by
  have hcur : s.curbp ∈ s.bheadp := h.tally.mem _ List.mem_cons_self
  have hne : s.bheadp ≠ [] := List.ne_nil_of_mem hcur
  cases c with
  | nextwind => exact (post_ok _).mpr (h.turned (turned_nextwind s))
  | prevwind => exact (post_ok _).mpr (h.turned (turned_prevwind s))
  | onlywind => exact (post_ok _).mpr (onlywind_counted h)
  | splitwind => exact (post_ok _).mpr (splitwind_counted h)
  | enlargewind n => exact (post_ok _).mpr (enlargewind_counted n h)
  | shrinkwind n => exact (post_ok _).mpr (shrinkwind_counted n h)
  | balancewindows => exact (post_ok _).mpr (balancewindows_counted h)
  | zapwind => exact (post_ok _).mpr (zapwind_counted h)
  | setmark f => exact (post_ok _).mpr (h.calm (calm_setmark s f))
  | swapmark => exact (post_ok _).mpr (h.calm (calm_swapmark s))
  | movedot i o => exact (post_ok _).mpr (h.calm (calm_movedot s i o))
  | usebuffer bname =>
      exact (post_ok _).mpr (usebuf_counted (bfind_counted h bname) (bfind_table h bname).2)
  | nextbuffer => exact (post_ok _).mpr (usebuf_counted h (bufafter_mem hne))
  | prevbuffer => exact (post_ok _).mpr (usebuf_counted h (bufbefore_mem hne))
  | swbuffer bp io =>
      dsimp only [Command.run]
      split
      · next hbp => exact (post_ok _).mpr (swbuffer_counted io h hbp)
      · exact (post_ok _).mpr h
  | getfile name io => exact (post_ok _).mpr (getfile_counted io h name)
  | visit_file name io => exact (post_ok _).mpr (visit_file_counted io h name)
  | killbuffer name discard io => exact killbuffer_counted h hfew name discard io
  | fileread io => exact (post_ok _).mpr (h.calm (calm_readin s _ io))
  | bclear bp discard =>
      dsimp only [Command.run]
      split
      · exact (post_ok _).mpr (h.calm (calm_bclear s bp discard))
      · exact (post_ok _).mpr h
  | edit => exact (calm_replay s true).mono fun _ hr => h.calm hr
  | undo chg => exact (calm_replay s chg).mono fun _ hr => h.calm hr
  | redo => exact (calm_replay s true).mono fun _ hr => h.calm hr
  | unmark =>
      refine (post_ok _).mpr ?_
      dsimp only
      exact Table.modBuf h rfl fun ha => ha
  | filesave o => exact (calm_filesave s _ o).mono fun _ hr => h.calm hr
  | filewrite fname o => exact (post_ok _).mpr (h.calm (calm_filewrite s fname o))
  | filesaveall ask o => exact (calm_saveTour s ask o _).mono fun _ hr => h.calm hr
  | quickexit o => exact (calm_saveTour s _ o _).mono fun _ hr => h.calm hr
  | revertbuffer aborted io => exact (calm_revertbuffer s io aborted).mono fun _ hr => h.calm hr
  | hexlchange parses trailing o =>
      exact (calm_hexlchangeLines s parses trailing o).mono fun _ hr => h.calm hr

theorem Call.run_counted (c : Call) (h : Counted s) : Post (c.run s) fun r => Counted r.1 := by
  cases c with
  | switchtobuffer bname io =>
      exact (post_ok _).mpr (swbuffer_counted io (bfind_counted h bname) (bfind_table h bname).2)
  | findfile name io => exact (post_ok _).mpr (visit_file_counted io h name)
  | savebuffer o => exact (calm_filesave s _ o).mono fun _ hr => h.calm hr

theorem act_counted (e : Action) (h : Counted s) (hfew : s.wheadp.length < 256) :
    Post (act e s) Counted := by
  cases e with
  | key c =>
      have hs : Counted (startsaveundo s) := h.calm (calm_startsaveundo s)
      exact (c.run_counted hs hfew).bind fun _ hr => (post_pure _).mpr hr
  | call c => exact (c.run_counted h).bind fun _ hr => (post_pure _).mpr hr

end Run

/-! ## The start -/

theorem bufinit_counted (nrow : Int) (bname : String) : Counted (bufinit nrow bname) where
  tally := {
    nodup := List.nodup_singleton 0
    mem := fun _ hb => hb
    count := fun b hb => by
      rw [List.mem_singleton.mp hb]
      show (1 : Int) = schar (List.count 0 [0] : Nat)
      decide }
  fresh := fun b hb => by
    rw [List.mem_singleton.mp hb]
    exact Nat.zero_lt_one
  active := fun _ _ => rfl

theorem bufinitSecond_counted {s : Windows} (h : Counted s) (honly : s.only = true)
    (bname : String) : Counted (bufinitSecond bname s) := by
  have hnew : Table s.shown (newbuf bname s) := Table.newbuf h bname
  have hin : Table (s.nextbuf :: s.shown) ((newbuf bname s).modBuf s.nextbuf fun b =>
      { b with b_nwnd := 1 }) := by
    refine hnew.acquire List.mem_cons_self ?_ rfl
    rw [newbuf_buffer_self]
    rfl
  have habove : s.elsewhere = [] := by
    simp only [only, Bool.and_eq_true, List.isEmpty_iff] at honly
    rw [elsewhere, honly.1, honly.2]
    rfl
  have habove' : s.above = [] := by
    simp only [only, Bool.and_eq_true, List.isEmpty_iff] at honly
    exact honly.1
  refine @Table.perm _ (s.nextbuf :: s.shown) _ (hin.of_eq rfl rfl rfl) ?_
  have hshown : (bufinitSecond bname s).shown = [s.curbp, s.nextbuf] := by
    simp [bufinitSecond, shown, elsewhere, newbuf, modBuf, habove', newwind, curbp]
  rw [hshown, shown, habove]
  exact List.Perm.swap ..

theorem otherFiles_counted (files : List FileArg) {s : Windows} (h : Counted s) :
    Counted (otherFiles files s) := by
  induction files generalizing s with
  | nil => exact h
  | cons a files ih =>
      have hnew : Counted (newbuf a.bname s) := Table.newbuf h a.bname
      exact ih (hnew.calm (calm_readin _ _ a.io))

theorem startup_counted (nrow : Int) (files : List FileArg) : Counted (startup nrow files) := by
  have hfirst (a : FileArg) : Counted (readin 0 a.io (bufinit nrow a.bname)).1 :=
    (bufinit_counted nrow a.bname).calm (calm_readin _ _ a.io)
  match files with
  | [] => exact bufinit_counted nrow "main"
  | [a] => exact hfirst a
  | a :: a' :: files =>
      have hcalm := calm_readin (bufinit nrow a.bname) 0 a.io
      have honly : (readin 0 a.io (bufinit nrow a.bname)).1.only = true := by
        simp only [only, Bool.and_eq_true, List.isEmpty_iff]
        exact ⟨List.map_eq_nil_iff.mp hcalm.above, List.map_eq_nil_iff.mp hcalm.below⟩
      exact otherFiles_counted files
        ((bufinitSecond_counted (hfirst a) honly a'.bname).calm (calm_readin _ _ a'.io))

/-- **The counters are right in every run**, as far as a `char` can tell. -/
theorem counted_of_runs {nrow : Int} {files : List FileArg} {s : Windows} (hn : 1 ≤ nrow)
    (hmax : nrow ≤ NROW) (hrun : Runs nrow files Any s) : Counted s := by
  obtain ⟨es, hrun⟩ := hrun
  refine (hrun.preserves (fun s => Runs nrow files Any s ∧ Counted s)
    (fun e s t hs _ hstep => ⟨?_, ?_⟩) ⟨⟨[], Run.nil _⟩, startup_counted nrow files⟩).2
  · obtain ⟨⟨es, hrun⟩, -⟩ := hs
    exact ⟨es ++ [e], hrun.append (Run.cons trivial hstep (Run.nil t))⟩
  · exact act_counted e hs.2 (few_windows hn hmax hs.1) t hstep

end Emacs
