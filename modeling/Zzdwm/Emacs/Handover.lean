import Zzdwm.Emacs.WindowCounts

/-!
# Handing a window from one buffer to another

A window's dot and the marks in its ring are pointers to lines.  When the window
gets another buffer, `usebuf` and `visit_file` copy a whole ring or only the
current mark, `swbuffer` and `getfile` only the current mark, and `bclear` resets
only the current mark: older marks stay behind.

* `Settled` — a window whose pointers are to lines of its own buffer;
* `Handed` — the invariant; `Away`, `HandedBut` — it while the current window is
  between two buffers, or a buffer between two texts;
* `enter_handed`, `take_handed`, `reset_handed` — how a window, and a buffer, get
  there again.
-/

namespace Emacs

open Machine Windows

/-- A line that is linked in the buffer, or its header line. -/
def Buffer.Has (b : Buffer) (lp : LineId) : Prop := lp = b.b_linep ∨ lp ∈ b.lines

/-- A mark that is not null is at a line with the property. -/
def POS.On (P : LineId → Prop) (pos : POS) : Prop := pos.p ≠ null → P pos.p

namespace MARKRING

/-- The marks of the ring, positions `0..m_count - 1`. -/
def Marks (P : LineId → Prop) (r : MARKRING) : Prop :=
  ∀ i : Fin RINGSIZE, i.val < r.m_count → (r.m_ring i).On P

/-- The marks behind the current one. -/
def Older (P : LineId → Prop) (r : MARKRING) : Prop :=
  ∀ i : Fin RINGSIZE, 0 < i.val → i.val < r.m_count → (r.m_ring i).On P

variable {P Q : LineId → Prop} {r : MARKRING}

theorem Older.mono (h : r.Older P) (hPQ : ∀ lp, P lp → Q lp) : r.Older Q :=
  fun i h0 hi hn => hPQ _ (h i h0 hi hn)

theorem Older.setMark (h : r.Older P) (pos : POS) : (r.setMark pos).Older P := by
  intro i h0 hi
  have hne : i ≠ first := fun h => by
    rw [h] at h0
    exact absurd h0 (Nat.lt_irrefl 0)
  have hself : (r.setMark pos).m_ring i = r.m_ring i := Function.update_of_ne hne ..
  rw [hself]
  exact h i h0 hi

@[simp] theorem mark_setMark (pos : POS) (r : MARKRING) : (r.setMark pos).mark = pos := by
  unfold mark setMark
  exact Function.update_self first pos r.m_ring

/-- The current mark and those behind it. -/
theorem marks_of_older (hm : r.mark.On P) (h : r.Older P) : r.Marks P := by
  intro i hi
  by_cases h0 : i.val = 0
  · have hfirst : i = first := Fin.ext h0
    rw [hfirst]
    exact hm
  · exact h i (Nat.pos_of_ne_zero h0) hi

end MARKRING

@[simp] theorem POS.on_nullpos (P : LineId → Prop) : nullpos.On P := fun h => absurd rfl h

/-- The pointers of a window with this buffer. -/
structure Window.Settled (b : Buffer) (w : Window) : Prop where
  dot : b.Has w.w_dot.p
  mark : w.w_mark.On b.Has
  older : w.w_ring.Older b.Has

/-- The pointers that a buffer keeps while no window shows it. -/
structure Buffer.Kept (b : Buffer) : Prop where
  dot : b.Has b.b_dot.p
  mark : b.b_mark.On b.Has

theorem Window.Settled.congr {b c : Buffer} {w : Window} (h : w.Settled b) (hhas : c.Has = b.Has) :
    w.Settled c := by
  refine ⟨?_, ?_, ?_⟩
  · rw [hhas]
    exact h.dot
  · rw [hhas]
    exact h.mark
  · rw [hhas]
    exact h.older

namespace Windows

/-- The window's pointers are to lines of its own buffer. -/
def Home (s : Windows) (w : Window) : Prop := w.Settled (s.buffer w.w_bufp)

/-- The counters fit into a `char`. -/
def Fits (refs : List BufId) : Prop := ∀ b, refs.count b ≤ 127

/-- Every window is at home, and a buffer that none shows keeps good pointers. -/
structure Handed (s : Windows) : Prop where
  table : Counted s
  fits : Fits s.shown
  home : ∀ w ∈ s.wheadp, s.Home w
  kept : ∀ b ∈ s.bheadp, b ∉ s.shown → (s.buffer b).Kept

/-- The current window has left its buffer. -/
structure Away (s : Windows) : Prop where
  table : Table s.elsewhere s
  fits : Fits s.elsewhere
  home : ∀ w ∈ s.above ++ s.below, s.Home w
  kept : ∀ b ∈ s.bheadp, b ∉ s.elsewhere → (s.buffer b).Kept

/-- The buffer is about to get new lines. -/
structure HandedBut (bp : BufId) (s : Windows) : Prop where
  table : Counted s
  fits : Fits s.shown
  home : ∀ w ∈ s.wheadp, w.w_bufp ≠ bp → s.Home w
  kept : ∀ b ∈ s.bheadp, b ≠ bp → b ∉ s.shown → (s.buffer b).Kept

variable {s t : Windows} {bp b : BufId}

theorem mem_wheadp {w : Window} : w ∈ s.wheadp ↔ w = s.curwp ∨ w ∈ s.above ++ s.below := by
  simp only [wheadp, List.mem_append, List.mem_reverse, List.mem_cons]
  tauto

theorem mem_elsewhere : b ∈ s.elsewhere ↔ ∃ w ∈ s.above ++ s.below, w.w_bufp = b := by
  rw [elsewhere, List.mem_map]

theorem mem_shown : b ∈ s.shown ↔ ∃ w ∈ s.wheadp, w.w_bufp = b := by
  rw [(shown_perm s).mem_iff, List.mem_map]

theorem Handed.but (h : Handed s) (bp : BufId) : HandedBut bp s :=
  ⟨h.table, h.fits, fun w hw _ => h.home w hw, fun b hb _ => h.kept b hb⟩

/-- Below 128 a `char` holds the number. -/
theorem schar_of_le {n : Nat} (hn : n ≤ 127) : schar n = n := by
  rw [schar, Int.bmod_def]
  split <;> omega

/-- The counters are the numbers. -/
theorem Table.nwnd_eq {refs : List BufId} (h : Table refs s) (hf : Fits refs) (hb : b ∈ s.bheadp) :
    (s.buffer b).b_nwnd = refs.count b :=
  (h.tally.count b hb).trans (schar_of_le (hf b))

theorem Table.nwnd_eq_zero {refs : List BufId} (h : Table refs s) (hf : Fits refs)
    (hb : b ∈ s.bheadp) : (s.buffer b).b_nwnd = 0 ↔ b ∉ refs := by
  rw [h.nwnd_eq hf hb, Int.natCast_eq_zero, List.count_eq_zero]

/-! ## Leaving a buffer and getting one -/

theorem Fits.tail {a : BufId} {refs : List BufId} (h : Fits (a :: refs)) : Fits refs :=
  fun b => (List.count_le_count_cons).trans (h b)

theorem Fits.cons {a : BufId} {refs : List BufId} (h : Fits refs) (ha : refs.count a < 127) :
    Fits (a :: refs) := by
  intro b
  by_cases hb : b = a
  · rw [hb, List.count_cons_self]
    omega
  · rw [List.count_cons_of_ne (Ne.symm hb)]
    exact h b

/-- A window does not notice what happens to the rest of a buffer. -/
theorem Home.modBuf {w : Window} {f : Buffer → Buffer} (h : s.Home w)
    (hhas : (f (s.buffer bp)).Has = (s.buffer bp).Has) : (s.modBuf bp f).Home w :=
  Window.Settled.congr h (modBuf_keeps Buffer.Has s bp hhas _)

/-- The buffers, while references to them are counted in or out. -/
structure Store (refs : List BufId) (s : Windows) : Prop where
  table : Table refs s
  fits : Fits refs
  kept : ∀ b ∈ s.bheadp, b ∉ refs → (s.buffer b).Kept

theorem Handed.store (h : Handed s) : Store s.shown s := ⟨h.table, h.fits, h.kept⟩

theorem Store.perm {refs refs' : List BufId} (h : Store refs s) (hp : refs.Perm refs') :
    Store refs' s where
  table := h.table.perm hp
  fits := fun b => hp.count_eq b ▸ h.fits b
  kept := fun b hb hrefs => h.kept b hb fun hr => hrefs (hp.mem_iff.mp hr)

/-- A window is counted out: its buffer keeps its pointers if no other window shows
it. -/
theorem Store.release {refs : List BufId} {w : Window} {f : Buffer → Buffer}
    (h : Store (w.w_bufp :: refs) s) (hw : s.Home w)
    (hn : (f (s.buffer w.w_bufp)).b_nwnd = schar ((s.buffer w.w_bufp).b_nwnd - 1))
    (ha : (f (s.buffer w.w_bufp)).b_active = (s.buffer w.w_bufp).b_active)
    (hhas : (f (s.buffer w.w_bufp)).Has = (s.buffer w.w_bufp).Has)
    (hkeep : schar ((s.buffer w.w_bufp).b_nwnd - 1) = 0 →
      (f (s.buffer w.w_bufp)).b_dot = w.w_dot ∧ (f (s.buffer w.w_bufp)).b_mark = w.w_mark) :
    Store refs (s.modBuf w.w_bufp f) where
  table := h.table.release hn ha
  fits := h.fits.tail
  kept := fun b hb hrefs => by
    by_cases hbw : b = w.w_bufp
    · subst hbw
      have hzero : refs.count w.w_bufp = 0 := List.count_eq_zero_of_not_mem hrefs
      have hone : (s.buffer w.w_bufp).b_nwnd = 1 := by
        rw [h.table.nwnd_eq h.fits hb, List.count_cons_self, hzero]
        rfl
      obtain ⟨hdot, hmark⟩ := hkeep (by rw [hone]; rfl)
      rw [modBuf_self]
      refine ⟨?_, ?_⟩
      · rw [hdot, hhas]
        exact hw.dot
      · rw [hmark, hhas]
        exact hw.mark
    · rw [modBuf_of_ne s hbw]
      exact h.kept b hb (List.not_mem_cons_of_ne_of_not_mem hbw hrefs)

/-- The current window leaves its buffer. -/
theorem Handed.leave {f : Buffer → Buffer} (h : Handed s)
    (hn : (f (s.buffer s.curbp)).b_nwnd = schar ((s.buffer s.curbp).b_nwnd - 1))
    (ha : (f (s.buffer s.curbp)).b_active = (s.buffer s.curbp).b_active)
    (hhas : (f (s.buffer s.curbp)).Has = (s.buffer s.curbp).Has)
    (hkeep : schar ((s.buffer s.curbp).b_nwnd - 1) = 0 →
      (f (s.buffer s.curbp)).b_dot = s.curwp.w_dot ∧ (f (s.buffer s.curbp)).b_mark = s.curwp.w_mark) :
    Away (s.modBuf s.curbp f) := by
  have hout := h.store.release (h.home _ (mem_wheadp.mpr (.inl rfl))) hn ha hhas hkeep
  exact ⟨hout.table, hout.fits, fun w hw => (h.home w (mem_wheadp.mpr (.inr hw))).modBuf hhas,
    hout.kept⟩

/-- Nothing hangs on a window that is away. -/
theorem Away.setCur (h : Away s) (w : Window) : Away { s with curwp := w } :=
  ⟨h.table.of_eq rfl rfl rfl, h.fits, h.home, h.kept⟩

/-- The current window gets a buffer, with pointers that are good there. -/
theorem Away.settle {f : Buffer → Buffer} {w : Window} (h : Away s) (hbp : bp ∈ s.bheadp)
    (hroom : s.elsewhere.count bp < 127)
    (hn : (f (s.buffer bp)).b_nwnd = schar ((s.buffer bp).b_nwnd + 1))
    (ha : (f (s.buffer bp)).b_active = (s.buffer bp).b_active)
    (hhas : (f (s.buffer bp)).Has = (s.buffer bp).Has)
    (hw : w.w_bufp = bp) (hset : w.Settled (s.buffer bp)) :
    Handed { s.modBuf bp f with curwp := w } where
  table := by
    have hin : Table (bp :: s.elsewhere) (s.modBuf bp f) := h.table.acquire hbp hn ha
    subst hw
    exact hin.of_eq rfl rfl rfl
  fits := by
    subst hw
    exact h.fits.cons hroom
  home := fun v hv => by
    rcases mem_wheadp.mp hv with rfl | hv
    · subst hw
      exact Home.modBuf (s := s) (w := v) hset hhas
    · exact (h.home v hv).modBuf hhas
  kept := fun b hb hshown => by
    obtain ⟨hne, helse⟩ := List.ne_and_not_mem_of_not_mem_cons hshown
    have hne' : b ≠ bp := hw ▸ hne
    have hsame : ({ s.modBuf bp f with curwp := w } : Windows).buffer b = s.buffer b :=
      modBuf_of_ne s hne' f
    rw [hsame]
    exact h.kept b hb helse

/-- Another window that shows the buffer. -/
theorem showing_of_mem (h : bp ∈ s.elsewhere) :
    ∃ v ∈ s.above ++ s.below, v.w_bufp = bp ∧ s.showing bp = some v := by
  obtain ⟨w, hw, hbp⟩ := mem_elsewhere.mp h
  cases hfind : s.showing bp with
  | none =>
      have hmem : w ∈ s.above.reverse ++ s.below := by simpa using hw
      have := List.find?_eq_none.mp hfind w hmem
      simp [hbp] at this
  | some v =>
      have hmem := List.mem_of_find?_eq_some hfind
      have hv := List.find?_some hfind
      exact ⟨v, by simpa using hmem, by simpa using hv, rfl⟩

theorem lookForOld_eq {v : Window} (h : s.showing bp = some v) :
    lookForOld bp s = { s with curwp := v.copy s.curwp } := by
  rw [lookForOld, h]
  rfl

end Windows

/-- Dot and current mark of one window, and good older marks of another one. -/
theorem Window.copy_settled {b : Buffer} {v w : Window} (hv : v.Settled b)
    (hw : w.w_ring.Older b.Has) : (v.copy w).Settled b where
  dot := hv.dot
  mark := by
    have hmark : (v.copy w).w_mark = v.w_mark := MARKRING.mark_setMark ..
    rw [hmark]
    exact hv.mark
  older := hw.setMark _

/-- What a buffer keeps, and good older marks. -/
theorem Buffer.Kept.settled {b : Buffer} (hb : b.Kept) {w : Window} {r : MARKRING}
    (hdot : w.w_dot = b.b_dot) (hring : w.w_ring = r.setMark b.b_mark) (hr : r.Older b.Has) :
    w.Settled b where
  dot := hdot ▸ hb.dot
  mark := by
    have hmark : w.w_mark = b.b_mark := by
      rw [EWINDOW.w_mark, hring]
      exact MARKRING.mark_setMark ..
    rw [hmark]
    exact hb.mark
  older := by
    rw [hring]
    exact hr.setMark _

/-! ## The routines that hand a window over -/

section Routines

variable {s : Windows} {bp b : BufId}

theorem undisplay_away (h : Handed s) : Away (undisplay s) := by
  refine h.leave ?_ ?_ ?_ fun hzero => ?_
  · dsimp only
    split <;> rfl
  · dsimp only
    split <;> rfl
  · dsimp only
    split <;> rfl
  · dsimp only
    rw [if_pos hzero]
    exact ⟨rfl, MARKRING.mark_setMark ..⟩

@[simp] theorem Buffer.counted_has (n : Int) (w : Window) (b : Buffer) :
    (b.counted n w).Has = b.Has := by
  unfold Buffer.counted
  split <;> rfl

/-- A window whose buffer is counted keeps its pointers. -/
theorem counted_eq_self {w : Window} (h : (s.buffer w.w_bufp).b_nwnd ≠ 0) : w.counted s = w :=
  if_neg h

theorem addcur_away (h : Handed s) : Away (addcur (-1) s) := by
  have hcur : s.curbp ∈ s.bheadp := h.table.tally.mem _ List.mem_cons_self
  have hne : (s.buffer s.curbp).b_nwnd ≠ 0 := fun hzero =>
    (Table.nwnd_eq_zero h.table h.fits hcur).mp hzero List.mem_cons_self
  rw [addcur_eq, counted_eq_self hne]
  refine Away.setCur (h.leave ?_ ?_ ?_ fun hzero => ?_) s.curwp
  · exact Buffer.counted_nwnd ..
  · exact Buffer.counted_active ..
  · exact Buffer.counted_has ..
  · have hzero' : schar ((s.buffer s.curbp).b_nwnd + -1) = 0 := hzero
    rw [Buffer.counted, if_pos hzero']
    exact ⟨rfl, rfl⟩

/-- `swbuffer` copies the current mark only, so the older marks of the window have to
be good for the buffer. -/
theorem enter_handed (h : Away s) (hbp : bp ∈ s.bheadp) (hroom : s.elsewhere.count bp < 127)
    (hold : s.curwp.w_ring.Older (s.buffer bp).Has) : Handed (enter bp s) := by
  -- the window on the buffer, before it gets pointers
  set w : Window := { s.curwp with
    w_bufp := bp, w_linep := (s.buffer bp).b_linep
    w_flag := s.curwp.w_flag ||| (WFMODE ||| WFFORCE ||| WFHARD) } with hw
  have hsettle {v : Window} (hv : v.w_bufp = bp) (hset : v.Settled (s.buffer bp)) :
      Handed { s.modBuf bp fun b => { b with b_nwnd := schar (b.b_nwnd + 1) } with curwp := v } :=
    h.settle hbp hroom rfl rfl rfl hv hset
  unfold enter
  dsimp only
  split
  · next hzero =>
      have helse : bp ∉ s.elsewhere := (h.table.nwnd_eq_zero h.fits hbp).mp hzero
      refine hsettle (v := { w with
        w_dot := (s.buffer bp).b_dot, w_ring := w.w_ring.setMark (s.buffer bp).b_mark }) rfl ?_
      exact (h.kept bp hbp helse).settled rfl rfl hold
  · next hzero =>
      have helse : bp ∈ s.elsewhere :=
        not_not.mp fun hn => hzero ((h.table.nwnd_eq_zero h.fits hbp).mpr hn)
      obtain ⟨v, hv, hvbp, hshow⟩ := showing_of_mem helse
      have hvset := h.home v hv
      rw [Home, hvbp] at hvset
      have hin := hsettle (v := v.copy w) rfl (Window.copy_settled hvset hold)
      have hlook := lookForOld_eq (s := { s.modBuf bp fun b =>
        { b with b_nwnd := schar (b.b_nwnd + 1) } with curwp := w }) hshow
      exact hlook ▸ hin

/-- What `usebuf` and `visit_file` do with a window that is on the buffer. -/
def take (bp : BufId) (s : Windows) : Windows :=
  if ((addcur 1 s).buffer bp).b_nwnd = 1 then addcur 1 s else lookForOld bp (addcur 1 s)

/-- They copy the whole ring that the buffer has kept, or the current mark of another
window. -/
theorem take_handed (h : Away s) (hcur : s.curbp = bp) (hbp : bp ∈ s.bheadp)
    (hroom : s.elsewhere.count bp < 127)
    (hring : bp ∉ s.elsewhere → (s.buffer bp).b_ring.Older (s.buffer bp).Has)
    (hold : bp ∈ s.elsewhere → s.curwp.w_ring.Older (s.buffer bp).Has) : Handed (take bp s) := by
  have hcount : ((addcur 1 s).buffer bp).b_nwnd = s.elsewhere.count bp + 1 := by
    rw [addcur_eq]
    have hself : ((s.modBuf s.curbp (Buffer.counted 1 (s.curwp.counted s))).buffer bp).b_nwnd =
        schar ((s.buffer bp).b_nwnd + 1) := by
      rw [hcur, modBuf_self]
      exact Buffer.counted_nwnd ..
    refine hself.trans ?_
    rw [h.table.nwnd_eq h.fits hbp]
    exact schar_of_le (n := s.elsewhere.count bp + 1) hroom
  unfold take
  rw [hcount]
  have hsettle {w : Window} (hw : w.w_bufp = bp) (hset : w.Settled (s.buffer bp)) :
      Handed { s.modBuf bp (Buffer.counted 1 (s.curwp.counted s)) with curwp := w } :=
    h.settle hbp hroom (Buffer.counted_nwnd ..) (Buffer.counted_active ..) (Buffer.counted_has ..)
      hw hset
  by_cases helse : bp ∈ s.elsewhere
  · have hpos : 0 < s.elsewhere.count bp := List.count_pos_iff.mpr helse
    have hne : (s.buffer s.curbp).b_nwnd ≠ 0 := by
      rw [hcur, h.table.nwnd_eq h.fits hbp]
      omega
    rw [if_neg (by omega)]
    obtain ⟨v, hv, hvbp, hshow⟩ := showing_of_mem helse
    have hshow' : (addcur 1 s).showing bp = some v := by
      rw [addcur_eq]
      exact hshow
    rw [lookForOld_eq hshow', addcur_eq, counted_eq_self hne, hcur]
    have hvset := h.home v hv
    rw [Home, hvbp] at hvset
    rw [counted_eq_self hne] at hsettle
    exact hsettle hcur (Window.copy_settled hvset (hold helse))
  · have hzero : s.elsewhere.count bp = 0 := List.count_eq_zero_of_not_mem helse
    have hnwnd : (s.buffer s.curwp.w_bufp).b_nwnd = 0 := by
      have hn := h.table.nwnd_eq h.fits hbp
      rw [hzero, ← hcur] at hn
      exact hn
    rw [if_pos (by omega), addcur_eq, hcur]
    have hkept := h.kept bp hbp helse
    refine hsettle ?_ ?_
    · exact (congrArg Place.bufp (Window.counted_place ..)).trans hcur
    · have hcounted : s.curwp.counted s = { s.curwp with
          w_dot := (s.buffer bp).b_dot, w_ring := (s.buffer bp).b_ring } := by
        rw [Window.counted, if_pos hnwnd]
        exact hcur ▸ rfl
      rw [hcounted]
      exact ⟨hkept.dot, hkept.mark, hring helse⟩

/-- The window may switch to the buffer: it has no older mark, unless it is there
already. -/
def MaySwitch (bp : BufId) (s : Windows) : Prop :=
  bp = s.curbp ∨ s.curwp.w_ring.Older (fun _ => False) ∧ (s.buffer bp).b_nwnd < 127

theorem undisplay_has (b : BufId) : ((undisplay s).buffer b).Has = (s.buffer b).Has := by
  refine modBuf_keeps Buffer.Has s s.curbp ?_ b
  dsimp only
  split <;> rfl

/-- There is room for the window once it has left its buffer. -/
theorem room_of_counts (h : Handed s) (hbp : bp ∈ s.bheadp)
    (hroom : bp = s.curbp ∨ (s.buffer bp).b_nwnd < 127) : s.elsewhere.count bp < 127 := by
  by_cases hcur : bp = s.curbp
  · have hfits := h.fits bp
    rw [shown, hcur, List.count_cons_self] at hfits
    rw [hcur]
    omega
  · have hn := hroom.resolve_left hcur
    rw [Table.nwnd_eq h.table h.fits hbp, shown, List.count_cons_of_ne (Ne.symm hcur)] at hn
    omega

theorem swbuffer_handed (h : Handed s) (hbp : bp ∈ s.bheadp) (hmay : MaySwitch bp s) (io : ReadIo) :
    Handed (swbuffer bp io s) := by
  have hroom : s.elsewhere.count bp < 127 := room_of_counts h hbp (hmay.imp_right And.right)
  rw [swbuffer_eq io h.table hbp]
  refine enter_handed (undisplay_away h) hbp hroom ?_
  rw [undisplay_has]
  rcases hmay with rfl | ⟨hold, -⟩
  · exact (h.home _ (mem_wheadp.mpr (.inl rfl))).older
  · exact hold.mono fun _ => False.elim

/-- The window may use the buffer: the ring that the buffer has kept is good, or the
window has no older mark where it only gets a current one. -/
def MayUse (bp : BufId) (s : Windows) : Prop :=
  bp = s.curbp ∨ (s.buffer bp).b_nwnd < 127 ∧
    if (s.buffer bp).b_nwnd = 0 then (s.buffer bp).b_ring.Older (s.buffer bp).Has
    else s.curwp.w_ring.Older fun _ => False

/-- The window leaves its buffer and takes another one. -/
theorem leave_take_handed (h : Handed s) (hbp : bp ∈ s.bheadp) (hmay : MayUse bp s)
    {f : Window → Window} (hf : (f s.curwp).w_bufp = bp) (hring : (f s.curwp).w_ring = s.curwp.w_ring) :
    Handed (take bp ((addcur (-1) s).setCur f)) := by
  have hcur : s.curbp ∈ s.bheadp := h.table.tally.mem _ List.mem_cons_self
  have hne : (s.buffer s.curbp).b_nwnd ≠ 0 := fun hzero =>
    (Table.nwnd_eq_zero h.table h.fits hcur).mp hzero List.mem_cons_self
  have haway := addcur_away h
  rw [addcur_eq, counted_eq_self hne] at haway ⊢
  have hhas (b : BufId) : ((s.modBuf s.curbp (Buffer.counted (-1) s.curwp)).buffer b).Has =
      (s.buffer b).Has := modBuf_keeps Buffer.Has s s.curbp (Buffer.counted_has ..) b
  have hroom : s.elsewhere.count bp < 127 := room_of_counts h hbp (hmay.imp_right And.left)
  have hcurwp := h.home _ (mem_wheadp.mpr (.inl rfl))
  refine take_handed (haway.setCur (f s.curwp)) hf hbp hroom (fun helse => ?_) fun helse => ?_
  · change ((s.modBuf s.curbp (Buffer.counted (-1) s.curwp)).buffer bp).b_ring.Older
      ((s.modBuf s.curbp (Buffer.counted (-1) s.curwp)).buffer bp).Has
    change bp ∉ s.elsewhere at helse
    rw [hhas]
    by_cases heq : bp = s.curbp
    · -- the buffer has just got the ring of the window
      have hone : schar ((s.buffer s.curbp).b_nwnd + -1) = 0 := by
        have hzero : s.elsewhere.count s.curbp = 0 := List.count_eq_zero_of_not_mem (heq ▸ helse)
        rw [Table.nwnd_eq h.table h.fits hcur, shown, List.count_cons_self, hzero]
        rfl
      subst heq
      rw [modBuf_self, Buffer.counted, if_pos hone]
      exact hcurwp.older
    · have hnot : bp ∉ s.shown := List.not_mem_cons_of_ne_of_not_mem heq helse
      have hzero := (Table.nwnd_eq_zero h.table h.fits hbp).mpr hnot
      have huse := (hmay.resolve_left heq).2
      rw [if_pos hzero] at huse
      rw [modBuf_of_ne s heq]
      exact huse
  · change (f s.curwp).w_ring.Older ((s.modBuf s.curbp (Buffer.counted (-1) s.curwp)).buffer bp).Has
    change bp ∈ s.elsewhere at helse
    rw [hhas, hring]
    rcases hmay with rfl | ⟨-, huse⟩
    · exact hcurwp.older
    · have hnz : (s.buffer bp).b_nwnd ≠ 0 := fun hzero =>
        (Table.nwnd_eq_zero h.table h.fits hbp).mp hzero (List.mem_cons_of_mem _ helse)
      rw [if_neg hnz] at huse
      exact huse.mono fun _ => False.elim

theorem usebuf_handed (h : Handed s) (hbp : bp ∈ s.bheadp) (hmay : MayUse bp s) :
    Handed (usebuf bp s) :=
  leave_take_handed h hbp hmay (f := fun w => { w with
    w_bufp := bp, w_linep := ((addcur (-1) s).buffer bp).firstline
    w_flag := w.w_flag ||| (WFMODE ||| WFFORCE ||| WFHARD) }) rfl rfl

/-- Framing and redraw flags are no pointers that count. -/
theorem Windows.Handed.frame (h : Handed s) {f : Window → Window} (hb : (f s.curwp).w_bufp = s.curbp)
    (hset : (f s.curwp).Settled (s.buffer s.curbp)) : Handed (s.setCur f) where
  table := by
    have hshown : (s.setCur f).shown = s.shown := congrArg (· :: s.elsewhere) hb
    rw [Counted, hshown]
    exact Table.of_eq h.table rfl rfl rfl
  fits := by
    have hshown : (s.setCur f).shown = s.shown := congrArg (· :: s.elsewhere) hb
    rw [hshown]
    exact h.fits
  home := fun w hw => by
    rcases mem_wheadp.mp hw with rfl | hw
    · show (f s.curwp).Settled (s.buffer (f s.curwp).w_bufp)
      rw [hb]
      exact hset
    · exact h.home w (mem_wheadp.mpr (.inr hw))
  kept := fun b hbm hshown => by
    refine h.kept b hbm fun hs => hshown ?_
    have heq : (s.setCur f).shown = s.shown := congrArg (· :: s.elsewhere) hb
    rw [heq]
    exact hs

theorem visitOld_handed (h : Handed s) (hbp : bp ∈ s.bheadp) (hmay : MayUse bp s) :
    Handed (visitOld bp s) := by
  have htake := leave_take_handed h hbp hmay (f := fun w => { w with w_bufp := bp }) rfl rfl
  have hcur := htake.home _ (mem_wheadp.mpr (.inl rfl))
  exact htake.frame (f := fun w => Window.redraw { w with w_linep := _ }) rfl
    ⟨hcur.dot, hcur.mark, hcur.older⟩

end Routines

/-! ## New lines in a buffer -/

section Lines

variable {s t : Windows} {bp b : BufId}

/-- Windows that stay on their buffers. -/
theorem allwind_wheadp (s : Windows) (g : Window → Window) :
    (s.allwind g).wheadp = s.wheadp.map g := by
  simp [Windows.allwind, wheadp]

theorem allwind_shown {g : Window → Window} (hg : ∀ w, (g w).w_bufp = w.w_bufp) :
    (s.allwind g).shown = s.shown := by
  have hcomp : Window.w_bufp ∘ g = Window.w_bufp := funext hg
  simp only [shown, elsewhere, curbp, Windows.allwind, List.map_append, List.map_map, hcomp, hg]

/-- A buffer gets new lines, and the windows that show it new pointers. -/
theorem reset_handed {f : Buffer → Buffer} {g : Window → Window} (h : HandedBut bp s)
    (hn : (f (s.buffer bp)).b_nwnd = (s.buffer bp).b_nwnd)
    (ha : (f (s.buffer bp)).b_active = (s.buffer bp).b_active)
    (hkept : (f (s.buffer bp)).Kept) (hg : ∀ w, (g w).w_bufp = w.w_bufp)
    (hother : ∀ w, w.w_bufp ≠ bp → g w = w)
    (hset : ∀ w ∈ s.wheadp, w.w_bufp = bp → (g w).Settled (f (s.buffer bp))) :
    Handed ((s.modBuf bp f).allwind g) where
  table := by
    have hshown : ((s.modBuf bp f).allwind g).shown = s.shown := allwind_shown (s := s.modBuf bp f) hg
    rw [Counted, hshown]
    exact Table.of_eq (Table.modBuf h.table hn (fun hact => ha.trans hact)) rfl rfl rfl
  fits := by
    have hshown : ((s.modBuf bp f).allwind g).shown = s.shown := allwind_shown (s := s.modBuf bp f) hg
    rw [hshown]
    exact h.fits
  home := fun w hw => by
    rw [allwind_wheadp, List.mem_map] at hw
    obtain ⟨v, hv, rfl⟩ := hw
    show (g v).Settled ((s.modBuf bp f).buffer (g v).w_bufp)
    rw [hg v]
    by_cases hvbp : v.w_bufp = bp
    · rw [hvbp, modBuf_self]
      exact hset v hv hvbp
    · rw [modBuf_of_ne s hvbp, hother v hvbp]
      exact h.home v hv hvbp
  kept := fun b hb hshown => by
    have heq : ((s.modBuf bp f).allwind g).shown = s.shown := allwind_shown (s := s.modBuf bp f) hg
    rw [heq] at hshown
    show ((s.modBuf bp f).buffer b).Kept
    by_cases hbbp : b = bp
    · rw [hbbp, modBuf_self]
      exact hkept
    · rw [modBuf_of_ne s hbbp]
      exact h.kept b hb hbbp hshown

/-- Numbers for lines do not matter. -/
theorem Windows.Handed.nextline (h : Handed s) (lp : LineId) : Handed { s with nextline := lp } :=
  ⟨h.table.of_eq rfl rfl rfl, h.fits, h.home, h.kept⟩

/-- `bclear` and `reframe` set the pointers of a window like this. -/
theorem settled_of_reset {c : Buffer} {w : Window} {r : MARKRING} (hdot : c.Has w.w_dot.p)
    (hring : w.w_ring = r.setMark nullpos) (hr : r.Older c.Has) : w.Settled c where
  dot := hdot
  mark := by
    have hmark : w.w_mark = nullpos := by
      rw [EWINDOW.w_mark, hring]
      exact MARKRING.mark_setMark ..
    rw [hmark]
    exact POS.on_nullpos _
  older := by
    rw [hring]
    exact hr.setMark _

/-- The windows on the buffer have no older mark but on the header line. -/
def MayClear (bp : BufId) (s : Windows) : Prop :=
  ∀ w ∈ s.wheadp, w.w_bufp = bp → w.w_ring.Older (· = (s.buffer bp).b_linep)

/-- Changes of the buffer are discarded. -/
def Clears (bp : BufId) (discard : Bool) (s : Windows) : Prop :=
  (s.buffer bp).bfchg = true → discard = true

theorem bclear_handed (h : HandedBut bp s) (hmay : MayClear bp s) {discard : Bool}
    (hok : (bclear bp discard s).2 = true) : Handed (bclear bp discard s).1 := by
  unfold bclear at hok ⊢
  dsimp only at hok ⊢
  split at hok
  · cases hok
  · next hchg =>
    rw [if_neg hchg]
    refine (reset_handed (f := Buffer.emptied s.nextline) h rfl rfl ?_ (fun w => ?_)
      (fun w hw => ?_) fun w hw hwbp => ?_).nextline (s.nextline + 1)
    · refine ⟨.inr List.mem_cons_self, ?_⟩
      have hmark : ((s.buffer bp).emptied s.nextline).b_mark = nullpos := MARKRING.mark_setMark ..
      rw [hmark]
      exact POS.on_nullpos _
    · split <;> rfl
    · rw [if_neg hw]
    · rw [if_pos hwbp]
      exact settled_of_reset (.inr List.mem_cons_self) rfl ((hmay w hw hwbp).mono fun _ => .inl)

/-- `bclear` does what it is allowed to, or nothing. -/
theorem bclear_refused {discard : Bool} (h : (bclear bp discard s).2 = false) :
    (bclear bp discard s).1 = s := by
  unfold bclear at h ⊢
  dsimp only at h ⊢
  split at h
  · next hchg => rw [if_pos hchg]
  · cases h

theorem bclear_ok_iff (discard : Bool) : (bclear bp discard s).2 = true ↔ Clears bp discard s :=
  bclear_ok s bp discard

theorem mayClear_bclear (hmay : MayClear bp s) (discard : Bool) :
    MayClear bp (bclear bp discard s).1 := by
  unfold bclear
  dsimp only
  split
  · exact hmay
  · intro w hw hwbp
    have hlinep : ((s.modBuf bp (Buffer.emptied s.nextline)).buffer bp).b_linep =
        (s.buffer bp).b_linep := modBuf_keeps Buffer.b_linep s bp rfl bp
    rw [allwind_wheadp, List.mem_map] at hw
    obtain ⟨v, hv, rfl⟩ := hw
    have hvbp : v.w_bufp = bp := by
      split at hwbp <;> exact hwbp
    dsimp only
    rw [if_pos hvbp]
    exact ((hmay v hv hvbp).setMark _).mono fun lp hlp => hlp.trans hlinep.symm

theorem bclear_mark {discard : Bool} (h : (bclear bp discard s).2 = true) :
    ((bclear bp discard s).1.buffer bp).b_mark = nullpos := by
  unfold bclear at h ⊢
  dsimp only at h ⊢
  split at h
  · cases h
  · next hchg =>
    rw [if_neg hchg]
    show ((s.modBuf bp (Buffer.emptied s.nextline)).buffer bp).b_mark = nullpos
    rw [modBuf_self]
    exact MARKRING.mark_setMark ..

theorem Windows.HandedBut.modBuf {f : Buffer → Buffer} (h : HandedBut bp s)
    (hn : (f (s.buffer bp)).b_nwnd = (s.buffer bp).b_nwnd)
    (ha : (f (s.buffer bp)).b_active = (s.buffer bp).b_active) : HandedBut bp (s.modBuf bp f) where
  table := Table.modBuf h.table hn fun hact => ha.trans hact
  fits := h.fits
  home := fun w hw hwbp => by
    show w.Settled ((s.modBuf bp f).buffer w.w_bufp)
    rw [modBuf_of_ne s hwbp]
    exact h.home w hw hwbp
  kept := fun b hb hbbp hshown => by
    rw [modBuf_of_ne s hbbp]
    exact h.kept b hb hbbp hshown

theorem mayClear_modBuf {f : Buffer → Buffer} (hmay : MayClear bp s)
    (hp : (f (s.buffer bp)).b_linep = (s.buffer bp).b_linep) : MayClear bp (s.modBuf bp f) := by
  intro w hw hwbp
  rw [modBuf_self, hp]
  exact hmay w hw hwbp

theorem Buffer.has_firstline (b : Buffer) : b.Has b.firstline := by
  unfold Buffer.firstline Buffer.lforw
  rw [if_pos rfl]
  cases hl : b.lines with
  | nil => exact .inl rfl
  | cons lp lines =>
      refine .inr ?_
      rw [hl]
      exact List.mem_cons_self

theorem reframe_handed (h : HandedBut bp s) (hmay : MayClear bp s)
    (hmark : (s.buffer bp).b_mark = nullpos) : Handed (reframe bp s) := by
  refine reset_handed (f := fun b => { b with b_dot := { b.b_dot with p := (s.buffer bp).firstline } })
    h rfl rfl ?_ (fun w => ?_) (fun w hw => ?_) fun w hw hwbp => ?_
  · exact ⟨Buffer.has_firstline _, hmark ▸ POS.on_nullpos _⟩
  · split <;> rfl
  · rw [if_neg hw]
  · rw [if_pos hwbp]
    exact settled_of_reset (Buffer.has_firstline _) rfl ((hmay w hw hwbp).mono fun _ => .inl)

/-- What `readlines` needs and leaves. -/
structure Cleared (bp : BufId) (s : Windows) : Prop where
  handed : HandedBut bp s
  may : MayClear bp s
  mark : (s.buffer bp).b_mark = nullpos

theorem Cleared.modBuf {f : Buffer → Buffer} (h : Cleared bp s)
    (hn : (f (s.buffer bp)).b_nwnd = (s.buffer bp).b_nwnd)
    (ha : (f (s.buffer bp)).b_active = (s.buffer bp).b_active)
    (hp : (f (s.buffer bp)).b_linep = (s.buffer bp).b_linep)
    (hm : (f (s.buffer bp)).b_mark = (s.buffer bp).b_mark) : Cleared bp (s.modBuf bp f) where
  handed := h.handed.modBuf hn ha
  may := mayClear_modBuf h.may hp
  mark := by
    rw [modBuf_self, hm]
    exact h.mark

theorem Cleared.nextline (h : Cleared bp s) (lp : LineId) : Cleared bp { s with nextline := lp } :=
  ⟨⟨h.handed.table.of_eq rfl rfl rfl, h.handed.fits, h.handed.home, h.handed.kept⟩, h.may, h.mark⟩

theorem readlines_cleared (h : Cleared bp s) (file : FileRead) : Cleared bp (readlines bp file s).1 := by
  cases file with
  | openerr => exact h
  | notfound => exact h
  | lines n hadnl err =>
      unfold readlines
      exact (h.modBuf rfl rfl rfl rfl).nextline _

/-- `readin` goes through. -/
theorem readin_handed (h : HandedBut bp s) (hmay : MayClear bp s) {io : ReadIo}
    (hnamed : io.named = true) (hclears : Clears bp io.discard s) : Handed (readin bp io s).1 := by
  have hok := (bclear_ok_iff io.discard).mpr hclears
  have hcleared : Cleared bp (bclear bp io.discard s).1 :=
    ⟨(bclear_handed h hmay hok).but bp, mayClear_bclear hmay _, bclear_mark hok⟩
  unfold readin
  rw [hnamed]
  dsimp only
  rw [hok]
  have hread := readlines_cleared (hcleared.modBuf (f := fun b => { b with
    bfhexl := false, bfchg := false, b_fname := io.fname }) rfl rfl rfl rfl) io.file
  exact reframe_handed hread.handed hread.may hread.mark

/-- `readin` is refused. -/
theorem readin_refused {io : ReadIo} (h : ¬ (io.named = true ∧ Clears bp io.discard s)) :
    (readin bp io s).1 = s := by
  unfold readin
  split
  · rfl
  · next hnamed =>
    have hclears : ¬ Clears bp io.discard s := fun hc => h ⟨by simpa using hnamed, hc⟩
    have hno : (bclear bp io.discard s).2 = false := by
      rw [← bclear_ok_iff] at hclears
      simpa using hclears
    dsimp only
    rw [hno]
    exact bclear_refused hno

/-- The buffer may be read again. -/
def MayRead (bp : BufId) (io : ReadIo) (s : Windows) : Prop :=
  io.named = true → Clears bp io.discard s → MayClear bp s

theorem reread_handed (h : Handed s) {io : ReadIo} (hmay : MayRead bp io s) :
    Handed (readin bp io s).1 := by
  by_cases hgo : io.named = true ∧ Clears bp io.discard s
  · exact readin_handed (h.but bp) (hmay hgo.1 hgo.2) hgo.1 hgo.2
  · rw [readin_refused hgo]
    exact h

end Lines

/-! ## Buffers that are made, or get more lines -/

section Grow

variable {s t : Windows} {bp b : BufId} {f : Buffer → Buffer}

theorem Window.Settled.mono {b c : Buffer} {w : Window} (h : w.Settled b)
    (hhas : ∀ lp, b.Has lp → c.Has lp) : w.Settled c :=
  ⟨hhas _ h.dot, fun hn => hhas _ (h.mark hn), h.older.mono hhas⟩

/-- A buffer keeps its lines and its pointers. -/
theorem Windows.Handed.grow (h : Handed s) (hn : (f (s.buffer bp)).b_nwnd = (s.buffer bp).b_nwnd)
    (ha : (s.buffer bp).b_active = true → (f (s.buffer bp)).b_active = true)
    (hhas : ∀ lp, (s.buffer bp).Has lp → (f (s.buffer bp)).Has lp)
    (hdot : (f (s.buffer bp)).b_dot = (s.buffer bp).b_dot)
    (hmark : (f (s.buffer bp)).b_mark = (s.buffer bp).b_mark) : Handed (s.modBuf bp f) where
  table := Table.modBuf h.table hn ha
  fits := h.fits
  home := fun w hw => by
    show w.Settled ((s.modBuf bp f).buffer w.w_bufp)
    by_cases hwbp : w.w_bufp = bp
    · rw [hwbp, modBuf_self]
      exact Window.Settled.mono (hwbp ▸ h.home w hw) hhas
    · rw [modBuf_of_ne s hwbp]
      exact h.home w hw
  kept := fun b hb hshown => by
    have hkept := h.kept b hb hshown
    by_cases hbbp : b = bp
    · subst hbbp
      rw [modBuf_self]
      refine ⟨?_, ?_⟩
      · rw [hdot]
        exact hhas _ hkept.dot
      · rw [hmark]
        exact fun hne => hhas _ (hkept.mark hne)
    · rw [modBuf_of_ne s hbbp]
      exact hkept

theorem newbuf_handed (h : Handed s) (bname : String) : Handed (newbuf bname s) where
  table := Table.newbuf h.table bname
  fits := h.fits
  home := fun w hw => by
    have hmem : w.w_bufp ∈ s.bheadp := h.table.tally.mem _ (mem_shown.mpr ⟨w, hw, rfl⟩)
    show w.Settled ((newbuf bname s).buffer w.w_bufp)
    rw [newbuf_buffer s (h.table.fresh _ hmem).ne]
    exact h.home w hw
  kept := fun b hb hshown => by
    rcases List.mem_cons.mp hb with rfl | hb
    · rw [newbuf_buffer_self]
      exact ⟨.inr List.mem_cons_self, POS.on_nullpos _⟩
    · rw [newbuf_buffer s (h.table.fresh b hb).ne]
      exact h.kept b hb hshown

theorem bfind_handed (h : Handed s) (bname : String) : Handed (bfind bname s).2 := by
  unfold bfind
  split
  · dsimp only
    exact h.grow rfl (fun _ => rfl) (fun _ hlp => hlp) rfl rfl
  · exact newbuf_handed h bname

theorem getscratch_handed (h : Handed s) : Handed (getscratch s).2 := by
  unfold getscratch
  split
  · dsimp only
    exact h.grow rfl (fun _ => rfl) (fun _ hlp => hlp) rfl rfl
  · exact newbuf_handed h "main"

/-! ## A file that has no buffer -/

/-- The current window has left its buffer, and nothing else has changed that reading
a file depends on. -/
structure Left (s t : Windows) : Prop where
  away : Away t
  above : t.above = s.above
  below : t.below = s.below
  curwp : t.curwp = s.curwp
  bheadp : t.bheadp = s.bheadp
  has : ∀ b, (t.buffer b).Has = (s.buffer b).Has
  linep : ∀ b, (t.buffer b).b_linep = (s.buffer b).b_linep
  chg : ∀ b, (t.buffer b).bfchg = (s.buffer b).bfchg

theorem undisplay_left (h : Handed s) : Left s (undisplay s) where
  away := undisplay_away h
  above := rfl
  below := rfl
  curwp := rfl
  bheadp := rfl
  has := undisplay_has
  linep := fun b => by
    refine modBuf_keeps Buffer.b_linep s s.curbp ?_ b
    dsimp only
    split <;> rfl
  chg := fun b => by
    refine modBuf_keeps Buffer.bfchg s s.curbp ?_ b
    dsimp only
    split <;> rfl

theorem addcur_left (h : Handed s) : Left s (addcur (-1) s) := by
  have hcur : s.curbp ∈ s.bheadp := h.table.tally.mem _ List.mem_cons_self
  have hne : (s.buffer s.curbp).b_nwnd ≠ 0 := fun hzero =>
    (Table.nwnd_eq_zero h.table h.fits hcur).mp hzero List.mem_cons_self
  have haway := addcur_away h
  rw [addcur_eq, counted_eq_self hne] at haway ⊢
  refine ⟨haway, rfl, rfl, rfl, rfl, fun b => ?_, fun b => ?_, fun b => ?_⟩
  · exact modBuf_keeps Buffer.Has s s.curbp (Buffer.counted_has ..) b
  · refine modBuf_keeps Buffer.b_linep s s.curbp ?_ b
    unfold Buffer.counted
    split <;> rfl
  · refine modBuf_keeps Buffer.bfchg s s.curbp ?_ b
    unfold Buffer.counted
    split <;> rfl

/-- The window may visit the file in the buffer: reading goes through, so that its
pointers are set, and it brings no older mark. -/
def MayVisit (bp : BufId) (io : ReadIo) (s : Windows) : Prop :=
  if bp = s.curbp then MayRead bp io s
  else io.named = true ∧ Clears bp io.discard s ∧ MayClear bp s ∧
    s.curwp.w_ring.Older (fun _ => False) ∧ (s.buffer bp).b_nwnd < 127

/-- The window is on the buffer, with pointers that are not good there. -/
theorem newfile_but (h : Away t) (hbp : bp ∈ t.bheadp) (hroom : t.elsewhere.count bp < 127) :
    HandedBut bp ((t.setCur fun w => { w with w_bufp := bp }).modBuf bp fun b =>
      { b with b_nwnd := schar (b.b_nwnd + 1) }) where
  table := Table.acquire (h.table.of_eq rfl rfl rfl) hbp rfl rfl
  fits := h.fits.cons hroom
  home := fun w hw hwbp => by
    rcases mem_wheadp.mp hw with rfl | hw
    · exact absurd rfl hwbp
    · show w.Settled ((t.modBuf bp fun b => { b with b_nwnd := schar (b.b_nwnd + 1) }).buffer w.w_bufp)
      exact Home.modBuf (h.home w hw) rfl
  kept := fun b hb hbbp hshown => by
    have hsame : ((t.setCur fun w => { w with w_bufp := bp }).modBuf bp fun b =>
        { b with b_nwnd := schar (b.b_nwnd + 1) }).buffer b = t.buffer b := modBuf_of_ne _ hbbp _
    rw [hsame]
    exact h.kept b hb (List.ne_and_not_mem_of_not_mem_cons hshown).2

/-- The marks that are in the way of reading are those from before. -/
theorem newfile_mayClear (hleft : Left s t) (hmay : MayClear bp s)
    (hcur : s.curwp.w_ring.Older (· = (s.buffer bp).b_linep)) :
    MayClear bp ((t.setCur fun w => { w with w_bufp := bp }).modBuf bp fun b =>
      { b with b_nwnd := schar (b.b_nwnd + 1) }) := by
  refine mayClear_modBuf (s := t.setCur fun w => { w with w_bufp := bp }) (fun w hw hwbp => ?_) rfl
  show w.w_ring.Older (· = (t.buffer bp).b_linep)
  rw [hleft.linep]
  rcases mem_wheadp.mp hw with rfl | hw
  · show t.curwp.w_ring.Older _
    rw [hleft.curwp]
    exact hcur
  · refine hmay w (mem_wheadp.mpr (.inr ?_)) hwbp
    rw [← hleft.above, ← hleft.below]
    exact hw

theorem newfile_handed (h : Handed s) (hbp : bp ∈ s.bheadp) {io : ReadIo} (hmay : MayVisit bp io s)
    (hleft : Left s t) : Handed (newfile bp io t).1 := by
  have helse : t.elsewhere = s.elsewhere := by
    rw [elsewhere, hleft.above, hleft.below, elsewhere]
  have hbp' : bp ∈ t.bheadp := hleft.bheadp ▸ hbp
  have hclears {discard : Bool} (hc : Clears bp discard s) :
      Clears bp discard ((t.setCur fun w => { w with w_bufp := bp }).modBuf bp fun b =>
        { b with b_nwnd := schar (b.b_nwnd + 1) }) := by
    intro hchg
    rw [modBuf_self] at hchg
    exact hc ((hleft.chg bp).symm.trans hchg)
  unfold newfile
  by_cases hcur : bp = s.curbp
  · rw [MayVisit, if_pos hcur] at hmay
    have hroom : t.elsewhere.count bp < 127 := helse ▸ room_of_counts h hbp (.inl hcur)
    by_cases hgo : io.named = true ∧ Clears bp io.discard s
    · have hclear := hmay hgo.1 hgo.2
      have hcurwp := hclear _ (mem_wheadp.mpr (.inl rfl)) hcur.symm
      exact readin_handed (newfile_but hleft.away hbp' hroom)
        (newfile_mayClear hleft hclear hcurwp) hgo.1 (hclears hgo.2)
    · -- the window is back on the buffer that it has left
      have hno : ¬ (io.named = true ∧ Clears bp io.discard
          ((t.setCur fun w => { w with w_bufp := bp }).modBuf bp fun b =>
            { b with b_nwnd := schar (b.b_nwnd + 1) })) := by
        refine fun hg => hgo ⟨hg.1, fun hchg => hg.2 ?_⟩
        rw [modBuf_self]
        exact (hleft.chg bp).trans hchg
      rw [readin_refused hno]
      have hset := h.home _ (mem_wheadp.mpr (.inl rfl))
      rw [Home, show s.curwp.w_bufp = bp from hcur.symm] at hset
      have hback := hset.congr (hleft.has bp)
      rw [← hleft.curwp] at hback
      exact hleft.away.settle (f := fun b => { b with b_nwnd := schar (b.b_nwnd + 1) })
        (w := { t.curwp with w_bufp := bp }) hbp' hroom rfl rfl rfl rfl
        ⟨hback.dot, hback.mark, hback.older⟩
  · rw [MayVisit, if_neg hcur] at hmay
    obtain ⟨hnamed, hc, hclear, hold, hn⟩ := hmay
    have hroom : t.elsewhere.count bp < 127 := helse ▸ room_of_counts h hbp (.inr hn)
    exact readin_handed (newfile_but hleft.away hbp' hroom)
      (newfile_mayClear hleft hclear (hold.mono fun _ => False.elim)) hnamed (hclears hc)

end Grow

end Emacs
