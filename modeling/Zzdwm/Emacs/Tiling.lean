import Zzdwm.Emacs.Frames
import Zzdwm.Lib.Tiling

/-!
# The windows tile the screen

Row 0 is the first row of the first window, each window has its mode line below
it, and the mode line of the last window is in the second last row of the screen.

* `SameRows` — what the commands that are not about windows keep;
* `Tiled`, `Tall` — the invariant, and that no window is too low;
* `windows_tile` — both over every run, and what a refused command leaves.
-/

namespace Emacs

open Tiling

/-- The rows of a window. -/
def Window.span (w : Window) : Span := ⟨w.w_toprow, w.w_ntrows⟩

namespace Windows

/-- The rows of the windows in screen order. -/
def spans (s : Windows) : List Span := s.wheadp.map Window.span

/-- The windows tile the rows above the echo line. -/
def Tiled (s : Windows) : Prop := Tiles 1 0 s.spans (s.nrow - 1)

/-- Every window has at least that many rows. -/
def Tall (r : Int) (s : Windows) : Prop := ∀ w ∈ s.wheadp, r ≤ w.w_ntrows

/-- `Tall` is about rows only. -/
theorem tall_iff {r : Int} {s : Windows} : Tall r s ↔ ∀ p ∈ s.spans, r ≤ p.rows := by
  simp [Tall, Windows.spans, Window.span]

/-- Two states whose windows have the same rows. -/
structure SameRows (s t : Windows) : Prop where
  spans : t.spans = s.spans
  nrow : t.nrow = s.nrow

end Windows

open Windows Machine

/-! ## Commands that keep the rows -/

namespace Windows.SameRows

theorem refl (s : Windows) : SameRows s s := ⟨rfl, rfl⟩

theorem trans {s t u : Windows} (hst : SameRows s t) (htu : SameRows t u) : SameRows s u :=
  ⟨htu.spans.trans hst.spans, htu.nrow.trans hst.nrow⟩

/-- `trans`, from the last step on. -/
theorem after {s t u : Windows} (htu : SameRows t u) (hst : SameRows s t) : SameRows s u :=
  hst.trans htu

theorem setCur {s : Windows} {f : Window → Window} (hf : (f s.curwp).span = s.curwp.span) :
    SameRows s (s.setCur f) := by
  refine ⟨?_, rfl⟩
  simp [Windows.setCur, Windows.spans, wheadp, hf]

theorem allwind {s : Windows} {f : Window → Window} (hf : ∀ w, (f w).span = w.span) :
    SameRows s (s.allwind f) := by
  refine ⟨?_, rfl⟩
  have hcomp : Window.span ∘ f = Window.span := funext hf
  simp [Windows.allwind, Windows.spans, wheadp, hf, hcomp, ← List.map_reverse]

theorem modBuf (s : Windows) (bp : BufId) (f : Buffer → Buffer) : SameRows s (s.modBuf bp f) :=
  ⟨rfl, rfl⟩

variable {s t : Windows}

theorem tiled (h : SameRows s t) (hs : Tiled s) : Tiled t := by
  rwa [Tiled, h.spans, h.nrow]

theorem tall {r : Int} (h : SameRows s t) (hs : Tall r s) : Tall r t := by
  rw [tall_iff, h.spans]
  exact tall_iff.mp hs

end Windows.SameRows

/-- Windows that stay where they are keep their rows. -/
theorem Calm.rows {s t : Windows} (h : Calm s t) : SameRows s t where
  nrow := h.nrow
  spans := by
    have hspan : Window.span = (fun p : Place => ⟨p.toprow, p.ntrows⟩) ∘ Window.place := rfl
    rw [spans, spans, hspan, ← List.map_map, ← List.map_map, h.wheadp]

section Same

variable (s : Windows) (bp : BufId) (io : ReadIo)

theorem addcur_rows (n : Int) : SameRows s (addcur n s) := by
  refine ⟨?_, rfl⟩
  simp only [addcur, addwind, spans, wheadp, modBuf]
  split <;> simp [Window.span]

theorem newbuf_rows (bname : String) : SameRows s (newbuf bname s) := ⟨rfl, rfl⟩

theorem bfind_rows (bname : String) : SameRows s (bfind bname s).2 := by
  unfold bfind
  split <;> exact ⟨rfl, rfl⟩

theorem usebuf_rows : SameRows s (usebuf bp s) := by
  have hcount : SameRows s (addcur 1 ((addcur (-1) s).setCur fun w => { w with
      w_bufp := bp, w_linep := ((addcur (-1) s).buffer bp).firstline
      w_flag := w.w_flag ||| (WFMODE ||| WFFORCE ||| WFHARD) })) :=
    SameRows.after (addcur_rows _ 1) (SameRows.after (SameRows.setCur rfl) (addcur_rows s (-1)))
  unfold usebuf
  dsimp only
  split
  · exact hcount
  · exact SameRows.after (calm_lookForOld _ bp).rows hcount

theorem activate_rows : SameRows s (activate bp io s) := by
  unfold activate
  refine SameRows.trans ?_ (SameRows.modBuf _ bp _)
  split
  · exact SameRows.refl s
  · exact (calm_readin s bp _).rows.trans (SameRows.modBuf _ bp _)

theorem undisplay_rows : SameRows s (undisplay s) := ⟨rfl, rfl⟩

theorem enter_rows : SameRows s (enter bp s) := by
  unfold enter
  dsimp only
  split
  · refine SameRows.after (SameRows.setCur rfl) ?_
    exact SameRows.after (SameRows.modBuf _ bp _) (SameRows.setCur rfl)
  · refine SameRows.after (calm_lookForOld _ bp).rows ?_
    exact SameRows.after (SameRows.modBuf _ bp _) (SameRows.setCur rfl)

theorem swbuffer_rows : SameRows s (swbuffer bp io s) := by
  refine SameRows.after (enter_rows _ bp) ?_
  split
  · exact undisplay_rows s
  · exact SameRows.after (activate_rows _ bp io) (undisplay_rows s)

theorem newfile_rows : SameRows s (newfile bp io s).1 := by
  refine SameRows.after (calm_readin _ bp io).rows ?_
  exact SameRows.after (SameRows.modBuf _ bp _) (SameRows.setCur rfl)

theorem getfile_rows (name : Option String) : SameRows s (getfile name io s).1 := by
  unfold getfile
  split
  · exact SameRows.refl s
  · cases filebuf io.fname s with
    | some bp => exact swbuffer_rows s bp io
    | none =>
        cases name with
        | none => exact SameRows.refl s
        | some bname =>
            refine SameRows.after (newfile_rows _ _ io) ?_
            exact SameRows.after (undisplay_rows _) (bfind_rows s bname)

theorem visitOld_rows : SameRows s (visitOld bp s) := by
  have hcount : SameRows s (addcur 1 ((addcur (-1) s).setCur fun w => { w with w_bufp := bp })) :=
    SameRows.after (addcur_rows _ 1) (SameRows.after (SameRows.setCur rfl) (addcur_rows s (-1)))
  unfold visitOld
  refine SameRows.after (SameRows.setCur rfl) ?_
  split
  · exact hcount
  · exact SameRows.after (calm_lookForOld _ bp).rows hcount

theorem visit_file_rows (name : Option String) : SameRows s (visit_file name io s).1 := by
  unfold visit_file
  split
  · exact SameRows.refl s
  · cases filebuf io.fname s with
    | some bp => exact visitOld_rows s bp
    | none =>
        cases name with
        | none => exact SameRows.refl s
        | some bname =>
            refine SameRows.after (newfile_rows _ _ io) ?_
            exact SameRows.after (addcur_rows _ (-1)) (bfind_rows s bname)

/-- What a computation returns has the same rows. -/
abbrev Level (x : Except Crash (Windows × Bool)) : Prop := Post x fun r => SameRows s r.1

theorem zotbuf_rows (discard : Bool) : Level s (zotbuf bp discard s) := by
  unfold zotbuf
  split
  · exact (post_ok _).mpr (SameRows.refl s)
  · dsimp only
    split
    · exact (post_ok _).mpr (calm_bclear s bp discard).rows
    · refine (calm_killundo _ bp).bind fun t ht => (post_pure _).mpr ?_
      exact SameRows.after ht.rows (SameRows.trans (calm_bclear s bp discard).rows ⟨rfl, rfl⟩)

theorem getscratch_rows : SameRows s (getscratch s).2 := by
  unfold getscratch
  split <;> exact ⟨rfl, rfl⟩

theorem alternate_rows : SameRows s (alternate bp s).2 := by
  unfold alternate
  split
  · exact SameRows.refl s
  · exact getscratch_rows s

theorem killbuf_rows (discard : Bool) : Level s (killbuf bp discard io s) :=
  (zotbuf_rows _ bp discard).mono fun _ ht =>
    ((alternate_rows s bp).trans (swbuffer_rows _ _ io)).trans ht

theorem killbuffer_rows (name : Option String) (discard : Bool) :
    Level s (killbuffer name discard io s) := by
  unfold killbuffer
  split
  · exact killbuf_rows s _ io discard
  · split
    · exact (killbuf_rows _ _ io discard).mono fun _ ht => SameRows.trans (SameRows.modBuf s _ _) ht
    · exact (post_ok _).mpr (SameRows.refl s)

end Same

/-- The commands that give rows to windows. -/
def Command.Resizes : Command → Prop
  | .onlywind | .splitwind | .enlargewind _ | .shrinkwind _ | .balancewindows | .zapwind => True
  | _ => False

/-! ## Window commands -/

/-- Around the current window. -/
theorem Windows.spans_eq (s : Windows) :
    s.spans = s.above.reverse.map Window.span ++ s.curwp.span :: s.below.map Window.span := by
  simp [spans, wheadp]

theorem Turned.rows {s t : Windows} (h : Turned s t) : SameRows s t :=
  ⟨by rw [spans, spans, h.wheadp], h.nrow⟩

@[simp] theorem Window.span_top (w : Window) : w.span.top = w.w_toprow := rfl

@[simp] theorem Window.span_rows (w : Window) : w.span.rows = w.w_ntrows := rfl

@[simp] theorem Window.redraw_toprow (w : Window) : w.redraw.w_toprow = w.w_toprow := rfl

@[simp] theorem Window.redraw_ntrows (w : Window) : w.redraw.w_ntrows = w.w_ntrows := rfl

/-- Counting windows out does not change the height of the screen. -/
theorem foldl_addwind_nrow (ws : List Window) (s : Windows) :
    (ws.foldl (fun s w => (addwind w (-1) s).2) s).nrow = s.nrow := by
  induction ws generalizing s with
  | nil => rfl
  | cons w ws ih => exact ih _

theorem onlywind_tiled (s : Windows) : Tiled (onlywind s).1 := by
  unfold onlywind
  dsimp only
  rw [Tiled, spans_eq]
  refine ⟨rfl, ?_⟩
  simp [foldl_addwind_nrow]
  omega

theorem splitwind_tiled {s : Windows} (h : Tiled s) : Tiled (splitwind s).1 := by
  unfold splitwind
  dsimp only
  split
  · exact h
  rw [Tiled, spans_eq] at h
  split
  · rw [Tiled, spans_eq]
    refine Tiles.replace h fun mid hmid => ?_
    refine Tiles.split hmid rfl rfl ?_
    simp
    omega
  · rw [Tiled, spans_eq, List.reverse_cons, List.map_append, List.append_assoc]
    refine Tiles.replace h fun mid hmid => ?_
    refine Tiles.split hmid rfl ?_ ?_ <;> simp <;> omega

theorem enlarge_tiled {s : Windows} {n : Int} (h : Tiled s) : Tiled (enlarge n s).1 := by
  unfold enlarge
  dsimp only
  rw [Tiled, spans_eq] at h
  split
  · next _ adj below hb =>
      split
      · rwa [Tiled, spans_eq]
      · rw [Tiled, spans_eq]
        rw [hb] at h
        refine Tiles.replace h fun mid hmid => ?_
        exact Tiles.border hmid rfl rfl rfl rfl
  · next adj above hb ha =>
      split
      · rwa [Tiled, spans_eq]
      · rw [Tiled, spans_eq, List.reverse_cons, List.map_append, List.append_assoc]
        rw [ha, List.reverse_cons, List.map_append, List.append_assoc] at h
        refine Tiles.replace h fun mid hmid => ?_
        exact Tiles.border (d := -n) hmid rfl rfl rfl (by simp)
  · rwa [Tiled, spans_eq]

theorem shrink_tiled {s : Windows} {n : Int} (h : Tiled s) : Tiled (shrink n s).1 := by
  unfold shrink
  dsimp only
  rw [Tiled, spans_eq] at h
  split
  · next _ adj below hb =>
      split
      · rwa [Tiled, spans_eq]
      · rw [Tiled, spans_eq]
        rw [hb] at h
        refine Tiles.replace h fun mid hmid => ?_
        exact Tiles.border (d := -n) hmid rfl rfl rfl (by simp)
  · next adj above hb ha =>
      split
      · rwa [Tiled, spans_eq]
      · rw [Tiled, spans_eq, List.reverse_cons, List.map_append, List.append_assoc]
        rw [ha, List.reverse_cons, List.map_append, List.append_assoc] at h
        refine Tiles.replace h fun mid hmid => ?_
        exact Tiles.border hmid rfl rfl rfl rfl
  · rwa [Tiled, spans_eq]

theorem enlargewind_tiled {s : Windows} {n : Int} (h : Tiled s) : Tiled (enlargewind n s).1 := by
  unfold enlargewind
  split
  · exact shrink_tiled h
  · exact enlarge_tiled h

theorem shrinkwind_tiled {s : Windows} {n : Int} (h : Tiled s) : Tiled (shrinkwind n s).1 := by
  unfold shrinkwind
  split
  · exact enlarge_tiled h
  · exact shrink_tiled h

/-- The second loop of `balancewindows` lays the windows out from a row on. -/
theorem balance_tiles {s : Windows} {size : Int} {ws : List Window} (toprow : Int) (hne : ws ≠ []) :
    Tiles 1 toprow ((balance s size toprow ws).map Window.span) (s.nrow - 1) := by
  induction ws generalizing toprow with
  | nil => exact absurd rfl hne
  | cons w ws ih =>
      refine ⟨rfl, ?_⟩
      cases ws with
      | nil =>
          -- the last window gets what is left
          simp [balance]
          omega
      | cons w' ws => exact ih _ (List.cons_ne_nil w' ws)

theorem balance_length {s : Windows} {size : Int} (toprow : Int) (ws : List Window) :
    (balance s size toprow ws).length = ws.length := by
  induction ws generalizing toprow with
  | nil => rfl
  | cons w ws ih => simp [balance, ih]

/-- Where there is more than one window, `balancewindows` lays out all of them. -/
theorem balancewindows_spans {s : Windows} (h : s.only = false) :
    (balancewindows s).1.wheadp =
      balance s ((s.nrow - 1).tdiv s.wheadp.length - 1) 0 s.wheadp := by
  unfold balancewindows
  rw [h]
  dsimp only
  set ws := balance s ((s.nrow - 1).tdiv s.wheadp.length - 1) 0 s.wheadp with hws
  have hlen : s.above.length < ws.length := by
    rw [hws, balance_length, wheadp, List.length_append, List.length_reverse, List.length_cons]
    omega
  rw [if_neg Bool.false_ne_true]
  cases hdrop : ws.drop s.above.length with
  | nil =>
      have hle := List.drop_eq_nil_iff.mp hdrop
      omega
  | cons w below =>
      show (ws.take s.above.length).reverse.reverse ++ w :: below = ws
      rw [List.reverse_reverse, ← hdrop, List.take_append_drop]

theorem balancewindows_nrow (s : Windows) : (balancewindows s).1.nrow = s.nrow := by
  unfold balancewindows
  split
  · rfl
  · dsimp only
    split <;> rfl

theorem wheadp_ne_nil (s : Windows) : s.wheadp ≠ [] := by simp [wheadp]

theorem balancewindows_tiled {s : Windows} (h : Tiled s) : Tiled (balancewindows s).1 := by
  cases honly : s.only with
  | true => rwa [balancewindows, honly]
  | false =>
      rw [Tiled, balancewindows_nrow, spans, balancewindows_spans honly]
      exact balance_tiles 0 (wheadp_ne_nil s)

theorem zapwind_tiled {s : Windows} (h : Tiled s) : Tiled (zapwind s).1 := by
  unfold zapwind
  dsimp only
  rw [Tiled, spans_eq] at h
  split
  · next _ pp above ha =>
      rw [Tiled, spans_eq]
      rw [ha, List.reverse_cons, List.map_append, List.append_assoc] at h
      refine Tiles.replace h fun mid hmid => ?_
      refine Tiles.merge hmid rfl ?_
      simp
      omega
  · next pp below ha hb =>
      rw [Tiled, spans_eq]
      rw [hb] at h
      refine Tiles.replace h fun mid hmid => ?_
      refine Tiles.merge hmid rfl ?_
      simp
      omega
  · rwa [Tiled, spans_eq]

/-- The other commands leave the rows of every window as they are. -/
theorem Command.run_rows {c : Command} (hc : ¬ c.Resizes) (s : Windows) : Level s (c.run s) := by
  cases c with
  | onlywind | splitwind | enlargewind | shrinkwind | balancewindows | zapwind =>
      exact absurd trivial hc
  | nextwind => exact (post_ok _).mpr (turned_nextwind s).rows
  | prevwind => exact (post_ok _).mpr (turned_prevwind s).rows
  | setmark f => exact (post_ok _).mpr (calm_setmark s f).rows
  | swapmark => exact (post_ok _).mpr (calm_swapmark s).rows
  | movedot i o => exact (post_ok _).mpr (calm_movedot s i o).rows
  | usebuffer bname => exact (post_ok _).mpr (SameRows.after (usebuf_rows _ _) (bfind_rows s bname))
  | nextbuffer => exact (post_ok _).mpr (usebuf_rows s _)
  | prevbuffer => exact (post_ok _).mpr (usebuf_rows s _)
  | swbuffer bp io =>
      dsimp only [Command.run]
      split
      · exact (post_ok _).mpr (swbuffer_rows s bp io)
      · exact (post_ok _).mpr (SameRows.refl s)
  | getfile name io => exact (post_ok _).mpr (getfile_rows s io name)
  | visit_file name io => exact (post_ok _).mpr (visit_file_rows s io name)
  | killbuffer name discard io => exact killbuffer_rows s io name discard
  | fileread io => exact (post_ok _).mpr (calm_readin s _ io).rows
  | bclear bp discard =>
      dsimp only [Command.run]
      split
      · exact (post_ok _).mpr (calm_bclear s bp discard).rows
      · exact (post_ok _).mpr (SameRows.refl s)
  | edit => exact (calm_replay s true).mono fun _ h => h.rows
  | undo chg => exact (calm_replay s chg).mono fun _ h => h.rows
  | redo => exact (calm_replay s true).mono fun _ h => h.rows
  | unmark => exact (post_ok _).mpr ⟨rfl, rfl⟩
  | filesave o => exact (calm_filesave s _ o).mono fun _ h => h.rows
  | filewrite fname o => exact (post_ok _).mpr (calm_filewrite s fname o).rows
  | filesaveall ask o => exact (calm_saveTour s ask o _).mono fun _ h => h.rows
  | quickexit o => exact (calm_saveTour s _ o _).mono fun _ h => h.rows
  | revertbuffer aborted io => exact (calm_revertbuffer s _ aborted).mono fun _ h => h.rows
  | hexlchange parses trailing o => exact (calm_hexlchangeLines s parses trailing o).mono fun _ h => h.rows

theorem Call.run_rows (c : Call) (s : Windows) : Level s (c.run s) := by
  cases c with
  | switchtobuffer bname io =>
      exact (post_ok _).mpr (SameRows.after (swbuffer_rows _ _ io) (bfind_rows s bname))
  | findfile name io => exact (post_ok _).mpr (visit_file_rows s io name)
  | savebuffer o => exact (calm_filesave s _ o).mono fun _ h => h.rows

/-! ## No window is empty -/

section Tall

variable {s : Windows} {r n : Int}

theorem Windows.tall_iff_around :
    Tall r s ↔ (∀ w ∈ s.above, r ≤ w.w_ntrows) ∧ r ≤ s.curwp.w_ntrows ∧
      ∀ w ∈ s.below, r ≤ w.w_ntrows := by
  simp [Tall, wheadp, or_imp, forall_and]

/-- So many windows fit on the screen. -/
theorem Windows.Tall.length_le (ht : Tall r s) (h : Tiled s) :
    (r + 1) * s.wheadp.length ≤ s.nrow - 1 := by
  have hle := Tiles.length_le h (tall_iff.mp ht)
  rw [spans, List.length_map] at hle
  omega

theorem onlywind_tall (hr : -1 ≤ r) (h : Tiled s) (ht : Tall r s) : Tall r (onlywind s).1 := by
  have hle := ht.length_le h
  have hpos : 0 < s.wheadp.length := List.length_pos_of_ne_nil (wheadp_ne_nil s)
  have hone : r + 1 ≤ (r + 1) * s.wheadp.length :=
    le_mul_of_one_le_right (by omega) (by exact_mod_cast hpos)
  have hrows : r ≤ (onlywind s).1.curwp.w_ntrows := by
    simp only [onlywind, Window.redraw_ntrows, foldl_addwind_nrow]
    omega
  exact tall_iff_around.mpr ⟨List.forall_mem_nil _, hrows, List.forall_mem_nil _⟩

theorem splitwind_tall (hr : r ≤ 1) (ht : Tall r s) : Tall r (splitwind s).1 := by
  unfold splitwind
  dsimp only
  rw [tall_iff_around] at ht
  split
  · exact tall_iff_around.mpr ht
  · obtain ⟨ha, hc, hb⟩ := ht
    have hhalf := Int.tdiv_eq_ediv_of_nonneg (a := s.curwp.w_ntrows - 1) (b := 2) (by omega)
    split
    · refine tall_iff_around.mpr ⟨ha, ?_, List.forall_mem_cons.mpr ⟨?_, hb⟩⟩ <;> simp <;> omega
    · refine tall_iff_around.mpr ⟨List.forall_mem_cons.mpr ⟨?_, ha⟩, ?_, hb⟩ <;> simp <;> omega

theorem enlarge_tall (hr : r ≤ 1) (hn : 0 ≤ n) (ht : Tall r s) : Tall r (enlarge n s).1 := by
  unfold enlarge
  dsimp only
  obtain ⟨ha, hc, hb⟩ := tall_iff_around.mp ht
  split
  · next _ adj below hbelow =>
      split
      · exact ht
      · rw [hbelow] at hb
        have hb' := (List.forall_mem_cons.mp hb).2
        refine tall_iff_around.mpr ⟨ha, ?_, List.forall_mem_cons.mpr ⟨?_, hb'⟩⟩ <;> simp <;> omega
  · next adj above hbelow habove =>
      split
      · exact ht
      · rw [habove] at ha
        have ha' := (List.forall_mem_cons.mp ha).2
        refine tall_iff_around.mpr ⟨List.forall_mem_cons.mpr ⟨?_, ha'⟩, ?_, hb⟩ <;> simp <;> omega
  · exact ht

theorem shrink_tall (hr : r ≤ 1) (hn : 0 ≤ n) (ht : Tall r s) : Tall r (shrink n s).1 := by
  unfold shrink
  dsimp only
  obtain ⟨ha, hc, hb⟩ := tall_iff_around.mp ht
  split
  · next _ adj below hbelow =>
      split
      · exact ht
      · rw [hbelow] at hb
        obtain ⟨hadj, hb'⟩ := List.forall_mem_cons.mp hb
        refine tall_iff_around.mpr ⟨ha, ?_, List.forall_mem_cons.mpr ⟨?_, hb'⟩⟩ <;> simp <;> omega
  · next adj above hbelow habove =>
      split
      · exact ht
      · rw [habove] at ha
        obtain ⟨hadj, ha'⟩ := List.forall_mem_cons.mp ha
        refine tall_iff_around.mpr ⟨List.forall_mem_cons.mpr ⟨?_, ha'⟩, ?_, hb⟩ <;> simp <;> omega
  · exact ht

theorem enlargewind_tall (hr : r ≤ 1) (ht : Tall r s) : Tall r (enlargewind n s).1 := by
  unfold enlargewind
  split
  · exact shrink_tall hr (by omega) ht
  · exact enlarge_tall hr (by omega) ht

theorem shrinkwind_tall (hr : r ≤ 1) (ht : Tall r s) : Tall r (shrinkwind n s).1 := by
  unfold shrinkwind
  split
  · exact enlarge_tall hr (by omega) ht
  · exact shrink_tall hr (by omega) ht

/-- Every window gets its share, and the last one no less. -/
theorem balance_tall {size : Int} (hsize : r ≤ size) (toprow : Int) (ws : List Window)
    (hfit : toprow + (size + 1) * ws.length ≤ s.nrow - 1) :
    ∀ w ∈ balance s size toprow ws, r ≤ w.w_ntrows := by
  induction ws generalizing toprow with
  | nil => exact List.forall_mem_nil _
  | cons w ws ih =>
      rw [List.length_cons] at hfit
      push_cast at hfit
      rw [balance, List.forall_mem_cons]
      cases ws with
      | nil =>
          refine ⟨?_, List.forall_mem_nil _⟩
          simp at hfit ⊢
          omega
      | cons w' ws =>
          rw [if_neg (List.cons_ne_nil w' ws)]
          refine ⟨hsize, ih _ ?_⟩
          linarith

theorem balancewindows_tall (hr : -1 ≤ r) (h : Tiled s) (ht : Tall r s) :
    Tall r (balancewindows s).1 := by
  cases honly : s.only with
  | true => rwa [balancewindows, honly]
  | false =>
      rw [Tall, balancewindows_spans honly]
      have hle := ht.length_le h
      have hpos : (0 : Int) < s.wheadp.length :=
        Int.natCast_pos.mpr (List.length_pos_of_ne_nil (wheadp_ne_nil s))
      have hnn : 0 ≤ s.nrow - 1 := le_trans (mul_nonneg (by omega) hpos.le) hle
      rw [Int.tdiv_eq_ediv_of_nonneg hnn]
      refine balance_tall ?_ 0 s.wheadp ?_
      · have := Int.le_ediv_of_mul_le hpos hle
        omega
      · have := Int.ediv_mul_le (s.nrow - 1) hpos.ne'
        linarith

theorem zapwind_tall (hr : -1 ≤ r) (ht : Tall r s) : Tall r (zapwind s).1 := by
  unfold zapwind
  dsimp only
  obtain ⟨ha, hc, hb⟩ := tall_iff_around.mp ht
  split
  · next _ pp above habove =>
      rw [habove] at ha
      obtain ⟨hpp, ha'⟩ := List.forall_mem_cons.mp ha
      refine tall_iff_around.mpr ⟨ha', ?_, hb⟩
      simp
      omega
  · next pp below _ hbelow =>
      rw [hbelow] at hb
      obtain ⟨hpp, hb'⟩ := List.forall_mem_cons.mp hb
      refine tall_iff_around.mpr ⟨ha, ?_, hb'⟩
      simp
      omega
  · exact tall_iff_around.mpr ⟨ha, hc, hb⟩

end Tall

/-! ## Every run -/

theorem Command.run_tiled (c : Command) {s : Windows} (h : Tiled s) :
    Post (c.run s) fun r => Tiled r.1 := by
  by_cases hc : c.Resizes
  · cases c with
    | onlywind => exact (post_ok _).mpr (onlywind_tiled s)
    | splitwind => exact (post_ok _).mpr (splitwind_tiled h)
    | enlargewind n => exact (post_ok _).mpr (enlargewind_tiled h)
    | shrinkwind n => exact (post_ok _).mpr (shrinkwind_tiled h)
    | balancewindows => exact (post_ok _).mpr (balancewindows_tiled h)
    | zapwind => exact (post_ok _).mpr (zapwind_tiled h)
    | _ => exact absurd hc id
  · exact (Command.run_rows hc s).mono fun r hr => hr.tiled h

theorem Command.run_tall (c : Command) {s : Windows} {m : Int} (hlo : -1 ≤ m) (hhi : m ≤ 1)
    (h : Tiled s) (ht : Tall m s) : Post (c.run s) fun r => Tall m r.1 := by
  by_cases hc : c.Resizes
  · cases c with
    | onlywind => exact (post_ok _).mpr (onlywind_tall hlo h ht)
    | splitwind => exact (post_ok _).mpr (splitwind_tall hhi ht)
    | enlargewind n => exact (post_ok _).mpr (enlargewind_tall hhi ht)
    | shrinkwind n => exact (post_ok _).mpr (shrinkwind_tall hhi ht)
    | balancewindows => exact (post_ok _).mpr (balancewindows_tall hlo h ht)
    | zapwind => exact (post_ok _).mpr (zapwind_tall hlo ht)
    | _ => exact absurd hc id
  · exact (Command.run_rows hc s).mono fun r hr => hr.tall ht

/-- One action keeps the windows on the screen. -/
theorem act_tiled (e : Action) {s : Windows} (h : Tiled s) : Post (act e s) Tiled := by
  cases e with
  | key c =>
      have hs : Tiled (startsaveundo s) := (SameRows.modBuf s _ _).tiled h
      exact (c.run_tiled hs).bind fun _ hr => (post_pure _).mpr hr
  | call c => exact (c.run_rows s).bind fun _ hr => (post_pure _).mpr (hr.tiled h)

theorem act_tall (e : Action) {s : Windows} {m : Int} (hlo : -1 ≤ m) (hhi : m ≤ 1) (h : Tiled s)
    (ht : Tall m s) : Post (act e s) (Tall m) := by
  cases e with
  | key c =>
      have hs := SameRows.modBuf s s.curbp fun b => { b with b_undo := true }
      exact (c.run_tall hlo hhi (hs.tiled h) (hs.tall ht)).bind fun _ hr => (post_pure _).mpr hr
  | call c => exact (c.run_rows s).bind fun _ hr => (post_pure _).mpr (hr.tall ht)

theorem otherFiles_rows (files : List FileArg) (s : Windows) : SameRows s (otherFiles files s) := by
  induction files generalizing s with
  | nil => exact SameRows.refl s
  | cons a files ih =>
      exact SameRows.after (ih _) (SameRows.after (calm_readin _ _ a.io).rows (newbuf_rows s a.bname))

/-- With one file or none there is one window. -/
theorem startup_one (nrow : Int) {files : List FileArg} (h : files.length < 2) :
    (startup nrow files).spans = [⟨0, nrow - 2⟩] ∧ (startup nrow files).nrow = nrow := by
  match files, h with
  | [], _ => simp [startup, bufinit, spans, wheadp, newwind, Window.span]
  | [a], _ =>
      have hrows := (calm_readin (bufinit nrow a.bname) 0 a.io).rows
      exact ⟨hrows.spans.trans (by simp [bufinit, spans, wheadp, newwind, Window.span]), hrows.nrow⟩

/-- The second file halves the screen. -/
theorem startup_two (nrow : Int) {files : List FileArg} (h : 2 ≤ files.length) :
    (startup nrow files).spans =
        [⟨0, nrow.tdiv 2 - 1⟩, ⟨nrow.tdiv 2, nrow - nrow.tdiv 2 - 2⟩] ∧
      (startup nrow files).nrow = nrow := by
  match files, h with
  | a :: a' :: files, _ =>
      have hfirst := (calm_readin (bufinit nrow a.bname) 0 a.io).rows
      set s := (readin 0 a.io (bufinit nrow a.bname)).1 with hs
      have hrest : SameRows (bufinitSecond a'.bname s) (startup nrow (a :: a' :: files)) :=
        SameRows.after (otherFiles_rows files _) (calm_readin _ _ a'.io).rows
      have hone : s.above = [] ∧ s.curwp.w_toprow = 0 := by
        have h := hfirst.spans
        have hinit : (bufinit nrow a.bname).spans = [⟨0, nrow - 0 - 2⟩] := rfl
        rw [hinit, spans_eq] at h
        cases habove : s.above with
        | nil =>
            rw [habove] at h
            exact ⟨rfl, congrArg Span.top (List.head_eq_of_cons_eq h)⟩
        | cons w above =>
            have hlen := congrArg List.length h
            simp [habove] at hlen
            omega
      have hnrow : s.nrow = nrow := hfirst.nrow
      refine ⟨hrest.spans.trans ?_, hrest.nrow.trans hnrow⟩
      simp [bufinitSecond, newbuf, modBuf, spans, wheadp, Window.span, newwind, hone, hnrow]

theorem startup_tiled (nrow : Int) (files : List FileArg) : Tiled (startup nrow files) := by
  by_cases h : files.length < 2
  · obtain ⟨hspans, hnrow⟩ := startup_one nrow h
    rw [Tiled, hspans, hnrow]
    exact ⟨rfl, by simp; omega⟩
  · obtain ⟨hspans, hnrow⟩ := startup_two nrow (not_lt.mp h)
    rw [Tiled, hspans, hnrow]
    exact ⟨rfl, by simp, by simp; omega⟩

/-- How high the terminal must be for every window to have a row at the start. -/
theorem startup_tall {nrow : Int} {files : List FileArg} :
    Tall 1 (startup nrow files) ↔ (if files.length < 2 then 3 else 5) ≤ nrow := by
  split
  · next h =>
      rw [tall_iff, (startup_one _ h).1]
      simp
      omega
  · next h =>
      rw [tall_iff, (startup_two _ (not_lt.mp h)).1]
      simp
      rcases lt_or_ge nrow 0 with hneg | hnn
      · have hhalf : nrow.tdiv 2 = -(-nrow).tdiv 2 := by rw [Int.neg_tdiv, neg_neg]
        have hle := Int.tdiv_nonneg (a := -nrow) (b := 2) (by omega) (by decide)
        omega
      · rw [Int.tdiv_eq_ediv_of_nonneg hnn]
        omega

/-! ## How many windows there are -/

section Many

variable {s : Windows} {n : Int}

/-- A command keeps the height of the screen; if it does not split a window there
are no more windows than before. -/
structure NoMore (s t : Windows) : Prop where
  nrow : t.nrow = s.nrow
  length : t.wheadp.length ≤ s.wheadp.length

theorem Windows.SameRows.noMore {t : Windows} (h : SameRows s t) : NoMore s t where
  nrow := h.nrow
  length := by
    have hlen := congrArg List.length h.spans
    rw [Windows.spans, Windows.spans, List.length_map, List.length_map] at hlen
    exact hlen.le

theorem onlywind_noMore : NoMore s (onlywind s).1 where
  nrow := (foldl_addwind_nrow _ _).trans (foldl_addwind_nrow _ _)
  length := List.length_pos_of_ne_nil (wheadp_ne_nil s)

theorem enlarge_noMore : NoMore s (enlarge n s).1 := by
  unfold enlarge
  dsimp only
  split
  · next _ adj below hb =>
      split
      · exact ⟨rfl, le_rfl⟩
      · exact ⟨rfl, by simp [wheadp, hb]⟩
  · next adj above hb ha =>
      split
      · exact ⟨rfl, le_rfl⟩
      · exact ⟨rfl, by simp [wheadp, hb, ha]⟩
  · exact ⟨rfl, le_rfl⟩

theorem shrink_noMore : NoMore s (shrink n s).1 := by
  unfold shrink
  dsimp only
  split
  · next _ adj below hb =>
      split
      · exact ⟨rfl, le_rfl⟩
      · exact ⟨rfl, by simp [wheadp, hb]⟩
  · next adj above hb ha =>
      split
      · exact ⟨rfl, le_rfl⟩
      · exact ⟨rfl, by simp [wheadp, hb, ha]⟩
  · exact ⟨rfl, le_rfl⟩

theorem balancewindows_noMore : NoMore s (balancewindows s).1 := by
  refine ⟨balancewindows_nrow s, ?_⟩
  cases honly : s.only with
  | true => rw [balancewindows, honly]; exact le_rfl
  | false => rw [balancewindows_spans honly, balance_length]

theorem zapwind_noMore : NoMore s (zapwind s).1 := by
  unfold zapwind
  dsimp only
  split
  · next _ pp above ha => exact ⟨rfl, by simp [wheadp, ha, countOut, modBuf]⟩
  · next pp below ha hb => exact ⟨rfl, by simp [wheadp, ha, hb, countOut, modBuf]⟩
  · exact ⟨rfl, by simp [wheadp]⟩

theorem enlargewind_noMore : NoMore s (enlargewind n s).1 := by
  unfold enlargewind
  split
  · exact shrink_noMore
  · exact enlarge_noMore

theorem shrinkwind_noMore : NoMore s (shrinkwind n s).1 := by
  unfold shrinkwind
  split
  · exact enlarge_noMore
  · exact shrink_noMore

theorem Command.run_noMore (c : Command) :
    Post (c.run s) fun r => c ≠ .splitwind → NoMore s r.1 := by
  by_cases hc : c.Resizes
  · cases c with
    | onlywind => exact (post_ok _).mpr fun _ => onlywind_noMore
    | splitwind => exact (post_ok _).mpr fun h => absurd rfl h
    | enlargewind n => exact (post_ok _).mpr fun _ => enlargewind_noMore
    | shrinkwind n => exact (post_ok _).mpr fun _ => shrinkwind_noMore
    | balancewindows => exact (post_ok _).mpr fun _ => balancewindows_noMore
    | zapwind => exact (post_ok _).mpr fun _ => zapwind_noMore
    | _ => exact absurd hc id
  · exact (Command.run_rows hc s).mono fun r hr _ => hr.noMore

theorem splitwind_nrow : (splitwind s).1.nrow = s.nrow := by
  unfold splitwind
  dsimp only
  split
  · rfl
  · split <;> rfl

theorem Command.run_nrow (c : Command) : Post (c.run s) fun r => r.1.nrow = s.nrow := by
  by_cases hc : c = .splitwind
  · rw [hc]
    exact (post_ok _).mpr splitwind_nrow
  · exact c.run_noMore.mono fun r hr => (hr hc).nrow

theorem act_nrow (e : Action) : Post (act e s) fun t => t.nrow = s.nrow := by
  cases e with
  | key c => exact (c.run_nrow).bind fun _ hr => (post_pure _).mpr hr
  | call c => exact (c.run_rows s).bind fun _ hr => (post_pure _).mpr hr.nrow

/-- On the screen with so many rows no window has three, so none is split. -/
def Cramped (s : Windows) : Prop :=
  Tiled s ∧ Tall (-1) s ∧ s.nrow < 5 ∧ s.wheadp.length ≤ 2

theorem Windows.Tiled.rows_le {m : Int} (h : Tiled s) (ht : Tall (-1) s) {w : Window}
    (hw : w ∈ s.wheadp) (hn : s.nrow < m) : w.w_ntrows < m - 2 := by
  have hrows := Tiles.rows_le h (fun p hp => by have := tall_iff.mp ht p hp; omega) w.span
    (List.mem_map_of_mem hw)
  simp at hrows
  omega

theorem Command.run_cramped (c : Command) (h : Cramped s) : Post (c.run s) fun r => Cramped r.1 := by
  obtain ⟨htiled, htall, hnrow, hlen⟩ := h
  have hmore : Post (c.run s) fun r => NoMore s r.1 := by
    by_cases hc : c = .splitwind
    · subst hc
      refine (post_ok _).mpr ?_
      have hcur : s.curwp.w_ntrows < 3 := htiled.rows_le htall (by simp [wheadp]) hnrow
      rw [Emacs.splitwind, if_pos hcur]
      exact ⟨rfl, le_rfl⟩
    · exact c.run_noMore.mono fun r hr => hr hc
  intro r hr
  have hno := hmore r hr
  exact ⟨c.run_tiled htiled r hr, c.run_tall (by decide) (by decide) htiled htall r hr,
    hno.nrow ▸ hnrow, hno.length.trans hlen⟩

theorem act_cramped (e : Action) (h : Cramped s) : Post (act e s) Cramped := by
  have hkeep {s t : Windows} (hst : SameRows s t) (h : Cramped s) : Cramped t :=
    ⟨hst.tiled h.1, hst.tall h.2.1, hst.nrow ▸ h.2.2.1, hst.noMore.length.trans h.2.2.2⟩
  cases e with
  | key c =>
      have hs : Cramped (startsaveundo s) := hkeep (SameRows.modBuf s _ _) h
      exact (c.run_cramped hs).bind fun _ hr => (post_pure _).mpr hr
  | call c => exact (c.run_rows s).bind fun _ hr => (post_pure _).mpr (hkeep hr h)

end Many

/-- `NROW`, which the height of the terminal is cut to. -/
def NROW : Int := 320

theorem startup_length (nrow : Int) (files : List FileArg) :
    (startup nrow files).wheadp.length ≤ 2 ∧ (startup nrow files).nrow = nrow := by
  have hlen : (startup nrow files).wheadp.length = (startup nrow files).spans.length := by
    rw [spans, List.length_map]
  by_cases h : files.length < 2
  · rw [hlen, (startup_one _ h).1]
    exact ⟨Nat.le_succ 1, (startup_one _ h).2⟩
  · rw [hlen, (startup_two _ (not_lt.mp h)).1]
    exact ⟨le_rfl, (startup_two _ (not_lt.mp h)).2⟩

/-- No window of the start is lower than the missing text of a one-row screen. -/
theorem startup_low {nrow : Int} (hn : 1 ≤ nrow) (files : List FileArg) :
    Tall (-1) (startup nrow files) := by
  rw [tall_iff]
  by_cases h : files.length < 2
  · rw [(startup_one _ h).1]
    simp
    omega
  · rw [(startup_two _ (not_lt.mp h)).1, Int.tdiv_eq_ediv_of_nonneg (by omega)]
    simp
    omega

/-- There are never as many windows as a `char` has values. -/
theorem few_windows {nrow : Int} {files : List FileArg} {s : Windows}
    (hn : 1 ≤ nrow) (hmax : nrow ≤ NROW) (hrun : Runs nrow files Any s) :
    s.wheadp.length < 256 := by
  obtain ⟨es, hrun⟩ := hrun
  obtain ⟨hlen, hrow⟩ := startup_length nrow files
  by_cases hsmall : nrow < 5
  · have hstart : Cramped (startup nrow files) :=
      ⟨startup_tiled nrow files, startup_low hn files, hrow.trans_lt hsmall, hlen⟩
    have h := hrun.preserves Cramped (fun e s t hs _ hstep => act_cramped e hs t hstep) hstart
    exact h.2.2.2.trans_lt (by decide)
  · have htall : Tall 1 (startup nrow files) := by
      rw [startup_tall]
      split <;> omega
    have h := hrun.preserves (fun s => Tiled s ∧ Tall 1 s ∧ s.nrow = nrow)
      (fun e s t hs _ hstep => ⟨act_tiled e hs.1 t hstep,
        act_tall e (by decide) (by decide) hs.1 hs.2.1 t hstep,
        (act_nrow e t hstep).trans hs.2.2⟩) ⟨startup_tiled nrow files, htall, hrow⟩
    have hfit := h.2.1.length_le h.1
    rw [NROW] at hmax
    rw [h.2.2] at hfit
    omega

/-! ## Refused commands -/

section Refused

variable {s : Windows} {n : Int}

theorem splitwind_refused (h : (splitwind s).2 = false) : (splitwind s).1 = s := by
  unfold splitwind at h ⊢
  dsimp only at h ⊢
  split at h
  · next hlt => rw [if_pos hlt]
  · split at h <;> cases h

theorem enlarge_refused (h : (enlarge n s).2 = false) : (enlarge n s).1 = s := by
  unfold enlarge at h ⊢
  dsimp only at h ⊢
  split at h
  · split at h
    · next hle => rw [if_pos hle]
    · cases h
  · split at h
    · next hle => rw [if_pos hle]
    · cases h
  · rfl

theorem shrink_refused (h : (shrink n s).2 = false) : (shrink n s).1 = s := by
  unfold shrink at h ⊢
  dsimp only at h ⊢
  split at h
  · split at h
    · next hle => rw [if_pos hle]
    · cases h
  · split at h
    · next hle => rw [if_pos hle]
    · cases h
  · rfl

theorem balancewindows_refused (h : (balancewindows s).2 = false) : (balancewindows s).1 = s := by
  unfold balancewindows at h ⊢
  dsimp only at h ⊢
  split at h
  · next honly => rw [if_pos honly]
  · split at h <;> cases h

/-- `zapwind` marks the only window for a redraw. -/
theorem zapwind_refused (h : (zapwind s).2 = false) :
    s.only = true ∧ (zapwind s).1 = s.setCur fun w => { w with w_flag := WFMODE ||| WFHARD } := by
  unfold zapwind at h ⊢
  dsimp only at h ⊢
  split at h
  · cases h
  · cases h
  · next ha hb => exact ⟨by simp [only, ha, hb], rfl⟩

end Refused

/-- What a window command that is refused leaves. -/
theorem Command.run_refused {c : Command} {s t : Windows} (hc : c.Resizes)
    (h : c.run s = .ok (t, false)) :
    t = s ∨ c = .zapwind ∧ s.only = true ∧
      t = s.setCur fun w => { w with w_flag := WFMODE ||| WFHARD } := by
  have hpair {r : Windows × Bool} (hr : (.ok r : Except Crash _) = .ok (t, false)) :
      r.2 = false ∧ t = r.1 := by
    cases hr
    exact ⟨rfl, rfl⟩
  cases c with
  | onlywind => cases (hpair h).1
  | splitwind => exact .inl ((hpair h).2.trans (splitwind_refused (hpair h).1))
  | enlargewind n =>
      obtain ⟨hfalse, rfl⟩ := hpair h
      unfold Emacs.enlargewind at hfalse ⊢
      split
      · next hn => exact .inl (shrink_refused (by rwa [if_pos hn] at hfalse))
      · next hn => exact .inl (enlarge_refused (by rwa [if_neg hn] at hfalse))
  | shrinkwind n =>
      obtain ⟨hfalse, rfl⟩ := hpair h
      unfold Emacs.shrinkwind at hfalse ⊢
      split
      · next hn => exact .inl (enlarge_refused (by rwa [if_pos hn] at hfalse))
      · next hn => exact .inl (shrink_refused (by rwa [if_neg hn] at hfalse))
  | balancewindows => exact .inl ((hpair h).2.trans (balancewindows_refused (hpair h).1))
  | zapwind =>
      obtain ⟨hfalse, rfl⟩ := hpair h
      exact .inr ⟨rfl, zapwind_refused hfalse⟩
  | _ => exact absurd hc id

/-- **The windows tile the screen in every run.**  No window is ever empty exactly
when none is at the start; a window command that is refused leaves the state as it
is, up to the redraw flags of the only window where that is to be deleted. -/
theorem windows_tile (nrow : Int) (files : List FileArg) :
    (∀ s, Runs nrow files Any s → Tiled s) ∧
    ((∀ s, Runs nrow files Any s → Tall 1 s) ↔ (if files.length < 2 then 3 else 5) ≤ nrow) ∧
    ∀ (c : Command) (s t : Windows), c.Resizes → c.run s = .ok (t, false) →
      t = s ∨ c = .zapwind ∧ s.only = true ∧
        t = s.setCur fun w => { w with w_flag := WFMODE ||| WFHARD } := by
  have hstart := startup_tiled nrow files
  refine ⟨fun s ⟨es, hrun⟩ => ?_, ⟨fun h => ?_, fun h s ⟨es, hrun⟩ => ?_⟩, ?_⟩
  · exact hrun.preserves Tiled (fun e s t hs _ hstep => act_tiled e hs t hstep) hstart
  · exact startup_tall.mp (h _ ⟨[], Run.nil _⟩)
  · refine (hrun.preserves (fun s => Tiled s ∧ Tall 1 s) (fun e s t hs _ hstep => ?_)
      ⟨hstart, startup_tall.mpr h⟩).2
    exact ⟨act_tiled e hs.1 t hstep, act_tall e (by decide) (by decide) hs.1 hs.2 t hstep⟩
  · exact fun c s t hc h => Command.run_refused hc h

/-- On a terminal with four rows the second of two windows has no row of text. -/
theorem windows_tile_small :
    ¬ ∀ nrow files s, Runs nrow files Any s → Tiled s ∧ Tall 1 s := by
  intro h
  have htall := (h 4 [⟨"a", true, true, "a", .notfound⟩, ⟨"b", true, true, "b", .notfound⟩] _
    ⟨[], Run.nil _⟩).2
  exact absurd (startup_tall.mp htall) (by decide)

end Emacs
