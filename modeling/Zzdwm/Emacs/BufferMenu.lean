import Mathlib
import Zzdwm.Emacs.Frames
import Zzdwm.Lib.Machine

/-!
# The buffer menu (`bufmenu.c`)

The menu shows the list of the buffers in the only window and works on the buffer of
the row that the cursor is on, which it counts off on the buffer list.

* `makelist`, `popblist`, `get_buffer`, `count_buffers`, `Menu.step` — the routines;
* `Alike` — what leaves the buffer list and its names alone;
* `Menu.Open` — what holds whenever the menu waits for a key;
* `filter_getElem?_iff` — when counting off agrees with the rows;
* `buffermenu_row_iff` — **the buffer counted off is the one on the row** exactly if
  no name up to there begins with a space, and a kill takes no buffer that is shown.

The keys come as what the menu makes of them.  What the rows say besides the name, the
prompts and the redisplay are left out.
-/

namespace Emacs

open Machine

/-! ## The list -/

/-- `makelist`: two lines of headings, a line for each buffer, and the empty line that
`bclear` leaves. -/
def makelist (blistp : BufId) (s : Windows) : Windows :=
  let s := s.modBuf blistp fun b => { b with bfchg := false }
  let s := (bclear blistp true s).1
  let new := List.range' s.nextline (2 + s.bheadp.length)
  let s := s.modBuf blistp fun b => { b with
    b_fname := "", lines := new ++ b.lines, b_dot := ⟨s.nextline, 0⟩ }
  { s with nextline := s.nextline + (2 + s.bheadp.length) }

/-- `popblist` gives the list a window that is not the current one. -/
def popup (blistp : BufId) (s : Windows) : Windows :=
  let take (w : Window) : Window × Windows :=
    let (w, t) := addwind w (-1) s
    ({ w with w_bufp := blistp },
      t.modBuf blistp fun b => { b with b_nwnd := schar (b.b_nwnd + 1) })
  match s.above.getLast?, s.below with
  | some w, _ =>
      let (w, t) := take w
      { t with above := s.above.dropLast ++ [w] }
  | none, w :: below =>
      let (w, t) := take w
      { t with below := w :: below }
  | none, [] => s

/-- `popblist`. -/
def popblist (blistp : BufId) (s : Windows) : Windows :=
  let s :=
    if (s.buffer blistp).b_nwnd ≠ 0 then s
    else popup blistp (if s.only then (splitwind s).1 else s)
  let lp := (s.buffer blistp).firstline
  s.allwind fun w =>
    if w.w_bufp = blistp then Window.redraw { w with
      w_linep := lp, w_dot := ⟨lp, 0⟩, w_ring := w.w_ring.setMark nullpos }
    else w

/-! ## Counting off -/

/-- `is_visible_buffer`. -/
def is_visible_buffer (s : Windows) (bp : BufId) : Bool :=
  (s.buffer bp).b_bname.toList.head? ≠ some ' '

/-- The loop of `get_buffer`. -/
def getLoop (s : Windows) (n : Nat) : Nat → List BufId → Option BufId
  | _, [] => none
  | i, bp :: bps =>
      if is_visible_buffer s bp then if i + 1 = n then some bp else getLoop s n (i + 1) bps
      else getLoop s n i bps

/-- `get_buffer`. -/
def get_buffer (n : Nat) (s : Windows) : Option BufId := getLoop s n 0 s.bheadp

/-- `count_buffers`. -/
def count_buffers (s : Windows) : Nat := s.bheadp.countP (is_visible_buffer s)

/-- `valid_buf`. -/
def valid_buf (bp : Option BufId) (s : Windows) : Option BufId := bp.filter (· ∈ s.bheadp)

/-! ## The menu -/

/-- What the menu makes of a key.  The reads are those of buffers that are not active
yet; `yes` is the answer to "Kill buffer". -/
inductive MenuKey
  | next | prev
  | one (io : ReadIo)
  | two (io io' : ReadIo)
  | save (o : SaveOutcome)
  | readonly
  | kill (yes discard : Bool)
  | quit (io : ReadIo)
  | other

/-- The editor and the locals of `buffermenu`.  `rows` are the buffers of the rows in the
list as it is displayed, and `row` is the line of it that the cursor is on, the first
being 0.  `looping` tells that the menu waits for a key. -/
structure Menu where
  ed : Windows
  bfro : BufId → Bool
  org_bp : Option BufId
  rows : List BufId
  row : Nat
  bufptr : Nat
  bufcount : Nat
  looping : Bool

/-- `forwline` on the list, which has an empty line behind its rows. -/
def forwline (n lines row : Nat) : Nat := min (row + n) (lines - 1)

namespace Menu

variable (blistp : BufId) (m : Menu)

/-- The lines of the list. -/
def lines : Nat := m.rows.length + 3

/-- What swaps the list in does not read a file. -/
def noRead : ReadIo := ⟨true, true, "", .notfound⟩

/-- From `start` on, up to the loop.  `popblist` has put the cursor on the first line. -/
def start : Menu :=
  let ed := popblist blistp (makelist blistp m.ed)
  let ed := (onlywind (swbuffer blistp noRead ed)).1
  let bufcount := count_buffers ed
  let bufptr := if m.bufptr > bufcount then bufcount else m.bufptr
  let bufptr := if bufptr < 1 then 1 else bufptr
  let lines := m.ed.bheadp.length + 3
  { m with
    ed := ed, rows := m.ed.bheadp, bufcount := bufcount, bufptr := bufptr
    row := forwline (if bufcount > 0 then bufptr + 1 else 2) lines 0 }

/-- `swbuffer (bp); onlywind (0, 0, KRANDOM);` at the end. -/
def leave (bp : BufId) (io : ReadIo) (s : Windows) : Menu :=
  { m with ed := (onlywind (swbuffer bp io s)).1, looping := false }

/-- The buffer that the menu goes back to. -/
def goback : BufId × Windows :=
  match valid_buf m.org_bp m.ed with
  | some org_bp =>
      if org_bp ≠ blistp then (org_bp, m.ed)
      else fallback
  | none => fallback
where
  /-- The first buffer that can be gone to. -/
  fallback : BufId × Windows :=
    match m.ed.bheadp.find? fun bp => is_visible_buffer m.ed bp && bp ≠ blistp with
    | some bp => (bp, m.ed)
    | none => getscratch m.ed

/-- `2` splits the window and goes back to the buffer that the menu came from, if that
is there and can be gone to. -/
def splitback (io : ReadIo) : Menu :=
  match valid_buf m.org_bp m.ed with
  | some org_bp =>
      if m.bufcount > 1 ∧ org_bp ≠ blistp then
        { m with ed := nextwind (swbuffer org_bp io (splitwind m.ed).1) }
      else m
  | none => m

/-- `s`. -/
def save (bp : BufId) (o : SaveOutcome) : Except Crash Menu :=
  if bp = blistp then .ok m
  else do
    let (ed, _) ← filesave bp o m.ed
    return start blistp { m with ed := ed }

/-- `v`. -/
def readonly (bp : BufId) : Menu :=
  if bp = blistp then start blistp m
  else start blistp { m with bfro := Function.update m.bfro bp (!m.bfro bp) }

/-- `k`. -/
def kill (bp : BufId) (yes discard : Bool) : Except Crash Menu :=
  if bp = blistp then .ok m
  else if !yes then .ok (start blistp m)
  else do
    let (ed, _) ← zotbuf bp discard m.ed
    return start blistp { m with
      ed := ed
      org_bp := if m.org_bp = some bp then none else m.org_bp
      bufptr := if m.bufptr > 1 then m.bufptr - 1 else m.bufptr }

/-- One round of the loop, if there is a row. -/
def act (key : MenuKey) : Except Crash Menu :=
  match key with
  | .next =>
      if m.bufcount ≤ m.bufptr then .ok m
      else .ok { m with row := forwline 1 m.lines m.row, bufptr := m.bufptr + 1 }
  | .prev =>
      if m.bufptr ≤ 1 then .ok m
      else .ok { m with row := m.row - 1, bufptr := m.bufptr - 1 }
  | .one io =>
      match get_buffer m.bufptr m.ed with
      | some bp => .ok (m.leave bp io m.ed)
      | none => .ok m
  | .two io io' =>
      match get_buffer m.bufptr m.ed with
      | some bp => .ok ((m.leave bp io m.ed).splitback blistp io')
      | none => .ok m
  | .save o =>
      match get_buffer m.bufptr m.ed with
      | some bp => m.save blistp bp o
      | none => .ok m
  | .readonly =>
      match get_buffer m.bufptr m.ed with
      | some bp => .ok (m.readonly blistp bp)
      | none => .ok (start blistp m)
  | .kill yes discard =>
      match get_buffer m.bufptr m.ed with
      | some bp => m.kill blistp bp yes discard
      | none => .ok (start blistp m)
  | .quit io => .ok (m.leave (m.goback blistp).1 io (m.goback blistp).2)
  | .other => .ok m

/-- One round of the loop.  Without a row, the menu can only be left. -/
def step (key : MenuKey) (m : Menu) : Except Crash Menu :=
  if !m.looping then .ok m
  else if m.bufcount = 0 then
    match key with
    | .quit io => .ok (m.leave (getscratch m.ed).1 io (getscratch m.ed).2)
    | _ => .ok m
  else m.act blistp key

end Menu

/-- `buffermenu`, up to its loop. -/
def buffermenu (blistp : BufId) (bfro : BufId → Bool) (s : Windows) : Menu :=
  Menu.start blistp ⟨s, bfro, some s.curbp, [], 0, 1, 0, true⟩

/-! ## What leaves the buffer list alone -/

/-- The buffers are those that there were, in order and under their names. -/
structure Alike (s t : Windows) : Prop where
  bheadp : t.bheadp = s.bheadp
  bname : ∀ b, (t.buffer b).b_bname = (s.buffer b).b_bname

namespace Alike

variable {s t u : Windows}

theorem refl (s : Windows) : Alike s s := ⟨rfl, fun _ => rfl⟩

theorem trans (hst : Alike s t) (htu : Alike t u) : Alike s u :=
  ⟨htu.bheadp.trans hst.bheadp, fun b => (htu.bname b).trans (hst.bname b)⟩

theorem modBuf (h : Alike s t) {bp : BufId} {f : Buffer → Buffer}
    (hf : (f (t.buffer bp)).b_bname = (t.buffer bp).b_bname) : Alike s (t.modBuf bp f) :=
  h.trans ⟨rfl, Windows.modBuf_keeps Buffer.b_bname t bp hf⟩

/-- New lines need numbers. -/
theorem nextline (h : Alike s t) (lp : LineId) : Alike s { t with nextline := lp } := { h with }

theorem setCur (h : Alike s t) (f : Window → Window) : Alike s (t.setCur f) := { h with }

theorem allwind (h : Alike s t) (f : Window → Window) : Alike s (t.allwind f) := { h with }

theorem visible (h : Alike s t) : is_visible_buffer t = is_visible_buffer s := by
  funext bp
  rw [is_visible_buffer, is_visible_buffer, h.bname]

theorem bclear (h : Alike s t) (bp : BufId) (discard : Bool) :
    Alike s (Emacs.bclear bp discard t).1 := by
  unfold Emacs.bclear
  split
  · exact h
  · exact ((h.modBuf rfl).nextline _).allwind _

theorem readlines (h : Alike s t) (bp : BufId) (file : FileRead) :
    Alike s (Emacs.readlines bp file t).1 := by
  cases file with
  | openerr => exact h
  | notfound => exact h
  | lines n hadnl err => exact (h.modBuf rfl).nextline _

theorem reframe (h : Alike s t) (bp : BufId) : Alike s (Emacs.reframe bp t) := by
  unfold Emacs.reframe
  exact (h.allwind _).modBuf rfl

theorem readin (h : Alike s t) (bp : BufId) (io : ReadIo) : Alike s (Emacs.readin bp io t).1 := by
  unfold Emacs.readin
  split
  · exact h
  · dsimp only
    split
    · exact h.bclear bp io.discard
    · have hread : Alike s (((Emacs.bclear bp io.discard t).1).modBuf bp fun b =>
          { b with bfhexl := false, bfchg := false, b_fname := io.fname }) :=
        (h.bclear bp io.discard).modBuf rfl
      exact (hread.readlines bp io.file).reframe bp

theorem lookForOld (h : Alike s t) (bp : BufId) : Alike s (Emacs.lookForOld bp t) := by
  unfold Emacs.lookForOld
  split
  · exact h.trans ⟨rfl, fun _ => rfl⟩
  · exact h

theorem swbuffer (h : Alike s t) (bp : BufId) (io : ReadIo) : Alike s (Emacs.swbuffer bp io t) := by
  have hundisplay : Alike s (undisplay t) := by
    refine h.modBuf ?_
    dsimp only
    split <;> rfl
  have hactive : Alike s (if ((undisplay t).buffer bp).b_active then undisplay t
      else activate bp io (undisplay t)) := by
    split
    · exact hundisplay
    · unfold activate
      refine Alike.modBuf ?_ rfl
      split
      · exact hundisplay
      · exact (hundisplay.readin bp _).modBuf rfl
  unfold Emacs.swbuffer enter
  dsimp only at hactive ⊢
  generalize (if ((undisplay t).buffer bp).b_active then undisplay t
    else activate bp io (undisplay t)) = u at hactive ⊢
  split
  · exact ((hactive.setCur _).modBuf rfl).setCur _
  · exact ((hactive.setCur _).modBuf rfl).lookForOld bp

theorem addwind (h : Alike s t) (w : Window) (n : Int) : Alike s (Emacs.addwind w n t).2 := by
  rw [addwind_eq]
  refine h.modBuf ?_
  unfold Buffer.counted
  split <;> rfl

theorem addwinds (h : Alike s t) (ws : List Window) :
    Alike s (ws.foldl (fun s w => (Emacs.addwind w (-1) s).2) t) := by
  induction ws generalizing t with
  | nil => exact h
  | cons w ws ih => exact ih (h.addwind w (-1))

theorem onlywind (h : Alike s t) : Alike s (Emacs.onlywind t).1 :=
  ((h.addwinds t.above.reverse).addwinds _).trans ⟨rfl, fun _ => rfl⟩

theorem splitwind (h : Alike s t) : Alike s (Emacs.splitwind t).1 := by
  have hcount : Alike s (t.modBuf t.curwp.w_bufp fun b =>
      { b with b_nwnd := schar (b.b_nwnd + 1) }) := h.modBuf rfl
  unfold Emacs.splitwind
  dsimp only
  split
  · exact h
  · split <;> exact hcount.trans ⟨rfl, fun _ => rfl⟩

theorem useundo (h : Alike s t) (bp : BufId) : Post (Emacs.useundo bp t) (Alike s) := by
  unfold Emacs.useundo
  split
  · exact (post_ok _).mpr h
  · exact post_error _

theorem writeout (h : Alike s t) (bp : BufId) (o : SaveOutcome) :
    Alike s (Emacs.writeout bp o t).1 := by
  unfold Emacs.writeout
  dsimp only
  split
  · exact (h.modBuf rfl).nextline _
  · exact h

theorem filesave (h : Alike s t) (bp : BufId) (o : SaveOutcome) :
    Post (Emacs.filesave bp o t) fun r => Alike s r.1 := by
  unfold Emacs.filesave
  dsimp only
  split
  · exact (post_ok _).mpr h
  split
  · exact (post_ok _).mpr h
  split
  · exact (post_ok _).mpr h
  split
  · split
    · exact (post_ok _).mpr h
    · exact (Alike.useundo (h.modBuf rfl) bp).bind fun _ ht => (post_pure _).mpr ht
  · refine (Alike.useundo ?_ bp).bind fun _ ht => (post_pure _).mpr ht
    split
    · exact (h.writeout bp o).modBuf rfl
    · exact h.writeout bp o

theorem makelist (h : Alike s t) (blistp : BufId) : Alike s (Emacs.makelist blistp t) := by
  have hflag : Alike s (t.modBuf blistp fun b => { b with bfchg := false }) := h.modBuf rfl
  have hclear := hflag.bclear blistp true
  exact (hclear.modBuf rfl).nextline _

theorem popup (h : Alike s t) (blistp : BufId) : Alike s (Emacs.popup blistp t) := by
  have htake : ∀ w, Alike s ((Emacs.addwind w (-1) t).2.modBuf blistp fun b =>
      { b with b_nwnd := schar (b.b_nwnd + 1) }) := fun w => (h.addwind w (-1)).modBuf rfl
  unfold Emacs.popup
  dsimp only
  split
  · exact (htake _).trans ⟨rfl, fun _ => rfl⟩
  · exact (htake _).trans ⟨rfl, fun _ => rfl⟩
  · exact h

theorem popblist (h : Alike s t) (blistp : BufId) : Alike s (Emacs.popblist blistp t) := by
  have hpop : Alike s (if (t.buffer blistp).b_nwnd ≠ 0 then t
      else Emacs.popup blistp (if t.only then (Emacs.splitwind t).1 else t)) := by
    split
    · exact h
    · apply Alike.popup
      split
      · exact h.splitwind
      · exact h
  exact hpop.trans ⟨rfl, fun _ => rfl⟩

end Alike

/-- `zotbuf` takes the buffer off the list at most. -/
theorem zotbuf_bheadp {s : Windows} (bp : BufId) (discard : Bool) :
    Post (zotbuf bp discard s) fun r =>
      Alike s r.1 ∨ Alike { s with bheadp := s.bheadp.erase bp } r.1 := by
  unfold zotbuf
  split
  · exact (post_ok _).mpr (Or.inl (.refl s))
  dsimp only
  have hclear := (Alike.refl s).bclear bp discard
  split
  · exact (post_ok _).mpr (Or.inl hclear)
  · have herase : Alike { s with bheadp := s.bheadp.erase bp } { (bclear bp discard s).1 with
        bheadp := (bclear bp discard s).1.bheadp.erase bp } :=
      ⟨congrArg (fun l => l.erase bp) hclear.bheadp, hclear.bname⟩
    unfold killundo
    refine Post.bind ((herase.useundo bp).bind fun _ ht => (post_pure _).mpr (ht.modBuf rfl)) ?_
    exact fun _ ht => (post_pure _).mpr (Or.inr ht)

/-! ## Rows -/

variable {blistp : BufId} {m t : Menu} {s : Windows} {key : MenuKey}

/-- Counting off is looking up among the buffers that are counted. -/
theorem getLoop_eq (s : Windows) {n i : Nat} (h : i < n) (bps : List BufId) :
    getLoop s n i bps = (bps.filter (is_visible_buffer s))[n - i - 1]? := by
  induction bps generalizing i with
  | nil => rfl
  | cons bp bps ih =>
      rw [getLoop]
      by_cases hvis : is_visible_buffer s bp = true
      · rw [if_pos hvis, List.filter_cons_of_pos hvis]
        by_cases hlast : i + 1 = n
        · rw [if_pos hlast]
          have hzero : n - i - 1 = 0 := by omega
          rw [hzero]
          rfl
        · rw [if_neg hlast, ih (by omega)]
          have hsucc : n - i - 1 = n - (i + 1) - 1 + 1 := by omega
          rw [hsucc, List.getElem?_cons_succ]
      · rw [if_neg hvis, List.filter_cons_of_neg hvis]
        exact ih h

theorem get_buffer_eq {n : Nat} (h : 0 < n) (s : Windows) :
    get_buffer n s = (s.bheadp.filter (is_visible_buffer s))[n - 1]? := getLoop_eq s h s.bheadp

/-- What is left of a list stood no earlier in the whole of it. -/
theorem filter_getElem?_later (p : BufId → Bool) (l : List BufId) {r : Nat}
    (hr : r < (l.filter p).length) :
    ∃ k, r ≤ k ∧ ∃ h : k < l.length, (l.filter p)[r]? = some l[k] := by
  induction l generalizing r with
  | nil => exact absurd hr (Nat.not_lt_zero r)
  | cons b l ih =>
      by_cases hb : p b = true
      · rw [List.filter_cons_of_pos hb] at hr ⊢
        cases r with
        | zero => exact ⟨0, Nat.le_refl 0, Nat.zero_lt_succ _, rfl⟩
        | succ r =>
            obtain ⟨k, hk, hkl, hget⟩ := ih (Nat.lt_of_succ_lt_succ hr)
            exact ⟨k + 1, Nat.succ_le_succ hk, Nat.succ_lt_succ hkl, hget⟩
      · rw [List.filter_cons_of_neg hb] at hr ⊢
        obtain ⟨k, hk, hkl, hget⟩ := ih hr
        exact ⟨k + 1, Nat.le_succ_of_le hk, Nat.succ_lt_succ hkl, hget⟩

/-- **A row and the count agree** exactly if all the rows so far are counted. -/
theorem filter_getElem?_iff {p : BufId → Bool} {l : List BufId} (hnd : l.Nodup) {r : Nat}
    (hr : r < (l.filter p).length) :
    (l.filter p)[r]? = l[r]? ↔ ∀ bp ∈ l.take (r + 1), p bp = true := by
  constructor
  · intro heq
    have hlen : (l.filter p).length ≤ l.length := List.length_filter_le p l
    have hrl : r < l.length := Nat.lt_of_lt_of_le hr hlen
    induction l generalizing r with
    | nil => cases hrl
    | cons a l ih =>
        obtain ⟨ha, hnd'⟩ := List.nodup_cons.mp hnd
        by_cases hp : p a = true
        · rw [List.filter_cons_of_pos hp] at heq hr
          rw [List.take_succ_cons, List.forall_mem_cons]
          refine ⟨hp, ?_⟩
          cases r with
          | zero => simp
          | succ r =>
              rw [List.length_cons] at hr hrl
              rw [List.getElem?_cons_succ, List.getElem?_cons_succ] at heq
              exact ih hnd' (Nat.lt_of_succ_lt_succ hr) heq (List.length_filter_le p l)
                (Nat.lt_of_succ_lt_succ hrl)
        · -- one row is not counted, and what is counted comes later from here on
          rw [List.filter_cons_of_neg hp] at heq hr
          obtain ⟨k, hk, hkl, hget⟩ := filter_getElem?_later p l hr
          rw [hget] at heq
          cases r with
          | zero =>
              rw [List.getElem?_cons_zero] at heq
              cases heq
              exact absurd (List.getElem_mem hkl) ha
          | succ r =>
              rw [List.getElem?_cons_succ] at heq
              obtain ⟨hrl', hsame⟩ := List.getElem?_eq_some_iff.mp heq.symm
              have hidx := (List.Nodup.getElem_inj_iff hnd').mp hsame
              omega
  · intro hall
    induction l generalizing r with
    | nil => rfl
    | cons a l ih =>
        obtain ⟨-, hnd⟩ := List.nodup_cons.mp hnd
        rw [List.take_succ_cons, List.forall_mem_cons] at hall
        rw [List.filter_cons_of_pos hall.1] at hr ⊢
        cases r with
        | zero => rfl
        | succ r => exact ih hnd (Nat.lt_of_succ_lt_succ hr) hall.2

/-- What holds whenever the menu waits for a key. -/
structure Menu.Open (blistp : BufId) (m : Menu) : Prop where
  nodup : m.ed.bheadp.Nodup
  unlisted : blistp ∉ m.ed.bheadp
  rows : m.rows = m.ed.bheadp
  bufcount : m.bufcount = (m.ed.bheadp.filter (is_visible_buffer m.ed)).length
  pos : 1 ≤ m.bufptr
  few : 0 < m.bufcount → m.bufptr ≤ m.bufcount
  row : 0 < m.bufcount → m.row = m.bufptr + 1
  /-- The list has the screen to itself. -/
  shown : ∀ w ∈ m.ed.wheadp, w.w_bufp = blistp

/-- There is a row for every buffer that is counted. -/
theorem Menu.Open.bufcount_le (h : m.Open blistp) : m.bufcount ≤ m.rows.length := by
  rw [h.bufcount, h.rows]
  exact List.length_filter_le _ _

theorem swbuffer_curbp (bp : BufId) (io : ReadIo) (s : Windows) :
    (swbuffer bp io s).curbp = bp := by
  unfold swbuffer
  dsimp only
  generalize (if ((undisplay s).buffer bp).b_active then undisplay s
    else activate bp io (undisplay s)) = u
  unfold enter
  dsimp only
  split
  · rfl
  · exact (calm_lookForOld _ bp).curbp

theorem addwinds_curwp (ws : List Window) (s : Windows) :
    (ws.foldl (fun s w => (addwind w (-1) s).2) s).curwp = s.curwp := by
  induction ws generalizing s with
  | nil => rfl
  | cons w ws ih => exact ih _

theorem onlywind_wheadp (s : Windows) : ∀ w ∈ (onlywind s).1.wheadp, w.w_bufp = s.curbp := by
  intro w hw
  have hsingle : (onlywind s).1.wheadp = [(onlywind s).1.curwp] := rfl
  rw [hsingle, List.mem_singleton] at hw
  subst hw
  unfold onlywind Window.redraw
  dsimp only
  rw [addwinds_curwp, addwinds_curwp]
  rfl

/-- The number of the row is brought into its bounds. -/
theorem bounded_row (p n : Nat) :
    1 ≤ (if (if p > n then n else p) < 1 then 1 else if p > n then n else p) ∧
      (0 < n → (if (if p > n then n else p) < 1 then 1 else if p > n then n else p) ≤ n) := by
  grind

/-- Making the list leaves the buffers alone. -/
theorem Menu.start_alike (blistp : BufId) (m : Menu) : Alike m.ed (Menu.start blistp m).ed :=
  ((((Alike.refl m.ed).makelist blistp).popblist blistp).swbuffer blistp Menu.noRead).onlywind

/-- **A fresh list**: every row, the count and the cursor are right again. -/
theorem Menu.open_start {m : Menu} (hnd : m.ed.bheadp.Nodup) (hlist : blistp ∉ m.ed.bheadp) :
    (Menu.start blistp m).Open blistp := by
  have halike := Menu.start_alike blistp m
  have hcount : (Menu.start blistp m).bufcount = ((Menu.start blistp m).ed.bheadp.filter
      (is_visible_buffer (Menu.start blistp m).ed)).length := List.countP_eq_length_filter
  have hle : (Menu.start blistp m).bufcount ≤ m.ed.bheadp.length := by
    rw [hcount, halike.bheadp]
    exact List.length_filter_le _ _
  have hptr : 1 ≤ (Menu.start blistp m).bufptr ∧
      (0 < (Menu.start blistp m).bufcount →
        (Menu.start blistp m).bufptr ≤ (Menu.start blistp m).bufcount) := bounded_row _ _
  constructor
  · rw [halike.bheadp]
    exact hnd
  · rw [halike.bheadp]
    exact hlist
  · exact halike.bheadp.symm
  · exact hcount
  · exact hptr.1
  · exact hptr.2
  · intro hpos
    have hrow : (Menu.start blistp m).row = forwline (if (Menu.start blistp m).bufcount > 0 then
        (Menu.start blistp m).bufptr + 1 else 2) (m.ed.bheadp.length + 3) 0 := rfl
    have hfew := hptr.2 hpos
    rw [hrow, if_pos hpos, forwline]
    omega
  · intro w hw
    exact (onlywind_wheadp _ w hw).trans (swbuffer_curbp blistp Menu.noRead _)

/-- The list is made again after a command that leaves the buffer list alone. -/
theorem Menu.Open.restart (h : m.Open blistp) {u : Menu} (hu : Alike m.ed u.ed) :
    (Menu.start blistp u).Open blistp := by
  apply Menu.open_start
  · rw [hu.bheadp]
    exact h.nodup
  · rw [hu.bheadp]
    exact h.unlisted

theorem Menu.splitback_looping (m : Menu) (blistp : BufId) (io : ReadIo) :
    (m.splitback blistp io).looping = m.looping := by
  unfold Menu.splitback
  split
  · split <;> rfl
  · rfl

/-- `k` leaves a list in order. -/
theorem Menu.Open.kill (h : m.Open blistp) (bp : BufId) (yes discard : Bool) :
    Post (m.kill blistp bp yes discard) (Menu.Open blistp) := by
  unfold Menu.kill
  split
  · exact (post_ok _).mpr h
  split
  · exact (post_ok _).mpr (h.restart (.refl _))
  · refine (zotbuf_bheadp bp discard).bind fun r hr => (post_pure _).mpr ?_
    rcases hr with hsame | herased
    · exact h.restart hsame
    · apply Menu.open_start
      · rw [herased.bheadp]
        exact h.nodup.erase bp
      · rw [herased.bheadp]
        exact fun hmem => h.unlisted (List.mem_of_mem_erase hmem)

/-- **One key** leaves the menu open, or closes it. -/
theorem Menu.Open.act (h : m.Open blistp) (hpos : 0 < m.bufcount) :
    Post (m.act blistp key) fun t => t.looping = true → t.Open blistp := by
  unfold Menu.act
  cases key with
  | next =>
      dsimp only
      split
      · exact (post_ok _).mpr fun _ => h
      · rename_i hmore
        have hrows := h.bufcount_le
        refine (post_ok _).mpr fun _ => { h with
          pos := Nat.le_add_left 1 _
          few := fun _ => Nat.lt_of_not_le hmore
          row := fun _ => ?_ }
        have hrow := h.row hpos
        change forwline 1 m.lines m.row = m.bufptr + 1 + 1
        rw [forwline, Menu.lines, hrow]
        omega
  | prev =>
      dsimp only
      split
      · exact (post_ok _).mpr fun _ => h
      · rename_i hmore
        refine (post_ok _).mpr fun _ => { h with
          pos := ?_
          few := fun hn => Nat.le_trans (Nat.sub_le _ 1) (h.few hn)
          row := fun _ => ?_ }
        · change 1 ≤ m.bufptr - 1
          omega
        · have hrow := h.row hpos
          change m.row - 1 = m.bufptr - 1 + 1
          omega
  | one io =>
      dsimp only
      split
      · exact (post_ok _).mpr nofun
      · exact (post_ok _).mpr fun _ => h
  | two io io' =>
      dsimp only
      split
      · refine (post_ok _).mpr fun hloop => ?_
        rw [Menu.splitback_looping] at hloop
        cases hloop
      · exact (post_ok _).mpr fun _ => h
  | save o =>
      dsimp only
      split
      · rename_i bp _
        unfold Menu.save
        split
        · exact (post_ok _).mpr fun _ => h
        · exact ((Alike.refl m.ed).filesave bp o).bind fun r hr =>
            (post_pure _).mpr fun _ => h.restart hr
      · exact (post_ok _).mpr fun _ => h
  | readonly =>
      dsimp only
      split
      · unfold Menu.readonly
        split
        · exact (post_ok _).mpr fun _ => h.restart (.refl _)
        · exact (post_ok _).mpr fun _ => h.restart (.refl _)
      · exact (post_ok _).mpr fun _ => h.restart (.refl _)
  | kill yes discard =>
      dsimp only
      split
      · exact (h.kill _ yes discard).mono fun _ ht _ => ht
      · exact (post_ok _).mpr fun _ => h.restart (.refl _)
  | quit io => exact (post_ok _).mpr nofun
  | other => exact (post_ok _).mpr fun _ => h

theorem Menu.Open.step (h : m.looping = true → m.Open blistp)
    (hstep : Menu.step blistp key m = .ok t) : t.looping = true → t.Open blistp := by
  unfold Menu.step at hstep
  split at hstep
  · cases hstep
    exact h
  · rename_i hloop
    have hopen := h (by simpa using hloop)
    split at hstep
    · split at hstep
      · cases hstep
        exact nofun
      · cases hstep
        exact fun _ => hopen
    · exact hopen.act (Nat.pos_of_ne_zero ‹_›) t hstep

/-- The buffer that the row of the cursor displays; two lines of headings come first. -/
def Menu.displayed (m : Menu) : Option BufId := if m.row < 2 then none else m.rows[m.row - 2]?

/-- What the commands act on, if they act at all, is what the row displays. -/
def Menu.OnRow (m : Menu) : Prop := 0 < m.bufcount → get_buffer m.bufptr m.ed = m.displayed

/-- No name on the rows up to the cursor begins with a space. -/
def Menu.Counted (m : Menu) : Prop :=
  0 < m.bufcount → ∀ bp ∈ m.rows.take m.bufptr, is_visible_buffer m.ed bp = true

/-- What `k` removes is the buffer that it acts on; no window shows it, and the menu does not
go back to it. -/
def Menu.KillsApart (blistp : BufId) (m : Menu) : Prop :=
  ∀ bp yes discard t, get_buffer m.bufptr m.ed = some bp → m.kill blistp bp yes discard = .ok t →
    ∀ b ∈ m.ed.bheadp, b ∉ t.ed.bheadp →
      b = bp ∧ (∀ w ∈ m.ed.wheadp, w.w_bufp ≠ b) ∧ t.org_bp ≠ some b

theorem Menu.Open.onRow_iff (h : m.Open blistp) : m.OnRow ↔ m.Counted := by
  refine forall_congr' fun hpos => ?_
  have hptr := h.pos
  have hfew := h.few hpos
  have hrow := h.row hpos
  have hlen : m.bufptr - 1 < (m.ed.bheadp.filter (is_visible_buffer m.ed)).length := by
    rw [← h.bufcount]
    omega
  have hline : m.row - 2 = m.bufptr - 1 := by omega
  have hcount : m.bufptr - 1 + 1 = m.bufptr := Nat.sub_add_cancel hptr
  rw [get_buffer_eq hptr, Menu.displayed, if_neg (by omega), hline, h.rows,
    filter_getElem?_iff h.nodup hlen, hcount]

/-- A buffer that `k` removes is on no window, and the menu forgets it. -/
theorem Menu.Open.kill_removes (h : m.Open blistp) {bp : BufId} {yes discard : Bool}
    (hkill : m.kill blistp bp yes discard = .ok t) {b : BufId} (hb : b ∈ m.ed.bheadp)
    (hgone : b ∉ t.ed.bheadp) : b = bp ∧ (∀ w ∈ m.ed.wheadp, w.w_bufp ≠ b) ∧ t.org_bp ≠ some b := by
  have hshown : ∀ w ∈ m.ed.wheadp, w.w_bufp ≠ b := by
    intro w hw heq
    apply h.unlisted
    rw [← h.shown w hw, heq]
    exact hb
  have hstart := Menu.start_alike blistp
  have hpost : Post (m.kill blistp bp yes discard) fun t => b ∉ t.ed.bheadp →
      b = bp ∧ t.org_bp ≠ some b := by
    unfold Menu.kill
    split
    · exact (post_ok _).mpr fun hno => absurd hb hno
    split
    · refine (post_ok _).mpr fun hno => absurd hb ?_
      rw [← (hstart m).bheadp]
      exact hno
    · refine (zotbuf_bheadp bp discard).bind fun r hr => (post_pure _).mpr fun hno => ?_
      rw [(hstart _).bheadp] at hno
      rcases hr with hsame | herased
      · rw [hsame.bheadp] at hno
        exact absurd hb hno
      · rw [herased.bheadp] at hno
        have heq : b = bp := by
          by_contra hne
          exact hno ((List.mem_erase_of_ne hne).mpr hb)
        refine ⟨heq, ?_⟩
        change (if m.org_bp = some bp then none else m.org_bp) ≠ some b
        subst heq
        split
        · exact nofun
        · assumption
  obtain ⟨heq, horg⟩ := hpost t hkill hgone
  exact ⟨heq, hshown, horg⟩

theorem Menu.open_run {bfro : BufId → Bool} {keys : List MenuKey}
    (hnd : s.bheadp.Nodup) (hlist : blistp ∉ s.bheadp)
    (hrun : Run (Menu.step blistp) Any (buffermenu blistp bfro s) keys m)
    (hloop : m.looping = true) : m.Open blistp :=
  hrun.preserves (fun m => m.looping = true → m.Open blistp)
    (fun _ _ _ h _ hstep => Menu.Open.step h hstep) (fun _ => Menu.open_start hnd hlist) hloop

/-- **The row and the buffer.**  In every run of the menu, whenever it waits for a key, the
buffer that its commands act on is the one on the row of the cursor exactly if no name up to
that row begins with a space; and a kill removes no buffer that is shown or gone back to. -/
theorem buffermenu_row_iff {bfro : BufId → Bool} {keys : List MenuKey}
    (hnd : s.bheadp.Nodup) (hlist : blistp ∉ s.bheadp)
    (hrun : Run (Menu.step blistp) Any (buffermenu blistp bfro s) keys m)
    (hloop : m.looping = true) : (m.OnRow ↔ m.Counted) ∧ m.KillsApart blistp := by
  have hopen := Menu.open_run hnd hlist hrun hloop
  exact ⟨hopen.onRow_iff, fun _ _ _ _ _ hkill _ hb hgone => hopen.kill_removes hkill hb hgone⟩

/-- Of one buffer, in a run of one key. -/
theorem buffermenu_row_main :
    ((buffermenu 5 (fun _ => false) (bufinit 24 "main")).OnRow ↔
        (buffermenu 5 (fun _ => false) (bufinit 24 "main")).Counted) ∧
      (buffermenu 5 (fun _ => false) (bufinit 24 "main")).KillsApart 5 :=
  have hrun : Run (Menu.step 5) Any (buffermenu 5 (fun _ => false) (bufinit 24 "main")) [.other]
      (buffermenu 5 (fun _ => false) (bufinit 24 "main")) := .cons trivial rfl (.nil _)
  buffermenu_row_iff (List.nodup_singleton 0) (by decide) hrun rfl

/-- A buffer " x" has the first row, and the commands act on "main". -/
theorem buffermenu_other_row : ¬ ∀ (blistp : BufId) (bfro : BufId → Bool) (keys : List MenuKey)
    (s : Windows) (m : Menu), s.bheadp.Nodup → blistp ∉ s.bheadp →
    Run (Menu.step blistp) Any (buffermenu blistp bfro s) keys m → m.looping = true → m.OnRow := by
  intro hall
  have hx : is_visible_buffer (newbuf " x" (bufinit 24 "main")) 1 = false := by
    simp [is_visible_buffer, newbuf, bufinit, bcreate]
  have hmain : is_visible_buffer (newbuf " x" (bufinit 24 "main")) 0 = true := by
    simp [is_visible_buffer, newbuf, bufinit, bcreate]
  have hlist : (newbuf " x" (bufinit 24 "main")).bheadp = [1, 0] := rfl
  generalize newbuf " x" (bufinit 24 "main") = s at hx hmain hlist
  have hnd : s.bheadp.Nodup := by
    rw [hlist]
    decide
  have hno : 5 ∉ s.bheadp := by
    rw [hlist]
    decide
  have halike := Menu.start_alike 5 ⟨s, fun _ => false, some s.curbp, [], 0, 1, 0, true⟩
  have hopen : (buffermenu 5 (fun _ => false) s).Open 5 := Menu.open_run hnd hno (.nil _) rfl
  have hcount : 0 < (buffermenu 5 (fun _ => false) s).bufcount := by
    rw [hopen.bufcount]
    change 0 < (List.filter (is_visible_buffer (Menu.start 5 _).ed)
      (Menu.start 5 _).ed.bheadp).length
    rw [halike.visible, halike.bheadp, hlist]
    simp [hx, hmain]
  have hcounted := hopen.onRow_iff.mp (hall 5 _ [] s _ hnd hno (.nil _) rfl) hcount 1
  have hfirst : (1 : BufId) ∈ (buffermenu 5 (fun _ => false) s).rows.take
      (buffermenu 5 (fun _ => false) s).bufptr := by
    obtain ⟨k, hk⟩ := Nat.exists_eq_add_of_le' hopen.pos
    rw [hk]
    change 1 ∈ s.bheadp.take (k + 1)
    rw [hlist]
    exact List.mem_cons_self
  have hvis := hcounted hfirst
  change is_visible_buffer (Menu.start 5 _).ed 1 = true at hvis
  rw [halike.visible, hx] at hvis
  cases hvis

end Emacs
