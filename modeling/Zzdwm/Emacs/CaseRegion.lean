import Zzdwm.Emacs.KillBuffer
import Zzdwm.Emacs.Twiddle

/-!
# Changing the case of a region (`region.c`)

`lowerregion` and `upperregion` go over the region by a line and a column.  Each character
that changes its case is overwritten by `lputc`, and that replaces the line by a new one if
the character takes more bytes than there is room for.  The loop goes on with the old line.

* `lowerregion`, `upperregion` — the code;
* `lputc_converts` — one character written over another one, whatever their bytes are;
* `convertLoop_converts`, `convertLoop_lost` — the loop, with room and without;
* `lowerregion_upperregion_iff` — **the region is converted** exactly if there is room for
  every character, or for every one but the last, and then the cursor is not left behind.
-/

namespace Emacs

open Journal (Zipper Rec row col)

section Source

/-- The functions of `wctype.h`, with the one for lower case. -/
structure Wcase extends Wctype where
  towlower : Nat → Nat
  lower_range : ∀ c, c ≤ 0x7fffffff → towlower c ≤ 0x7fffffff
  lower_letter : ∀ c, 0x80 ≤ c → towlower c ≠ 10

variable (w : Wcase)

/-- `ctolower`. -/
def ctolower (c : Nat) : Nat := if c < 0x80 then c + 0x20 else w.towlower c

/-- What one of the two commands changes, and to what. -/
structure Recasing where
  test : Nat → Bool
  image : Nat → Nat
  range : ∀ c, c ≤ 0x7fffffff → image c ≤ 0x7fffffff
  letter : ∀ c, test c = true → c ≠ 10 ∧ image c ≠ 10

/-- Upper case characters become lower case ones. -/
def Recasing.lower : Recasing where
  test := cisupper w.toWctype
  image := ctolower w
  range c hc := by
    unfold ctolower
    split_ifs
    · omega
    · exact w.lower_range c hc
  letter c hc := by
    unfold cisupper aisupper at hc
    unfold ctolower
    split_ifs at hc ⊢ with hlt
    · rw [Bool.and_eq_true, decide_eq_true_iff, decide_eq_true_iff] at hc
      omega
    · exact ⟨by omega, w.lower_letter c (Nat.le_of_not_lt hlt)⟩

/-- Lower case characters become upper case ones. -/
def Recasing.upper : Recasing where
  test := cislower w.toWctype
  image := ctoupper w.toWctype
  range c hc := by
    unfold ctoupper
    split_ifs
    · omega
    · exact w.range c hc
  letter c hc := by
    unfold cislower aislower at hc
    unfold ctoupper
    split_ifs at hc ⊢ with hlt
    · rw [Bool.and_eq_true, decide_eq_true_iff, decide_eq_true_iff] at hc
      omega
    · exact ⟨by omega, w.letter c (Nat.le_of_not_lt hlt)⟩

variable (r : Recasing) (junk : Nat)

/-- The body of the loop, at a line and a column.  `none` is a line that was freed. -/
def convertChar : POS × Ed → Option (POS × Ed)
  | (⟨linep, loffs⟩, e) =>
      if linep ∉ e.lines ∧ linep ≠ e.b_linep then none
      else if loffs = (e.line linep).wllength then some (⟨e.lforw linep, 0⟩, e)
      else
        let c := e.wlgetc junk ⟨linep, loffs⟩
        some (⟨linep, loffs + 1⟩, if r.test c then lputc ⟨linep, loffs⟩ (r.image c) e else e)

/-- The loop, for so many characters. -/
def convertLoop : Nat → POS × Ed → Option (POS × Ed)
  | 0, s => some s
  | n + 1, s => (convertChar r junk s).bind (convertLoop n)

/-- A command that converts the region. -/
def convertRegion (e : Ed) : Option (Ed × Bool) :=
  match getregion e ⟨⟨null, 0⟩, 0⟩ with
  | (_, some _) => some (e, false)
  | (region, none) =>
      if !e.checkreadonly then some (e, false)
      else
        let e := e.lchange
        let e := e.saveundo .UMOVE (some e.dot)
        (convertLoop r junk region.r_size.toNat (region.r_pos, e)).map fun s => (s.2, true)

/-- `lowerregion`. -/
def lowerregion (e : Ed) : Option (Ed × Bool) := convertRegion (.lower w) junk e

/-- `upperregion`. -/
def upperregion (e : Ed) : Option (Ed × Bool) := convertRegion (.upper w) junk e

end Source

section Spec

variable (r : Recasing) (e : Ed)

/-- A character is changed. -/
def Recasing.Changes (c : UChar) : Prop := r.test (code c) = true

/-- What becomes of a character. -/
def Recasing.put (c : UChar) : UChar := if r.test (code c) then uputc (r.image (code c)) else c

instance (c : UChar) : Decidable (r.Changes c) := inferInstanceAs (Decidable (_ = true))

/-- The text with a region converted. -/
def Ed.converted (region : REGION) : List UChar :=
  e.symbols.take (e.passed region.r_pos) ++ (e.textIn region).map r.put ++
    e.symbols.drop (e.passed region.r_pos + region.r_size.toNat)

/-- The lengths of the lines, in characters. -/
def Ed.lengths : List Nat := e.lines.map fun p => (e.line p).wllength

/-- The lines that a window names are lines of the buffer. -/
structure EWINDOW.Live (w : EWINDOW) : Prop where
  top : w.w_linep ∈ e.b_linep :: e.lines
  dot : w.w_dot.p ∈ e.b_linep :: e.lines
  ring : ∀ i, i.val < w.w_ring.m_count → (w.w_ring.m_ring i).p ∈ e.b_linep :: e.lines

/-- The lines that the windows name are lines of the buffer. -/
def Ed.Alive : Prop := ∀ w ∈ e.windows, w.Live e

/-- The region, and nothing else, has been converted, and one `undo` takes that back. -/
structure Converts (region : REGION) (e' : Ed) : Prop where
  text : e'.symbols = e.converted r region
  lengths : e'.lengths = e.lengths
  alive : e'.Alive
  undone : (undo e').1.text = e.text

/-- There is room for each of the first `n` characters after the cursor that is changed: in the
line of the cursor, of that size and with `a` in front of it, and in the lines below. -/
def Recasing.Room : Nat → Nat → List Nat → List UChar → List UChar → Prop
  | 0, _, _, _, _ => True
  | _ + 1, _, _, _, [] => True
  | n + 1, size, sizes, a, c :: x =>
      if c = nl then Room n (sizes.headD 0) sizes.tail [] x
      else (r.Changes c → (a ++ r.put c :: lineRest x).flatten.length ≤ size) ∧
        Room n size sizes (a ++ [r.put c]) x

instance decidableRoom : ∀ (n size : Nat) (sizes : List Nat) (a x : List UChar),
    Decidable (r.Room n size sizes a x)
  | 0, _, _, _, _ => isTrue trivial
  | _ + 1, _, _, _, [] => isTrue trivial
  | n + 1, size, sizes, a, c :: x =>
      have := decidableRoom n (sizes.headD 0) sizes.tail [] x
      have := decidableRoom n size sizes (a ++ [r.put c]) x
      inferInstanceAs (Decidable (if c = nl then r.Room n (sizes.headD 0) sizes.tail [] x
        else (r.Changes c → (a ++ r.put c :: lineRest x).flatten.length ≤ size) ∧
          r.Room n size sizes (a ++ [r.put c]) x))

/-- There is room for the first `n` characters after a position. -/
def Ed.RoomAt (pos : POS) (n : Nat) : Prop :=
  r.Room n (e.line pos.p).l_size ((e.setDot pos).below.map fun p => (e.line p).l_size)
    ((e.chars pos.p).take pos.o) (e.setDot pos).after

instance (pos : POS) (n : Nat) : Decidable (e.RoomAt r pos n) :=
  inferInstanceAs (Decidable (r.Room ..))

/-- There is room for the region; or for all of it but the last character, and the region
begins at the cursor, which is carried along, or stays on a line above. -/
def Ed.Convertible (region : REGION) : Prop :=
  e.RoomAt r region.r_pos region.r_size.toNat ∨
    e.RoomAt r region.r_pos (region.r_size.toNat - 1) ∧ region.r_pos = e.dot ∧
      (nl ∈ e.textIn region ∨ ∀ c ∈ e.textIn region, r.Changes c)

instance (region : REGION) : Decidable (e.Convertible r region) :=
  inferInstanceAs (Decidable (_ ∨ _))

end Spec

variable {r : Recasing} {junk : Nat} {e : Ed} {us : List (Rec UChar)} {b l m x : List UChar}
  {c : UChar} {pos : POS} {n : Nat} {as bs : List LineId}

/-! ## The lines that the windows name -/

theorem saveundo_windows (e : Ed) (k : Saved) (pos : Option POS) :
    (e.saveundo k pos).windows = e.windows := by
  rcases saveundo_eq e k pos with h | h
  · rw [h]
  · rw [h]
    rfl

/-- The windows have been changed one by one. -/
theorem Ed.Alive.map {e' : Ed} (h : e.Alive) (f : Bool → EWINDOW → EWINDOW)
    (hwindows : e'.windows = (e.allwind f).windows)
    (hf : ∀ cur, ∀ w ∈ e.windows, w.Live e → (f cur w).Live e') : e'.Alive := by
  intro w hw
  rw [hwindows, windows_allwind] at hw
  rcases List.mem_cons.mp hw with rfl | hw
  · exact hf true _ List.mem_cons_self (h _ List.mem_cons_self)
  · obtain ⟨v, hv, rfl⟩ := List.mem_map.mp hw
    exact hf false v (List.mem_cons_of_mem _ hv) (h v (List.mem_cons_of_mem _ hv))

theorem Ed.Alive.congr {e' : Ed} (h : e.Alive) (hwindows : e'.windows = e.windows)
    (hhead : e'.b_linep = e.b_linep) (hlines : e'.lines = e.lines) : e'.Alive := by
  intro w hw
  rw [hwindows] at hw
  obtain ⟨h₁, h₂, h₃⟩ := h w hw
  exact ⟨by rwa [hhead, hlines], by rwa [hhead, hlines], by rwa [hhead, hlines]⟩

theorem Ed.Alive.saveundo (h : e.Alive) (k : Saved) (pos : Option POS) : (e.saveundo k pos).Alive :=
  h.congr (saveundo_windows ..) (saveundo_b_linep ..) (saveundo_lines ..)

theorem Ed.Alive.setDot (h : e.Alive) (hpos : pos.p ∈ e.b_linep :: e.lines) :
    (e.setDot pos).Alive := by
  intro w hw
  rcases List.mem_cons.mp hw with rfl | hw
  · obtain ⟨h₁, -, h₃⟩ := h _ List.mem_cons_self
    exact ⟨h₁, hpos, h₃⟩
  · obtain ⟨h₁, h₂, h₃⟩ := h w (List.mem_cons_of_mem _ hw)
    exact ⟨h₁, h₂, h₃⟩

theorem ldelete_alive {z : Zipper UChar} (ha : e.Alive) (h : Shows e z) (hro : e.bfro = false)
    {k : Nat} (hk : 0 < k) (hle : k ≤ e.rest.length) : (ldelete k e).1.Alive := by
  obtain ⟨hlen, -, hne, hone⟩ := ldelete_step h hro hk hle
  rw [hone, ldeleteStep_eq h hk]
  dsimp only
  rw [if_neg hne]
  have hs := fun k => Ed.Alive.saveundo (e := e.lchange) (ha.congr rfl rfl rfl) k none
  have hs := hs (.UDELETE (e.deleted k).length (e.deleted k).flatten)
  generalize e.lchange.saveundo (.UDELETE _ _) none = s at hs ⊢
  refine hs.map (fun _ => deleteWindow s.dot (e.deleted k).length) rfl fun _ w _ hw => ?_
  have hpos : ∀ pos : POS, ∀ d k, (adjustfordelete d k pos).p = pos.p := by
    intro pos d k
    unfold adjustfordelete
    split <;> rfl
  obtain ⟨h₁, h₂, h₃⟩ := hw
  refine ⟨h₁, ?_, fun i hi => ?_⟩
  · exact (hpos ..).symm ▸ h₂
  · have hring : (deleteWindow s.dot (e.deleted k).length w).w_ring.m_ring i =
        adjustfordelete s.dot (e.deleted k).length (w.w_ring.m_ring i) := if_pos hi
    rw [hring, hpos]
    exact h₃ i hi

theorem linsert_alive {z : Zipper UChar} (ha : e.Alive) (h : Shows e z) (hro : e.bfro = false)
    (i : Insertion) : (linsert i e).1.Alive := by
  have hs := Ed.Alive.saveundo (e := e.lchange) (ha.congr rfl rfl rfl) i.saved none
  have hshows := h.lchange.saveundo i.saved none
  rw [linsert_eq h hro]
  dsimp only
  generalize e.lchange.saveundo i.saved none = s at hs hshows ⊢
  -- a line that is named is the same one still, or the one that has taken its place
  obtain ⟨hwindows, hlines⟩ :
      let t := insertLine s.dot (uoffset (s.line s.dot.p).l_text s.dot.o) i.bytes s
      t.1.windows = s.windows ∧ ∀ p ∈ s.b_linep :: s.lines,
        (if p = s.dot.p then t.2 else p) ∈ t.1.b_linep :: t.1.lines := by
    have hne := hshows.ne_header
    unfold insertLine
    dsimp only
    rw [if_neg hne]
    split_ifs
    · refine ⟨rfl, fun p hp => ?_⟩
      rcases List.mem_cons.mp hp with rfl | hp
      · rw [if_neg hne.symm]
        exact List.mem_cons_self
      · exact List.mem_cons_of_mem _ (List.mem_map.mpr ⟨p, hp, rfl⟩)
    · refine ⟨rfl, fun p hp => ?_⟩
      by_cases heq : p = s.dot.p
      · rw [if_pos heq]
        exact List.mem_cons_of_mem _ hshows.mem
      · rw [if_neg heq]
        exact hp
  generalize insertLine s.dot (uoffset (s.line s.dot.p).l_text s.dot.o) i.bytes s = t at *
  refine hs.map (insertWindow s.dot t.2 i.chars) ?_ fun cur w _ hw => ?_
  · rw [windows_allwind, windows_allwind]
    obtain ⟨hcur, hothers⟩ := List.cons.inj hwindows
    rw [hcur, hothers]
  · obtain ⟨h₁, h₂, h₃⟩ := hw
    refine ⟨hlines _ h₁, ?_, fun j hj => ?_⟩
    · have hdot := hlines _ h₂
      unfold insertWindow
      dsimp only
      by_cases heq : w.w_dot.p = s.dot.p
      · rw [if_pos heq] at hdot ⊢
        exact hdot
      · rw [if_neg heq] at hdot ⊢
        exact hdot
    · have hring := hlines _ (h₃ j hj)
      have hmoved : (insertWindow s.dot t.2 i.chars cur w).w_ring.m_ring j =
          adjustforinsert s.dot t.2 i.chars (w.w_ring.m_ring j) := if_pos hj
      rw [hmoved]
      unfold adjustforinsert
      by_cases heq : (w.w_ring.m_ring j).p = s.dot.p
      · rw [if_pos heq] at hring ⊢
        exact hring
      · rw [if_neg heq] at hring ⊢
        exact hring

/-! ## One character -/

theorem put_nl : r.put nl = nl := by
  unfold Recasing.put
  refine if_neg fun h => (r.letter _ h).1 ?_
  decide

theorem Recasing.Changes.ne_nl (h : r.Changes c) : c ≠ nl := by
  rintro rfl
  exact (r.letter _ h).1 (by decide)

theorem Recasing.Changes.put_eq (h : r.Changes c) : r.put c = uputc (r.image (code c)) := if_pos h

theorem Recasing.Changes.image_ne (h : r.Changes c) : r.image (code c) ≠ 10 := (r.letter _ h).2

theorem Recasing.image_le (r : Recasing) (c : UChar) : r.image (code c) ≤ 0x7fffffff :=
  r.range _ (code_le c)

theorem put_ne_nl (hc : c ≠ nl) : r.put c ≠ nl := by
  by_cases h : r.Changes c
  · rw [h.put_eq]
    exact uputc_ne_nl h.image_ne (r.image_le c)
  · rwa [show r.put c = c from if_neg h]

/-- Newlines stay newlines. -/
theorem row_put (m : List UChar) : row isBreak (m.map r.put) = 0 ↔ nl ∉ m := by
  rw [row, List.countP_eq_zero]
  constructor
  · intro h hmem
    exact h _ (List.mem_map_of_mem hmem) (by rw [put_nl]; rfl)
  · intro h c hc
    obtain ⟨d, hd, rfl⟩ := List.mem_map.mp hc
    have hne : r.put d ≠ nl := put_ne_nl fun heq => h (heq ▸ hd)
    simpa [isBreak] using hne

/-- The buffer when `lputc` has written a character, with the cursor behind it. -/
def written (pos : POS) (n : Nat) (e : Ed) : Ed :=
  (linsert (.copies 1 n) (ldelete 1 ((e.setDot pos).saveundo .UMOVE (some pos))).1).1

theorem lputc_written (pos : POS) (n : Nat) (e : Ed) :
    lputc pos n e =
      let s := written pos n e
      let t := s.setDot (if e.dot = pos then s.dot else e.dot)
      t.saveundo .UMOVE (some t.dot) := lputc_eq pos n e

theorem Replaces.unsaved {e' : Ed} {q : LineId} {cs : List UChar} {o : Nat} {k : Saved}
    {p : Option POS} (h : Replaces (e.saveundo k p) e' as bs q cs o) :
    Replaces e e' as bs q cs o := by
  obtain ⟨h₁, h₂, h₃, h₄, h₅⟩ := h
  rw [saveundo_line, saveundo_b_linep] at h₃
  rw [saveundo_line] at h₂
  exact ⟨h₁, h₂, h₃, h₄, h₅⟩

section Written

variable (h : Shows (e.setDot pos) ⟨l, c :: x⟩) (hro : e.bfro = false) (hc : c ≠ nl) (hx : x ≠ [])

include h hro hc hx

/-- The character is written into the line, or into a new one that takes its place. -/
theorem written_replaces (hn : n ≠ 10) (hle : n ≤ 0x7fffffff) (hl : e.lines = as ++ pos.p :: bs) :
    ∃ q, Replaces e (written pos n e) as bs q
      ((e.chars pos.p).take pos.o ++ uputc n :: (e.chars pos.p).drop (pos.o + 1)) (pos.o + 1) := by
  have hrest : (e.chars pos.p).drop pos.o = c :: lineRest x := by
    have hline := h.line_rest
    rw [show (c :: x).takeWhile (· ≠ nl) = c :: lineRest x from
      lineRest_append (m := [c]) (by simpa using hc.symm)] at hline
    exact hline.symm
  have hsaved := h.saveundo .UMOVE (some pos)
  have hsro : ((e.setDot pos).saveundo .UMOVE (some pos)).bfro = false :=
    (saveundo_bfro ..).trans hro
  have hl' : ((e.setDot pos).saveundo .UMOVE (some pos)).lines =
      as ++ ((e.setDot pos).saveundo .UMOVE (some pos)).dot.p :: bs := by
    rw [saveundo_lines, saveundo_dot]
    exact hl
  obtain ⟨hdel, -⟩ := ldelete_replaces hsaved hsro hl' (k := 1) (by
    rw [saveundo_rest]
    change 1 ≤ ((e.chars pos.p).drop pos.o).length
    rw [hrest, List.length_cons]
    omega)
  have hdel := hdel.unsaved
  have hcast : ((1 : Nat) : Int) = 1 := rfl
  rw [hcast, saveundo_dot, saveundo_chars, saveundo_rest, setDot_dot, setDot_chars] at hdel
  obtain ⟨hshows, hro', -⟩ := h.erased hc hro hx
  have hdot : (ldelete 1 ((e.setDot pos).saveundo .UMOVE (some pos))).1.dot = pos := hdel.dot
  obtain ⟨q, hins, -⟩ := linsert_replaces hshows hro' (by
    rw [setDot_dot, hdot]
    exact hdel.lines) (spells_copies 1 hle (uputc_ne_nl hn hle))
  have hcut : (e.chars pos.p).take pos.o ++ (e.setDot pos).rest.drop 1 =
      (e.chars pos.p).take pos.o ++ (e.chars pos.p).drop (pos.o + 1) := by
    rw [Ed.rest, setDot_dot, setDot_chars, List.drop_drop]
  rw [hcut] at hdel
  have hlen : ((e.chars pos.p).take pos.o).length = pos.o := by
    rw [List.length_take]
    exact Nat.min_eq_left h.offset
  have hchars : (ldelete 1 ((e.setDot pos).saveundo .UMOVE (some pos))).1.chars pos.p =
      (e.chars pos.p).take pos.o ++ (e.chars pos.p).drop (pos.o + 1) := by
    obtain ⟨hin, -⟩ := h.sound.chars h.mem
    exact Ed.chars_eq hdel.text ((hin.take _).append (hin.drop _))
  have hcs : Ed.inserted (ldelete 1 ((e.setDot pos).saveundo .UMOVE (some pos))).1
      (List.replicate 1 (uputc n)) =
      (e.chars pos.p).take pos.o ++ uputc n :: (e.chars pos.p).drop (pos.o + 1) := by
    rw [Ed.inserted, hdot, hchars, List.take_left' hlen, List.drop_left' hlen, List.replicate_one,
      List.append_assoc, List.singleton_append]
  rw [setDot_dot, hcs, hdot] at hins
  refine ⟨q, ⟨hins.lines, fun p hp => ?_, ?_, hins.text, hins.dot⟩⟩
  · rw [written, hins.others p hp, hdel.others p hp]
    rfl
  · obtain ⟨hhead, hline⟩ := hins.header
    obtain ⟨hhead', hline'⟩ := hdel.header
    rw [hhead', hline'] at hline
    rw [hhead'] at hhead
    exact ⟨hhead, hline⟩

/-- Where there is room the lines stay the same ones, and so do their sizes. -/
theorem written_stays (hroom : (lineFront l ++ uputc n :: lineRest x).flatten.length ≤
    (e.line pos.p).l_size) : Stays (e.setDot pos) (written pos n e) := by
  obtain ⟨hshows, hro', hfirst⟩ := h.erased hc hro hx
  refine hfirst.trans (linsert_stays hshows hro' ?_)
  have hbytes : (Insertion.copies 1 n).bytes = uputc n := by simp [Insertion.bytes]
  rw [hshows.line_text, hbytes, hfirst.here, hfirst.room]
  change _ ≤ (e.line pos.p).l_size
  simp only [List.flatten_append, List.flatten_cons, List.length_append] at hroom ⊢
  omega

/-- Without room the line is lost. -/
theorem written_loses (hroom : (e.line pos.p).l_size <
    (lineFront l ++ uputc n :: lineRest x).flatten.length) : Gone pos.p (written pos n e) := by
  obtain ⟨hshows, hro', hfirst⟩ := h.erased hc hro hx
  have hins := linsert_loses hshows hro' (a := .copies 1 n) (by
    have hbytes : (Insertion.copies 1 n).bytes = uputc n := by simp [Insertion.bytes]
    rw [hshows.line_text, hbytes, hfirst.here, hfirst.room]
    change (e.line pos.p).l_size < _
    simp only [List.flatten_append, List.flatten_cons, List.length_append] at hroom ⊢
    omega)
  rwa [hfirst.here] at hins

theorem written_alive (ha : e.Alive) (n : Nat) : (written pos n e).Alive := by
  have hpos : pos.p ∈ e.b_linep :: e.lines := List.mem_cons_of_mem _ h.mem
  have hsaved := h.saveundo .UMOVE (some pos)
  have hrest : 1 ≤ ((e.setDot pos).saveundo .UMOVE (some pos)).rest.length := by
    have hline := h.line_rest
    rw [show (c :: x).takeWhile (· ≠ nl) = c :: lineRest x from
      lineRest_append (m := [c]) (by simpa using hc.symm)] at hline
    rw [saveundo_rest, ← hline, List.length_cons]
    omega
  obtain ⟨hshows, hro', -⟩ := h.erased hc hro hx
  exact linsert_alive (ldelete_alive ((ha.setDot hpos).saveundo .UMOVE (some pos)) hsaved
    ((saveundo_bfro ..).trans hro) Nat.one_pos hrest) hshows hro' _

end Written

theorem written_recorded (h : Recorded us b ⟨l, c :: x⟩ (e.setDot pos)) (hc : c ≠ nl) (hx : x ≠ [])
    (hn : n ≠ 10) (hle : n ≤ 0x7fffffff) :
    ∃ us', us' ≠ [] ∧ Recorded us' b ⟨l ++ [uputc n], x⟩ (written pos n e) := by
  have hspells := spells_copies 1 hle (uputc_ne_nl hn hle)
  have hdelete := Recording.ldelete (w := [c]) h.saveundo (List.cons_ne_nil _ _)
    (by simpa using hc.symm) hx
  have hinsert := hdelete.linsert (closed_deletion _) hspells
  exact ⟨_, by simp, hinsert.recorded⟩

theorem setDot_saveundo (e : Ed) (k : Saved) (p : Option POS) (pos : POS) :
    (e.saveundo k p).setDot pos = (e.setDot pos).saveundo k p := by
  unfold Ed.saveundo
  change _ = if e.undoing = true then _ else _
  split_ifs
  · rfl
  · rfl

/-- What is saved for a position of the buffer is a place in its text. -/
theorem Sound.savepos_within (h : Sound e) (hne : e.lines ≠ []) (hpos : Within e pos) :
    ∃ z : Zipper UChar, e.savepos (some pos) = some (row isBreak z.left, col isBreak z.left) ∧
      z.text = e.symbols ∧ z.right ≠ [] := by
  have hat : ∀ a : POS, Within e a → a.p ∈ e.lines → ∃ z : Zipper UChar,
      e.savepos (some a) = some (row isBreak z.left, col isBreak z.left) ∧
        z.text = e.symbols ∧ z.right ≠ [] := by
    intro a ha hmem
    have hs := h.shows_within ha hmem
    obtain ⟨hrow, hcol⟩ := hs.position
    refine ⟨_, ?_, hs.text, hs.right_ne⟩
    rw [← hrow, ← hcol]
    rfl
  by_cases hmem : pos.p ∈ e.lines
  · exact hat pos hpos hmem
  · -- the header line has the number of the last line
    have hhead := (h.passed_header hpos hmem).1
    have ho : pos.o = 0 := by
      have hle := hpos.2
      rw [hhead, LINE.wllength, h.empty] at hle
      exact Nat.le_zero.mp hle
    have hlast := List.getLast_mem hne
    obtain ⟨z, hsave, hz⟩ := hat ⟨e.lines.getLast hne, 0⟩ ⟨.inl hlast, Nat.zero_le _⟩ hlast
    refine ⟨z, ?_, hz⟩
    rw [← hsave]
    have hnumber : e.lineno pos.p = e.lineno (e.lines.getLast hne) := by
      have hout : e.lines.idxOf pos.p = e.lines.length := List.idxOf_eq_length_iff.mpr hmem
      have hidx : e.lines.idxOf (e.lines.getLast hne) = e.lines.length - 1 := by
        have hlt : e.lines.length - 1 < e.lines.length := by
          have := List.length_pos_iff.mpr hne
          omega
        rw [List.getLast_eq_getElem]
        exact h.nodup.idxOf_getElem _ hlt
      rw [Ed.lineno, Ed.lineno, hout, hidx]
      omega
    change some (e.lineno pos.p, pos.o) = some (e.lineno (e.lines.getLast hne), 0)
    rw [hnumber, ho]

/-- The last record is of a place in the text. -/
def EndsAtPlace (us : List (Rec UChar)) (text : List UChar) : Prop :=
  ∃ (us₀ : List (Rec UChar)) (z : Zipper UChar),
    us = us₀ ++ [⟨some (row isBreak z.left, col isBreak z.left), .move⟩] ∧
      z.text = text ∧ z.right ≠ []

/-- **One `undo`** of records that end at a place, wherever the cursor is. -/
theorem Recorded.undone_anywhere {z : Zipper UChar} (h : Recorded us b z (e.setDot pos))
    (hlast : EndsAtPlace us z.text) : ∃ z', Shows (undo e).1 z' ∧ z'.text = b := by
  obtain ⟨us₀, z₀, rfl, htext, hright⟩ := hlast
  obtain ⟨z', hshows, hundone⟩ := h.undone (by simp)
  refine ⟨z', ?_, hundone⟩
  have hsame : (undo (e.setDot pos)).1 = (undo e).1 := by
    obtain ⟨-, vs, flag, gs, hgs, hread⟩ := h.grouped.later (by simp)
    obtain ⟨vs₀, ws, -, hws, rfl⟩ := Journal.forall₂_split hread
    cases hws with
    | @cons v _ _ _ hv hnil =>
        cases hnil
        obtain ⟨hstep, -⟩ : v.step = .UMOVE ∧ True := by cases hv; exact ⟨rfl, trivial⟩
        have hpos := hv.pos
        have hgs' : e.b_undo.undolist = ⟨vs₀ ++ [v], flag⟩ :: gs := hgs
        -- the first record that is undone says where to go
        have hsound := h.writable.shows_.sound
        have hsym : (e.setDot pos).symbols = z₀.left ++ z₀.right :=
          h.writable.shows_.text.symm.trans htext.symm
        rw [Ed.symbols] at hsym
        obtain ⟨as, p, bs, hl, hrow, hcol, -, -⟩ := find_pos hsound.noBreak hsym hright
        dsimp only at hpos
        rw [hrow] at hpos
        have hgo : ∀ s : Ed, s.line = e.line → s.lines = e.lines → Sound s →
            undostep v s = (s.setDot ⟨p, if col isBreak z₀.left > (e.chars p).length then 0
              else col isBreak z₀.left⟩, true) := by
          intro s hline hlines hs
          have hchars : s.chars p = e.chars p := by rw [Ed.chars, Ed.chars, hline]
          unfold undostep
          rw [goundo_line hs hpos (hlines.trans hl), hchars, hstep]
          rfl
        have hs₁ : Sound { e with undoing := true } :=
          ⟨hsound.nodup, hsound.header, hsound.fresh, hsound.inline, hsound.empty⟩
        have hs₂ : Sound { e.setDot pos with undoing := true } := hs₁.setDot pos
        have hsome : v.pos.isSome = true := by
          rw [hpos]
          rfl
        have hthere : ∀ q, Ed.setDot { e.setDot pos with undoing := true } q =
            Ed.setDot { e with undoing := true } q := fun _ => rfl
        have hloop :
            undoLoop (vs₀ ++ [v]).reverse [] ({ e.setDot pos with undoing := true }, true) =
              undoLoop (vs₀ ++ [v]).reverse [] ({ e with undoing := true }, true) := by
          rw [List.reverse_append, List.reverse_singleton, List.singleton_append, undoLoop,
            undoLoop, if_pos hsome, if_pos hsome, playSteps, playSteps, List.foldl_cons,
            List.foldl_cons, List.foldl_nil, List.foldl_nil]
          dsimp only
          rw [hgo { e with undoing := true } rfl rfl hs₁,
            hgo { e.setDot pos with undoing := true } rfl rfl hs₂, hthere]
        unfold undo
        rw [hgs, hgs']
        dsimp only
        rw [hloop]
  rw [← hsame]
  exact hshows

/-- Undoing a command that has done nothing but save a place. -/
theorem undo_moved {q : Option (Nat × Nat)} (h : Grouped [⟨q, .move⟩] e) :
    (undo e).1.text = e.text := by
  obtain ⟨-, vs, flag, gs, hgs, hread⟩ := h.later (List.cons_ne_nil _ _)
  cases hread with
  | @cons v _ _ _ hv hnil =>
      cases hnil
      have hstep : v.step = .UMOVE := by cases hv; rfl
      have hgoto : ∀ (s : Ed) (n : Nat), (gotoline n s).1.text = s.text := by
        intro s n
        unfold gotoline gotoeob
        split_ifs
        · rfl
        · split <;> rfl
      have hplay : ∀ s : Ed, (undostep v s).1.text = s.text := by
        intro s
        have hgo : (goundo v s).1.text = s.text := by
          unfold goundo
          split
          · rename_i l o _
            have hline := hgoto s (l + 1)
            generalize gotoline (l + 1) s = t at hline ⊢
            dsimp only
            split_ifs
            · exact hline
            · exact hline
          · rfl
        unfold undostep
        generalize goundo v s = t at hgo ⊢
        dsimp only
        rw [hstep]
        split_ifs
        · exact hgo
        · exact hgo
      have hloop : (undoLoop [v] [] ({ e with undoing := true }, true)).1.text = e.text := by
        rw [undoLoop]
        split_ifs
        · rw [undoLoop, playSteps, playSteps, List.foldl_nil, List.foldl_cons, List.foldl_nil]
          exact hplay _
        · rw [undoLoop, playSteps, List.foldl_cons, List.foldl_nil]
          exact hplay _
      unfold undo
      rw [hgs]
      dsimp only
      exact hloop

/-- The loop is at a position, with the characters `l` behind it.  What it has done is recorded,
and the windows name lines of the buffer. -/
structure Converting (us : List (Rec UChar)) (b l x : List UChar) (pos : POS) (e : Ed) : Prop where
  recorded : Recorded us b ⟨l, x⟩ (e.setDot pos)
  last : EndsAtPlace us (l ++ x)
  dot : Within e e.dot
  alive : e.Alive

/-- The lines are the same ones, with as many characters and as much room. -/
structure Kept (e e' : Ed) : Prop where
  lines : e'.lines = e.lines
  header : e'.b_linep = e.b_linep
  length : ∀ p ∈ e.b_linep :: e.lines, (e'.line p).wllength = (e.line p).wllength
  size : ∀ p ∈ e.lines, (e'.line p).l_size = (e.line p).l_size

theorem Kept.refl (e : Ed) : Kept e e := ⟨rfl, rfl, fun _ _ => rfl, fun _ _ => rfl⟩

theorem Kept.trans {e' e'' : Ed} (h : Kept e e') (h' : Kept e' e'') : Kept e e'' := by
  obtain ⟨hlines, hheader, hlength, hsize⟩ := h'
  rw [h.lines] at hlines hlength hsize
  rw [h.header] at hheader hlength
  exact ⟨hlines, hheader, fun p hp => (hlength p hp).trans (h.length p hp),
    fun p hp => (hsize p hp).trans (h.size p hp)⟩

theorem Kept.lengths {e' : Ed} (h : Kept e e') : e'.lengths = e.lengths := by
  rw [Ed.lengths, h.lines]
  exact List.map_congr_left fun p hp => h.length p (List.mem_cons_of_mem _ hp)

theorem Kept.within {e' : Ed} (h : Kept e e') (hpos : Within e pos) : Within e' pos := by
  obtain ⟨hp, ho⟩ := hpos
  have hmem : pos.p ∈ e.b_linep :: e.lines := List.mem_cons.mpr hp.symm
  refine ⟨by rwa [h.lines, h.header], ?_⟩
  rw [h.length _ hmem]
  exact ho

theorem Kept.passed {e' : Ed} (h : Kept e e') (pos : POS) : e'.passed pos = e.passed pos := by
  have hsum : ((e.lines.takeWhile (· ≠ pos.p)).map fun p => (e'.line p).wllength + 1) =
      (e.lines.takeWhile (· ≠ pos.p)).map fun p => (e.line p).wllength + 1 := by
    refine List.map_congr_left fun p hp => ?_
    rw [h.length p (List.mem_cons_of_mem _ ((List.takeWhile_prefix _).subset hp))]
  rw [Ed.passed, Ed.passed, Circular.before, Circular.before, h.lines, hsum]


/-- **`lputc`** writes a character over another one, whatever their bytes are, unless it
leaves the cursor on a line that is lost. -/
theorem lputc_converts (h : Converting us b l (c :: x) pos e) (hc : c ≠ nl) (hx : x ≠ [])
    (hn : n ≠ 10) (hle : n ≤ 0x7fffffff)
    (hkeep : (lineFront l ++ uputc n :: lineRest x).flatten.length ≤ (e.line pos.p).l_size ∨
      e.dot = pos ∨ e.dot.p ≠ pos.p) :
    ∃ q us', Converting us' b (l ++ [uputc n]) x ⟨q, pos.o + 1⟩ (lputc pos n e) ∧
      (lputc pos n e).lengths = e.lengths ∧
      (lputc pos n e).dot = (if e.dot = pos then ⟨q, pos.o + 1⟩ else e.dot) ∧
      ((lineFront l ++ uputc n :: lineRest x).flatten.length ≤ (e.line pos.p).l_size →
        q = pos.p ∧ Kept e (lputc pos n e)) := by
  have hs := h.recorded.writable.shows_
  have hro : e.bfro = false := h.recorded.writable.bfro
  have hmem : pos.p ∈ e.lines := hs.mem
  obtain ⟨as, bs, hl, has, hbs⟩ := Circular.split_of_mem hmem hs.sound.nodup
  obtain ⟨q, hrep⟩ := written_replaces hs hro hc hx hn hle hl
  obtain ⟨us', hus', hrec⟩ := written_recorded h.recorded hc hx hn hle
  have halive := written_alive hs hro hc hx h.alive n
  have hstay := written_stays hs hro hc hx (n := n)
  have hshows := hrec.writable.shows_
  rw [lputc_written]
  dsimp only
  generalize written pos n e = s at *
  have hq : q ∈ s.lines := by
    rw [hrep.lines]
    simp
  -- the line that was written has as many characters as before
  have hlen : (s.line q).wllength = (e.line pos.p).wllength := by
    obtain ⟨hin, -⟩ := hs.sound.chars hmem
    have hput : Inline [uputc n] := (spells_copies 1 hle (uputc_ne_nl hn hle)).inline
    have hcs : Inline ((e.chars pos.p).take pos.o ++ uputc n :: (e.chars pos.p).drop (pos.o + 1)) :=
      (hin.take _).append (hput.append (hin.drop _))
    have hlt : pos.o < (e.chars pos.p).length := by
      have hrest := hs.line_rest
      rw [show (c :: x).takeWhile (· ≠ nl) = c :: lineRest x from
        lineRest_append (m := [c]) (by simpa using hc.symm)] at hrest
      have hlen := congrArg List.length hrest
      rw [List.length_cons, Ed.rest, List.length_drop] at hlen
      change _ = (e.chars pos.p).length - pos.o at hlen
      omega
    rw [LINE.wllength, hrep.text, unslen_flatten hcs.whole,
      wllength_eq e _ (hs.sound.inline _ hmem), List.length_append, List.length_cons,
      List.length_take, List.length_drop]
    omega
  have hhead : s.b_linep = e.b_linep := hrep.header.1
  have hdot : s.dot = ⟨q, pos.o + 1⟩ := hrep.dot
  have hsame : ∀ p ∈ e.lines, p ≠ pos.p → s.line p = e.line p := by
    intro p hp hne
    rw [hl] at hp
    refine hrep.others p ?_
    rcases List.mem_append.mp hp with hp | hp
    · exact List.mem_append_left _ hp
    · exact List.mem_append_right _ ((List.mem_cons.mp hp).resolve_left hne)
  have hkept : (lineFront l ++ uputc n :: lineRest x).flatten.length ≤ (e.line pos.p).l_size →
      q = pos.p ∧ Kept e s := by
    intro hroom
    have hstay := hstay hroom
    have hqp : q = pos.p := (congrArg POS.p hdot).symm.trans hstay.here
    refine ⟨hqp, hstay.lines, hhead, fun p hp => ?_, fun p hp => ?_⟩
    · rcases List.mem_cons.mp hp with rfl | hp
      · rw [hrep.header.2]
      · by_cases hne : p = pos.p
        · rw [hne, ← hlen, hqp]
        · rw [hsame p hp hne]
    · by_cases hne : p = pos.p
      · rw [hne]
        exact hstay.room
      · rw [hsame p hp hne]
  -- the cursor that is put back
  have hback : Within s (if e.dot = pos then s.dot else e.dot) := by
    split_ifs with hat
    · exact ⟨.inl hshows.mem, by
        rw [wllength_eq s _ (hshows.sound.inline _ hshows.mem)]
        exact hshows.offset⟩
    · rcases hkeep with hroom | heq | hne
      · exact (hkept hroom).2.within h.dot
      · exact absurd heq hat
      · obtain ⟨hp, ho⟩ := h.dot
        by_cases hin : e.dot.p ∈ e.lines
        · refine ⟨.inl ?_, by rwa [hsame _ hin hne]⟩
          rw [hrep.lines]
          rw [hl] at hin
          rcases List.mem_append.mp hin with hin | hin
          · exact List.mem_append_left _ hin
          · exact List.mem_append_right _
              (List.mem_cons_of_mem _ ((List.mem_cons.mp hin).resolve_left hne))
        · have heq := hp.resolve_left hin
          refine ⟨.inr (heq.trans hhead.symm), ?_⟩
          rw [heq] at ho ⊢
          rwa [hrep.header.2]
  generalize hd : (if e.dot = pos then s.dot else e.dot) = d at hback ⊢
  obtain ⟨z, hsave, htext, hright⟩ := hshows.sound.savepos_within (List.ne_nil_of_mem hq) hback
  have hrec' := hrec.saveundo_at hsave (htext.trans hshows.text.symm) hright
  refine ⟨q, us' ++ [⟨some (row isBreak z.left, col isBreak z.left), .move⟩], ⟨?_, ?_, ?_, ?_⟩,
    ?_, ?_, fun hroom => ⟨(hkept hroom).1, ?_⟩⟩
  · rw [setDot_saveundo, setDot_dot, setDot_setDot, ← hdot]
    exact hrec'
  · exact ⟨us', z, rfl, htext.trans hshows.text.symm, hright⟩
  · rw [saveundo_dot, setDot_dot]
    obtain ⟨hp, ho⟩ := hback
    exact ⟨by rwa [saveundo_lines, saveundo_b_linep], by rwa [saveundo_line]⟩
  · refine (halive.setDot ?_).saveundo _ _
    exact List.mem_cons.mpr hback.1.symm
  · rw [Ed.lengths, Ed.lengths, saveundo_lines, saveundo_line]
    change s.lines.map (fun p => (s.line p).wllength) = _
    have hmap : ∀ ps : List LineId, (∀ p ∈ ps, p ∈ as ++ bs) →
        ps.map (fun p => (s.line p).wllength) = ps.map fun p => (e.line p).wllength :=
      fun ps hps => List.map_congr_left fun p hp => by rw [hrep.others p (hps p hp)]
    rw [hrep.lines, hl, List.map_append, List.map_append, List.map_cons, List.map_cons, hlen,
      hmap as fun p hp => List.mem_append_left _ hp, hmap bs fun p hp => List.mem_append_right _ hp]
  · rw [saveundo_dot, setDot_dot, ← hd, hdot]
  · obtain ⟨-, hlines, hheader, hlength, hsize⟩ := hkept hroom
    refine ⟨?_, ?_, ?_, ?_⟩
    · rwa [saveundo_lines]
    · rwa [saveundo_b_linep]
    · rwa [saveundo_line]
    · rwa [saveundo_line]

/-- Without room the line is lost, and the cursor may be left on it. -/
theorem lputc_loses (h : Converting us b l (c :: x) pos e) (hc : c ≠ nl) (hx : x ≠ [])
    (hn : n ≠ 10) (hle : n ≤ 0x7fffffff)
    (hroom : (e.line pos.p).l_size < (lineFront l ++ uputc n :: lineRest x).flatten.length) :
    Gone pos.p (lputc pos n e) ∧ (lputc pos n e).b_linep = e.b_linep ∧
      (e.dot ≠ pos → (lputc pos n e).dot = e.dot) := by
  have hs := h.recorded.writable.shows_
  have hro : e.bfro = false := h.recorded.writable.bfro
  obtain ⟨as, bs, hl, -⟩ := Circular.split_of_mem hs.mem hs.sound.nodup
  obtain ⟨q, hrep⟩ := written_replaces hs hro hc hx hn hle hl
  have hgone := written_loses hs hro hc hx hroom
  rw [lputc_written]
  dsimp only
  generalize written pos n e = s at *
  have hgone : Gone pos.p (s.setDot (if e.dot = pos then s.dot else e.dot)) := hgone
  refine ⟨hgone.saveundo _ _, ?_, fun hne => ?_⟩
  · rw [saveundo_b_linep]
    exact hrep.header.1
  · rw [saveundo_dot, setDot_dot, if_neg hne]

/-! ## The loop -/

theorem Shows.after_eq {z : Zipper UChar} (h : Shows e z) : z.right = e.after := by
  have hle : e.dot.o ≤ (e.line e.dot.p).wllength := by
    rw [wllength_eq e _ (h.sound.inline _ h.mem)]
    exact h.offset
  have hat := h.sound.shows_here h.mem hle
  have htext : z.left ++ z.right = _ ++ e.after := h.text.trans hat.text.symm
  exact (List.append_inj htext (h.passed.trans hat.passed.symm)).2

/-- The room at a position, in terms of the text. -/
theorem roomAt_iff (h : Shows (e.setDot pos) ⟨l, x⟩) (n : Nat) :
    e.RoomAt r pos n ↔ r.Room n (e.line pos.p).l_size
      ((e.setDot pos).below.map fun p => (e.line p).l_size) (lineFront l) x := by
  have hfront : lineFront l = (e.chars pos.p).take pos.o := h.line_front
  have hafter : x = (e.setDot pos).after := h.after_eq
  rw [Ed.RoomAt, ← hfront, ← hafter]

theorem Recasing.Room.of_succ {size : Nat} {sizes : List Nat} {a : List UChar}
    (h : r.Room (n + 1) size sizes a x) : r.Room n size sizes a x := by
  induction n generalizing size sizes a x with
  | zero => trivial
  | succ n ih =>
      cases x with
      | nil => trivial
      | cons c x =>
          rw [Recasing.Room] at h ⊢
          split_ifs at h ⊢
          · exact ih h
          · exact ⟨h.1, ih h.2⟩

/-- The body of the loop, by the character at the position. -/
theorem convertChar_eq (h : Shows (e.setDot pos) ⟨l, c :: x⟩) :
    convertChar r junk (pos, e) =
      some (if c = nl then (⟨e.lforw pos.p, 0⟩, e)
        else (⟨pos.p, pos.o + 1⟩, if r.Changes c then lputc pos (r.image (code c)) e else e)) := by
  have hmem : pos.p ∈ e.lines := h.mem
  have hline : (c :: x).takeWhile (· ≠ nl) = (e.chars pos.p).drop pos.o := h.line_rest
  have hend : pos.o = (e.line pos.p).wllength ↔ (e.chars pos.p).drop pos.o = [] := h.eol_iff
  unfold convertChar
  dsimp only
  rw [if_neg fun hand => hand.1 hmem]
  by_cases hc : c = nl
  · rw [if_pos hc, if_pos (hend.mpr (by rw [← hline, hc]; simp))]
  · have hrest : (e.chars pos.p).drop pos.o = c :: lineRest x := by
      rw [← hline]
      exact lineRest_append (m := [c]) (by simpa using Ne.symm hc)
    have hget : e.wlgetc junk pos = code c := by
      refine (h.sound.wlgetc_eq (p := pos.p) hmem junk pos.o).trans ?_
      rw [setDot_chars, hrest]
      rfl
    rw [if_neg hc, if_neg (by rw [hend, hrest]; simp)]
    change some (_, if r.test (e.wlgetc junk pos) = true then
      lputc pos (r.image (e.wlgetc junk pos)) e else e) = _
    rw [hget]
    rfl

variable (pos) in
theorem below_eq (h : Sound (e.setDot pos)) (hl : e.lines = as ++ pos.p :: bs) :
    (e.setDot pos).below = bs := by
  obtain ⟨has, -, -⟩ := h.around hl
  change (e.lines.dropWhile (· ≠ pos.p)).tail = bs
  rw [hl, Circular.dropWhile_ne_append has, List.tail_cons]

/-- Room for a character of a line, and for those after it. -/
theorem roomAt_put (e' : Ed) {o : Nat} (h : Shows (e.setDot pos) ⟨l, c :: x⟩) (hc : c ≠ nl)
    (h' : Shows (e'.setDot ⟨pos.p, o⟩) ⟨l ++ [r.put c], x⟩) (hkept : Kept e e') (n : Nat) :
    e.RoomAt r pos (n + 1) ↔ (r.Changes c →
      (lineFront l ++ r.put c :: lineRest x).flatten.length ≤ (e.line pos.p).l_size) ∧
      e'.RoomAt r ⟨pos.p, o⟩ n := by
  obtain ⟨as, bs, hl, -⟩ := h.split
  have hbelow : (e.setDot pos).below = bs := below_eq pos h.sound hl
  have hbelow' : (e'.setDot ⟨pos.p, o⟩).below = bs :=
    below_eq ⟨pos.p, o⟩ h'.sound (hkept.lines.trans hl)
  have hsizes : bs.map (fun p => (e'.line p).l_size) = bs.map fun p => (e.line p).l_size := by
    refine List.map_congr_left fun p hp => hkept.size p ?_
    change p ∈ (e.setDot pos).lines
    rw [hl]
    exact List.mem_append_right _ (List.mem_cons_of_mem _ hp)
  rw [roomAt_iff h, roomAt_iff h', hbelow, hbelow', hsizes, hkept.size pos.p h.mem, Recasing.Room,
    if_neg hc, lineFront_append (by simpa using (put_ne_nl hc).symm)]

/-- The end of a line, and the room below it. -/
theorem convertChar_nl (h : Shows (e.setDot pos) ⟨l, nl :: x⟩) (hx : x ≠ []) :
    Shows (e.setDot ⟨e.lforw pos.p, 0⟩) ⟨l ++ [nl], x⟩ ∧
      ∀ n, e.RoomAt r pos (n + 1) ↔ e.RoomAt r ⟨e.lforw pos.p, 0⟩ n := by
  have hend : pos.o = (e.line pos.p).wllength := by
    refine h.eol_iff.mpr ?_
    rw [← h.line_rest]
    simp
  obtain ⟨a, hforw, hat⟩ := h.forw hx hend
  obtain ⟨as, bs, hl, hz⟩ := h.split
  have hmem : pos.p ∈ e.lines := h.mem
  have hne : pos.p ≠ e.b_linep := h.ne_header
  have hnext : e.lforw pos.p = bs.headD e.b_linep := h.lforw hl
  cases bs with
  | nil =>
      rw [List.flatMap_nil] at hz
      have hright := congrArg Zipper.right hz
      have hrest : (e.setDot pos).rest = [] := h.eol_iff.mp hend
      change nl :: x = (e.setDot pos).rest ++ [nl] at hright
      rw [hrest] at hright
      exact absurd (List.tail_eq_of_cons_eq hright) hx
  | cons q bs =>
      rw [List.headD_cons] at hnext
      have hl' : e.lines = (as ++ [pos.p]) ++ q :: bs := by
        change (e.setDot pos).lines = _
        rw [hl]
        simp
      have hq : q ≠ e.b_linep := fun heq => h.sound.header (by
        change e.b_linep ∈ e.lines
        rw [hl', ← heq]
        simp)
      have hstep : forwchar 1 (e.setDot pos) = (e.setDot ⟨q, 0⟩, true) := by
        rw [forwchar, setDot_dot]
        change (if pos.o = (e.line pos.p).wllength then if pos.p = e.b_linep then _
          else if e.lforw pos.p = e.b_linep then _
          else forwchar 0 (e.setDot ⟨e.lforw pos.p, 0⟩) else _) = _
        rw [if_pos hend, if_neg hne, hnext, if_neg hq]
        rfl
      have ha : a = ⟨q, 0⟩ := by
        have hsame := congrArg (fun s => s.1.dot) (hforw.symm.trans hstep)
        exact hsame
      rw [setDot_setDot, ha] at hat
      rw [hnext]
      refine ⟨hat, fun n => ?_⟩
      have hbelow : (e.setDot pos).below = q :: bs := below_eq pos h.sound hl
      have hbelow' : (e.setDot ⟨q, 0⟩).below = bs := below_eq ⟨q, 0⟩ hat.sound hl'
      have hfront : lineFront (l ++ [nl]) = [] := by simp [lineFront]
      rw [roomAt_iff h, roomAt_iff hat, hbelow, hbelow', hfront, Recasing.Room, if_pos rfl,
        List.map_cons, List.headD_cons, List.tail_cons]

variable (junk) in
/-- One round of the loop, with room for the character. -/
theorem convertChar_converts (h : Converting us b l (c :: x) pos e) (hx : x ≠ [])
    (hroom : r.Changes c →
      (lineFront l ++ r.put c :: lineRest x).flatten.length ≤ (e.line pos.p).l_size) :
    ∃ pos' e' us', convertChar r junk (pos, e) = some (pos', e') ∧
      Converting us' b (l ++ [r.put c]) x pos' e' ∧ Kept e e' ∧
      (∀ n, e.RoomAt r pos (n + 1) ↔ e'.RoomAt r pos' n) ∧ (c ≠ nl → pos'.p = pos.p) ∧
      e'.dot = if e.dot = pos ∧ r.Changes c then pos' else e.dot := by
  have hs := h.recorded.writable.shows_
  have hmem : pos.p ∈ e.lines := hs.mem
  rw [convertChar_eq hs]
  by_cases hc : c = nl
  · -- to the next line
    subst hc
    obtain ⟨hnext, hbelow⟩ := convertChar_nl (r := r) hs hx
    rw [if_pos rfl, put_nl]
    refine ⟨_, e, us, rfl, ⟨h.recorded.move hnext, ?_, h.dot, h.alive⟩, Kept.refl e, hbelow,
      fun hne => absurd rfl hne, ?_⟩
    · rw [List.append_assoc]
      exact h.last
    · rw [if_neg fun hand => hand.2.ne_nl rfl]
  · by_cases hch : r.Changes c
    · -- a character is written
      rw [hch.put_eq] at hroom ⊢
      obtain ⟨q, us', hconv, -, hdot, hstays⟩ := lputc_converts h hc hx hch.image_ne (r.image_le c)
        (.inl (hroom hch))
      obtain ⟨rfl, hkept⟩ := hstays (hroom hch)
      rw [if_neg hc, if_pos hch]
      refine ⟨_, _, us', rfl, hconv, hkept, fun n => ?_, fun _ => rfl, ?_⟩
      · have hshows := hconv.recorded.writable.shows_
        rw [← hch.put_eq] at hroom hshows
        rw [roomAt_put _ hs hc hshows hkept, and_iff_right hroom]
      · rw [hdot]
        simp [hch]
    · have hput : r.put c = c := if_neg hch
      rw [if_neg hc, if_neg hch, hput]
      have hadv := hs.advance (m := [c]) (by simpa using Ne.symm hc)
      refine ⟨_, e, us, rfl, ⟨h.recorded.move hadv, ?_, h.dot, h.alive⟩, Kept.refl e,
        fun n => ?_, fun _ => rfl, ?_⟩
      · rw [List.append_assoc]
        exact h.last
      · rw [← hput] at hadv
        rw [roomAt_put e hs hc hadv (Kept.refl e), and_iff_right fun h => absurd h hch]
        rfl
      · rw [if_neg fun hand => hch hand.2]

/-- The cursor is where the loop is, or the loop does not come to it. -/
def OffPath (e : Ed) (pos : POS) (n : Nat) : Prop :=
  e.dot = pos ∨ e.passed e.dot < e.passed pos ∨ e.passed pos + n ≤ e.passed e.dot

variable (junk) in
/-- **The loop** over characters that there is room for.  The cursor is carried along as long
as every character is changed. -/
theorem convertLoop_converts (h : Converting us b l (m ++ x) pos e) (hx : x ≠ [])
    (hroom : e.RoomAt r pos m.length) (hoff : OffPath e pos m.length) :
    ∃ pos' e' us', convertLoop r junk m.length (pos, e) = some (pos', e') ∧
      Converting us' b (l ++ m.map r.put) x pos' e' ∧ Kept e e' ∧
      (∀ n, e.RoomAt r pos (m.length + n) ↔ e'.RoomAt r pos' n) ∧
      (e.dot ≠ pos ∨ m = [] → e'.dot = e.dot) ∧ (e.dot = pos → e'.dot.p = pos.p) ∧
      (e.dot = pos → (e'.dot = pos' ↔ ∀ c ∈ m, r.Changes c)) := by
  induction m generalizing us l pos e with
  | nil =>
      refine ⟨pos, e, us, rfl, by simpa using h, Kept.refl e, fun n => ?_, fun _ => rfl,
        fun heq => by rw [heq], fun heq => iff_of_true heq fun c hc => absurd hc List.not_mem_nil⟩
      rw [List.length_nil, Nat.zero_add]
  | cons c m ih =>
      have hne : m ++ x ≠ [] := by simp [hx]
      have hpassed := h.recorded.writable.shows_.passed
      have hfirst : r.Changes c →
          (lineFront l ++ r.put c :: lineRest (m ++ x)).flatten.length ≤ (e.line pos.p).l_size := by
        intro hch
        have hs := h.recorded.writable.shows_
        rw [List.length_cons, roomAt_iff hs, List.cons_append, Recasing.Room,
          if_neg hch.ne_nl] at hroom
        exact hroom.1 hch
      obtain ⟨pos₁, e₁, us₁, hstep, hconv, hkept, hrest, hline, hdot⟩ :=
        convertChar_converts junk h hne hfirst
      have hpassed₁ := hconv.recorded.writable.shows_.passed
      change l.length = e.passed pos at hpassed
      change _ = e₁.passed pos₁ at hpassed₁
      rw [hkept.passed, List.length_append, List.length_singleton] at hpassed₁
      -- where the cursor is now
      have hstays : ¬ (e.dot = pos ∧ r.Changes c) → e₁.dot = e.dot := fun hand => by
        rw [hdot, if_neg hand]
      have hmoves : e.dot = pos → r.Changes c → e₁.dot = pos₁ := fun heq hch => by
        rw [hdot, if_pos ⟨heq, hch⟩]
      have hoff₁ : OffPath e₁ pos₁ m.length := by
        by_cases hand : e.dot = pos ∧ r.Changes c
        · exact .inl (hmoves hand.1 hand.2)
        · right
          rw [hstays hand, hkept.passed, hkept.passed, ← hpassed₁]
          rw [List.length_cons] at hoff
          rcases hoff with heq | hlt | hge
          · rw [heq]
            omega
          · omega
          · omega
      obtain ⟨pos', e', us', hloop, hconv', hkept', hrest', hfar, hline', hcarried⟩ := ih hconv
        ((hrest m.length).mp hroom) hoff₁
      have hpassed' := hconv'.recorded.writable.shows_.passed
      change _ = e'.passed pos' at hpassed'
      have hsame : ¬ (e.dot = pos ∧ r.Changes c) → e.dot ≠ pos₁ ∨ m = [] → e'.dot = e.dot := by
        intro hand hor
        rw [← hstays hand] at hor ⊢
        exact hfar hor
      have hpast : e.passed pos < e.passed pos₁ := by omega
      have hne₁ : pos ≠ pos₁ := fun heq => absurd (congrArg e.passed heq) hpast.ne
      refine ⟨pos', e', us', ?_, ?_, hkept.trans hkept', fun n => ?_, ?_, ?_, ?_⟩
      · rw [List.length_cons, convertLoop, hstep]
        exact hloop
      · rw [List.append_assoc] at hconv'
        exact hconv'
      · rw [List.length_cons, Nat.add_right_comm, hrest, hrest']
      · rintro (hne | hnil)
        · refine hsame (fun hand => hne hand.1) ?_
          by_cases hm : m = []
          · exact .inr hm
          · left
            intro heq
            have hpos := List.length_pos_iff.mpr hm
            rw [OffPath, heq, List.length_cons] at hoff
            rcases hoff with heq' | hlt | hge
            · exact hne (heq.trans heq')
            · omega
            · omega
        · cases hnil
      · intro heq
        by_cases hch : r.Changes c
        · rw [hline' (hmoves heq hch), hline hch.ne_nl]
        · rw [hsame (fun hand => hch hand.2) (.inl (heq ▸ hne₁)), heq]
      · intro heq
        rw [List.forall_mem_cons]
        by_cases hch : r.Changes c
        · rw [hcarried (hmoves heq hch), and_iff_right hch]
        · refine iff_of_false (fun heq' => ?_) fun hand => hch hand.1
          rw [hsame (fun hand => hch hand.2) (.inl (heq ▸ hne₁)), heq] at heq'
          rw [← heq', hkept'.passed, hkept.passed, List.length_append, List.length_append,
            List.length_singleton] at hpassed'
          omega

theorem convertLoop_append (n k : Nat) (s : POS × Ed) :
    convertLoop r junk (n + k) s = (convertLoop r junk n s).bind (convertLoop r junk k) := by
  induction n generalizing s with
  | zero =>
      rw [Nat.zero_add]
      rfl
  | succ n ih =>
      rw [Nat.succ_add, convertLoop, convertLoop]
      cases convertChar r junk s with
      | none => rfl
      | some s => exact ih s

/-- Without room the loop reads the line that was freed. -/
theorem convertLoop_lost (h : Converting us b l (m ++ x) pos e) (hx : x ≠ [])
    (hroom : ¬ e.RoomAt r pos m.length) (n : Nat) :
    convertLoop r junk (m.length + (n + 1)) (pos, e) = none := by
  induction m generalizing us l pos e with
  | nil => exact absurd trivial hroom
  | cons c m ih =>
      have hne : m ++ x ≠ [] := by simp [hx]
      have hs := h.recorded.writable.shows_
      rw [List.length_cons, Nat.succ_add, convertLoop]
      by_cases hfirst : r.Changes c →
          (lineFront l ++ r.put c :: lineRest (m ++ x)).flatten.length ≤ (e.line pos.p).l_size
      · obtain ⟨pos₁, e₁, us₁, hstep, hconv, -, hrest, -, -⟩ :=
          convertChar_converts junk h hne hfirst
        rw [hstep]
        exact ih hconv fun h => hroom ((hrest m.length).mpr h)
      · obtain ⟨hch, hfull⟩ := Classical.not_imp.mp hfirst
        rw [hch.put_eq, Nat.not_le] at hfull
        obtain ⟨hgone, hheader, -⟩ := lputc_loses h hch.ne_nl hne hch.image_ne (r.image_le c) hfull
        have hnot : pos.p ≠ e.b_linep := hs.ne_header
        rw [convertChar_eq hs, if_neg hch.ne_nl, if_pos hch]
        change (convertChar r junk _).bind _ = none
        rw [convertChar, if_pos ⟨hgone.1, hheader ▸ hnot⟩]
        rfl

/-! ## The commands -/

theorem getregion_startsaveundo (e : Ed) (g : REGION) :
    getregion e.startsaveundo g = getregion e g := by
  have hloop : ∀ (f : Nat) (flp blp : LineId) (fsize bsize : Int),
      getregionLoop e.startsaveundo g f flp blp fsize bsize =
        getregionLoop e g f flp blp fsize bsize := by
    intro f
    induction f with
    | zero => exact fun _ _ _ _ => rfl
    | succ f ih =>
        intro flp blp fsize bsize
        have hforw : getregionForw e.startsaveundo g flp fsize = getregionForw e g flp fsize := rfl
        have hback : getregionBack e.startsaveundo g blp bsize = getregionBack e g blp bsize := rfl
        rw [getregionLoop, getregionLoop, hforw, hback]
        simp only [ih]
        rfl
  unfold getregion
  dsimp only
  rw [hloop]
  rfl

/-- Where the loop of a command begins. -/
def Ed.begun (e : Ed) : Ed := e.startsaveundo.lchange.saveundo .UMOVE (some e.dot)

theorem convertRegion_eq {region : REGION} (hro : e.bfro = false)
    (hregion : getregion e ⟨⟨null, 0⟩, 0⟩ = (region, none)) :
    convertRegion r junk e.startsaveundo =
      (convertLoop r junk region.r_size.toNat (region.r_pos, e.begun)).map
        fun s => (s.2, true) := by
  unfold convertRegion
  rw [getregion_startsaveundo, hregion]
  dsimp only
  have hwrite : (!e.startsaveundo.checkreadonly) = false := by
    show (!!e.bfro) = false
    rw [hro]
    rfl
  rw [hwrite, if_neg Bool.false_ne_true]
  rfl

theorem begun_grouped (e : Ed) : Grouped [⟨some (e.lineno e.dot.p, e.dot.o), .move⟩] e.begun := by
  have hlog : Grouped [] e.startsaveundo.lchange := (startsaveundo_grouped e).congr rfl rfl rfl
  exact hlog.saveundo (q := some e.dot) (k := .UMOVE) (a := .move) rfl trivial
    fun _ _ _ heq => by cases heq

/-- The loop begins. -/
theorem begun_converting (h : Shows (e.setDot pos) ⟨l, x⟩) (hro : e.bfro = false)
    (hdot : Within e e.dot) (ha : e.Alive) :
    ∃ us, Converting us e.symbols l x pos e.begun ∧ e.begun.dot = e.dot ∧ Kept e e.begun ∧
      ∀ n, e.begun.RoomAt r pos n ↔ e.RoomAt r pos n := by
  have htext : l ++ x = e.symbols := h.text
  obtain ⟨z, hsave, hz, hright⟩ := (h.sound : Sound (e.setDot pos)).savepos_within
    (List.ne_nil_of_mem h.mem) (show Within (e.setDot pos) e.dot from hdot)
  have hsymbols : z.text = l ++ x := hz.trans htext.symm
  have hbegin : Recorded [] e.symbols ⟨l, x⟩ (e.startsaveundo.lchange.setDot pos) := by
    refine ⟨⟨h.congr rfl rfl rfl rfl rfl, hro⟩, (startsaveundo_grouped e).congr rfl rfl rfl, ?_⟩
    rw [← htext]
    exact .nil _
  have hrec := hbegin.saveundo_at (p := e.dot) hsave hsymbols hright
  rw [← setDot_saveundo] at hrec
  have hline : e.begun.line = e.line := saveundo_line ..
  have hlines : e.begun.lines = e.lines := saveundo_lines ..
  have hheader : e.begun.b_linep = e.b_linep := saveundo_b_linep ..
  have hat : e.begun.dot = e.dot := saveundo_dot ..
  refine ⟨_, ⟨hrec, ⟨[], z, rfl, hsymbols, hright⟩, ?_, ?_⟩, hat, ?_, fun n => ?_⟩
  · rw [hat]
    obtain ⟨hp, ho⟩ := hdot
    exact ⟨by rwa [hlines, hheader], by rwa [hline]⟩
  · exact Ed.Alive.saveundo (e := e.startsaveundo.lchange) (ha.congr rfl rfl rfl) _ _
  · exact ⟨hlines, hheader, fun p _ => by rw [hline], fun p _ => by rw [hline]⟩
  · have hshows : Shows (e.begun.setDot pos) ⟨l, x⟩ := hrec.writable.shows_
    have hbelow : (e.begun.setDot pos).below = (e.setDot pos).below := by
      change (e.begun.lines.dropWhile (· ≠ pos.p)).tail = _
      rw [hlines]
      rfl
    rw [roomAt_iff hshows, roomAt_iff h, hbelow, hline]

/-- The region that was marked: it begins at the cursor, or ends there. -/
theorem getregion_dot {region : REGION} (hl : Linked e) (hdot : Within e e.dot)
    (hmark : Within e e.curwp.w_mark) {g : REGION} (hregion : getregion e g = (region, none)) :
    region.r_pos = e.dot ∨ e.passed region.r_pos + region.r_size.toNat = e.passed e.dot := by
  obtain ⟨a, b, hab, hord, hsmall, hlarge⟩ := getregion_measures e g hl hdot hmark
  by_cases hle : e.passed b - e.passed a ≤ INT_MAX
  · have heq := (Prod.mk.inj (hregion.symm.trans (hsmall hle))).1
    rcases hab with ⟨rfl, rfl⟩ | ⟨rfl, rfl⟩
    · exact .inl (by rw [heq])
    · right
      have hpassed := Linked.passed_le hmark hord
      rw [heq]
      dsimp only
      rw [Int.toNat_natCast]
      omega
  · have hmessage := (hlarge (Nat.lt_of_not_le hle)).2
    rw [hregion] at hmessage
    cases hmessage

/-- The buffer, cut at the region and in front of its last character. -/
theorem region_split {region : REGION} (hs : Sound e) (hl : Linked e) (hdot : Within e e.dot)
    (hmark : Within e e.curwp.w_mark) (hregion : getregion e ⟨⟨null, 0⟩, 0⟩ = (region, none))
    (hne : region.r_size.toNat ≠ 0) :
    ∃ l m c u, Shows (e.setDot region.r_pos) ⟨l, m ++ c :: u⟩ ∧ e.textIn region = m ++ [c] ∧
      region.r_size.toNat = m.length + 1 ∧
      ∀ r : Recasing, e.converted r region = l ++ m.map r.put ++ r.put c :: u := by
  obtain ⟨hpos, b, hb, hends⟩ := getregion_ends hl hdot hmark hregion
  have htotal : e.passed b ≤ e.symbols.length := by
    by_cases hmem : b.p ∈ e.lines
    · exact (hs.passed_lt hb hmem).le
    · exact (hs.passed_header hb hmem).2.le
  have hmem : region.r_pos.p ∈ e.lines := by
    by_contra hnot
    have hall := (hs.passed_header hpos hnot).2
    omega
  have hat := hs.shows_within hpos hmem
  have hafter := hat.after_eq
  dsimp only at hafter
  generalize hn : region.r_size.toNat = n at *
  obtain ⟨k, rfl⟩ : ∃ k, n = k + 1 := ⟨n - 1, by omega⟩
  have hle : e.passed region.r_pos + (k + 1) ≤ e.symbols.length := by omega
  have hlt : k < (e.symbols.drop (e.passed region.r_pos)).length := by
    rw [List.length_drop]
    omega
  have htext : e.textIn region = (e.symbols.drop (e.passed region.r_pos)).take (k + 1) := by
    rw [Ed.textIn, hn, ← hafter]
  have htake := List.take_succ_eq_append_getElem hlt
  refine ⟨e.symbols.take (e.passed region.r_pos),
    (e.symbols.drop (e.passed region.r_pos)).take k, _,
    (e.symbols.drop (e.passed region.r_pos)).drop (k + 1), ?_, htext.trans htake, ?_,
    fun r => ?_⟩
  · rw [← List.drop_eq_getElem_cons hlt, List.take_append_drop]
    exact hat
  · rw [List.length_take, Nat.min_eq_left hlt.le]
  · rw [Ed.converted, htext, htake, hn, List.drop_drop, List.map_append, List.map_singleton,
      ← List.append_assoc, List.append_assoc _ [_] _, List.singleton_append]

/-- What the loop has done, when it ends. -/
theorem Converting.converts {e' : Ed} {region : REGION} (h : Converting us e.symbols l x pos e')
    (hs : Sound e) (htext : e.converted r region = l ++ x) (hlengths : e'.lengths = e.lengths) :
    Converts r e region e' := by
  have hshows := h.recorded.writable.shows_
  obtain ⟨z, hundo, hz⟩ := h.recorded.undone_anywhere h.last
  refine ⟨?_, hlengths, h.alive, ?_⟩
  · exact (hshows.text.symm : e'.symbols = l ++ x).trans htext.symm
  · exact (text_eq_iff hundo.sound hs).mpr (hundo.text.symm.trans hz)

/-- The room for one character. -/
theorem roomAt_one (h : Shows (e.setDot pos) ⟨l, c :: x⟩) :
    e.RoomAt r pos 1 ↔ (r.Changes c →
      (lineFront l ++ r.put c :: lineRest x).flatten.length ≤ (e.line pos.p).l_size) := by
  rw [roomAt_iff h, Recasing.Room]
  split_ifs with hc
  · exact iff_of_true trivial fun hch => absurd hc hch.ne_nl
  · exact and_iff_left trivial

/-- Two places are on one line if as many newlines are in front of them. -/
theorem same_line_iff {e' : Ed} {pos' : POS} {z z' : Zipper UChar} (h : Shows (e.setDot pos) z)
    (h' : Shows (e'.setDot pos') z') (hlines : e'.lines = e.lines) :
    pos'.p = pos.p ↔ row isBreak z'.left = row isBreak z.left := by
  have hnumber : ∀ {e : Ed} {pos : POS} {z : Zipper UChar}, Shows (e.setDot pos) z →
      e.lines.idxOf pos.p = row isBreak z.left := by
    intro e pos z h
    have hrow : min (e.lines.idxOf pos.p) (e.lines.length - 1) = row isBreak z.left := h.position.1
    have hmem : pos.p ∈ e.lines := h.mem
    have hlt := List.idxOf_lt_length_of_mem hmem
    omega
  have hmem : pos'.p ∈ e'.lines := h'.mem
  rw [← hnumber h, ← hnumber h', hlines, List.idxOf_inj (hlines ▸ hmem)]

/-- The position behind the next character is the only one with so many characters in front
of it. -/
theorem within_next {a : POS} (h : Shows (e.setDot pos) ⟨l, c :: x⟩) (hc : c ≠ nl) (hx : x ≠ [])
    (ha : Within e a) (hpassed : e.passed a = l.length + 1) : a = ⟨pos.p, pos.o + 1⟩ := by
  have hs : Sound e := h.sound.setDot e.dot
  have hnext := h.advance (m := [c]) (by simpa using hc.symm)
  have hlen : (l ++ [c]).length = e.passed a := by rw [hpassed, List.length_append]; rfl
  have htext : l ++ [c] ++ x = e.symbols := hnext.text
  have hmem : a.p ∈ e.lines := by
    by_contra hnot
    have hall := (hs.passed_header ha hnot).2
    have hsum : (l ++ [c] ++ x).length = (l ++ [c]).length + x.length := List.length_append
    rw [← hlen, ← htext] at hall
    exact hx (List.length_eq_zero_iff.mp (by omega))
  have hat := hs.shows_within ha hmem
  rw [← hlen, ← htext, List.take_left, List.drop_left] at hat
  exact hat.pos_unique hnext

section Commands

variable {region : REGION} (hs : Sound e) (hl : Linked e) (hdot : Within e e.dot)
  (hmark : Within e e.curwp.w_mark) (ha : e.Alive) (hro : e.bfro = false)
  (hregion : getregion e ⟨⟨null, 0⟩, 0⟩ = (region, none))

include ha hro hregion

/-- A region without characters. -/
theorem convertRegion_empty (hzero : region.r_size.toNat = 0) :
    ∃ e', convertRegion r junk e.startsaveundo = some (e', true) ∧ Converts r e region e' := by
  have hline : e.begun.line = e.line := saveundo_line ..
  have hlines : e.begun.lines = e.lines := saveundo_lines ..
  refine ⟨e.begun, ?_, ?_, ?_, ?_, ?_⟩
  · rw [convertRegion_eq hro hregion, hzero]
    rfl
  · have hnone : e.textIn region = [] := by rw [Ed.textIn, hzero, List.take_zero]
    rw [Ed.converted, hnone, hzero, List.map_nil, List.append_nil, Nat.add_zero,
      List.take_append_drop, Ed.symbols, hlines]
    exact flatMap_row_congr fun q _ => by rw [hline]
  · rw [Ed.lengths, hlines, hline]
    rfl
  · exact Ed.Alive.saveundo (e := e.startsaveundo.lchange) (ha.congr rfl rfl rfl) _ _
  · rw [undo_moved (begun_grouped e), Ed.text, hlines, hline]
    rfl

include hs hl hdot hmark

/-- **A command that converts the region**, and when it does. -/
theorem convertRegion_iff :
    (∃ e', convertRegion r junk e.startsaveundo = some (e', true) ∧ Converts r e region e') ↔
      e.Convertible r region := by
  by_cases hzero : region.r_size.toNat = 0
  · refine iff_of_true (convertRegion_empty ha hro hregion hzero) (.inl ?_)
    rw [hzero]
    trivial
  · obtain ⟨l, m, c, u, hat, htext, hsize, hconverted⟩ :=
      region_split hs hl hdot hmark hregion hzero
    obtain ⟨us, hbegun, hsame, hkept, hrooms⟩ := begun_converting (r := r) hat hro hdot ha
    rw [convertRegion_eq hro hregion, hsize]
    by_cases hroom : e.RoomAt r region.r_pos m.length
    · have hoff : OffPath e.begun region.r_pos m.length := by
        rw [OffPath, hsame, hkept.passed, hkept.passed]
        rcases getregion_dot hl hdot hmark hregion with heq | heq
        · exact .inl heq.symm
        · exact .inr (.inr (by omega))
      obtain ⟨pos, e₁, us₁, hloop, hconv, hkept₁, hrest, hfar, hline, hcarried⟩ :=
        convertLoop_converts junk hbegun (List.cons_ne_nil c u)
          ((hrooms _).mpr hroom) hoff
      have hshows := hconv.recorded.writable.shows_
      have hone : ∀ s, convertLoop r junk 1 s = convertChar r junk s := by
        intro s
        rw [convertLoop]
        cases convertChar r junk s <;> rfl
      have hlengths : e₁.lengths = e.lengths := hkept₁.lengths.trans hkept.lengths
      have hlines : e₁.lines = e.lines := hkept₁.lines.trans hkept.lines
      have hwhole : e.RoomAt r region.r_pos (m.length + 1) ↔ _ :=
        (hrooms _).symm.trans ((hrest 1).trans (roomAt_one hshows))
      have hnl : c ≠ nl → u ≠ [] := by
        rintro hc rfl
        have hlast := symbols_last (e := e) hat.text.symm (by simp)
        rw [List.getLast?_concat] at hlast
        exact hc (Option.some.inj hlast)
      rw [convertLoop_append, hloop, Option.bind_some, hone]
      by_cases hfit : r.Changes c →
          (lineFront (l ++ m.map r.put) ++ r.put c :: lineRest u).flatten.length ≤
            (e₁.line pos.p).l_size
      · -- there is room for the last character
        refine iff_of_true ?_ (.inl ?_)
        · by_cases hc : c = nl
          · subst hc
            rw [convertChar_eq hshows, if_pos rfl]
            exact ⟨e₁, rfl, hconv.converts hs (by rw [hconverted, put_nl]) hlengths⟩
          · obtain ⟨pos', e', us', hstep, hconv', hkept', -⟩ :=
              convertChar_converts junk hconv (hnl hc) hfit
            rw [hstep]
            refine ⟨e', rfl, hconv'.converts hs ?_ (hkept'.lengths.trans hlengths)⟩
            rw [hconverted, List.append_assoc _ [_], List.singleton_append]
        · rw [hsize]
          exact hwhole.mpr hfit
      · -- the line of the last character is lost
        obtain ⟨hch, hfull⟩ := Classical.not_imp.mp hfit
        have hc := hch.ne_nl
        rw [hch.put_eq, Nat.not_le] at hfull
        rw [convertChar_eq hshows, if_neg hc, if_pos hch]
        have hcarries : (∃ e', (some (⟨pos.p, pos.o + 1⟩, lputc pos (r.image (code c)) e₁) :
            Option (POS × Ed)).map (fun s => (s.2, true)) = some (e', true) ∧
              Converts r e region e') ↔ e₁.dot = pos ∨ e₁.dot.p ≠ pos.p := by
          constructor
          · rintro ⟨e', heq, hdone⟩
            obtain rfl := (Prod.mk.inj (Option.some.inj heq)).1
            by_contra hnot
            obtain ⟨hne, hsame⟩ := not_or.mp hnot
            obtain ⟨hgone, hheader, hdots⟩ :=
              lputc_loses hconv hc (hnl hc) hch.image_ne (r.image_le c) hfull
            have hlive := (hdone.alive _ List.mem_cons_self).dot
            change (lputc pos (r.image (code c)) e₁).dot.p ∈ _ at hlive
            rw [hdots hne, not_not.mp hsame] at hlive
            rcases List.mem_cons.mp hlive with heq | hin
            · exact hshows.ne_header (heq.trans hheader)
            · exact hgone.1 hin
          · intro hkeep
            obtain ⟨q, us', hconv', hlengths', -, -⟩ :=
              lputc_converts hconv hc (hnl hc) hch.image_ne (r.image_le c) (.inr hkeep)
            refine ⟨_, rfl, hconv'.converts hs ?_ (hlengths'.trans hlengths)⟩
            rw [hconverted, hch.put_eq, List.append_assoc _ [_], List.singleton_append]
        refine hcarries.trans ?_
        rw [Ed.Convertible, hsize, Nat.add_sub_cancel, hwhole, htext, or_iff_right hfit,
          and_iff_right hroom]
        by_cases heq : region.r_pos = e.dot
        · -- the cursor is carried along within the line
          have hbelow : pos.p = region.r_pos.p ↔ nl ∉ m := by
            rw [same_line_iff hat hshows hlines]
            dsimp only
            rw [Journal.row_append, Nat.add_eq_left, row_put]
          have hat₁ : e.begun.dot = region.r_pos := hsame.trans heq.symm
          rw [hcarried hat₁, hline hat₁, and_iff_right heq, ne_comm, Ne, hbelow, not_not,
            List.mem_append, or_iff_left fun hin => hc (List.mem_singleton.mp hin).symm, or_comm]
          refine or_congr_right ⟨fun hall d hd => ?_, fun hall d hd => ?_⟩
          swap
          · exact hall d (List.mem_append_left _ hd)
          rcases List.mem_append.mp hd with hd | hd
          · exact hall d hd
          · rw [List.mem_singleton.mp hd]
            exact hch
        · -- the cursor is behind the last character
          refine iff_of_false ?_ fun hand => heq hand.1
          have hdots : e₁.dot = e.dot :=
            (hfar (.inl fun hat₁ => heq (hat₁.symm.trans hsame))).trans hsame
          have hbehind := (getregion_dot hl hdot hmark hregion).resolve_left heq
          have hpassed := hat.passed
          change l.length = e.passed region.r_pos at hpassed
          have hnext := within_next hshows hc (hnl hc) hconv.dot (by
            rw [hdots, hkept₁.passed, hkept.passed, ← hbehind, hsize, List.length_append,
              List.length_map]
            omega)
          rw [hnext]
          rintro (hsame | hsame)
          · have := congrArg POS.o hsame
            dsimp only at this
            omega
          · exact hsame rfl
    · refine iff_of_false ?_ ?_
      · rw [convertLoop_lost hbegun (List.cons_ne_nil c u) (fun h => hroom ((hrooms _).mp h)) 0]
        rintro ⟨e', heq, -⟩
        cases heq
      · rw [Ed.Convertible, hsize, Nat.add_sub_cancel]
        rintro (h | h)
        · exact hroom h.of_succ
        · exact hroom h.1

end Commands

/-- **`lowerregion` and `upperregion`** convert the characters of the region and no other ones,
keep the lengths of the lines and the windows on lines of the buffer, and are taken back by one
`undo`, exactly if there is room for the region, or for all of it but the last character while
the cursor is not left behind. -/
theorem lowerregion_upperregion_iff (w : Wcase) (junk : Nat) (e : Ed) (region : REGION)
    (hs : Sound e) (hl : Linked e) (hdot : Within e e.dot) (hmark : Within e e.curwp.w_mark)
    (ha : e.Alive) (hro : e.bfro = false)
    (hregion : getregion e ⟨⟨null, 0⟩, 0⟩ = (region, none)) :
    ((∃ e', lowerregion w junk e.startsaveundo = some (e', true) ∧
          Converts (.lower w) e region e') ↔ e.Convertible (.lower w) region) ∧
      ((∃ e', upperregion w junk e.startsaveundo = some (e', true) ∧
          Converts (.upper w) e region e') ↔ e.Convertible (.upper w) region) :=
  ⟨convertRegion_iff hs hl hdot hmark ha hro hregion,
    convertRegion_iff hs hl hdot hmark ha hro hregion⟩

theorem turnedUpper_range (c : Nat) (hc : c ≤ 0x7fffffff) :
    (if c = 0x250 then 0x2C6F else if c = 0x2C65 then 0x23A else c) ≤ 0x7fffffff := by
  split_ifs <;> omega

theorem turnedUpper_letter (c : Nat) (hc : 0x80 ≤ c) :
    (if c = 0x250 then 0x2C6F else if c = 0x2C65 then 0x23A else c) ≠ 10 := by
  split_ifs <;> omega

theorem turnedLower_range (c : Nat) (hc : c ≤ 0x7fffffff) :
    (if c = 0x2C6F then 0x250 else if c = 0x23A then 0x2C65 else c) ≤ 0x7fffffff := by
  split_ifs <;> omega

theorem turnedLower_letter (c : Nat) (hc : 0x80 ≤ c) :
    (if c = 0x2C6F then 0x250 else if c = 0x23A then 0x2C65 else c) ≠ 10 := by
  split_ifs <;> omega

/-- Two letters that have a larger one: `ɐ`, whose upper case takes a byte more, and `Ⱥ`, whose
lower case does. -/
def turnedLetters : Wcase where
  iswupper c := c = 0x23A || c = 0x2C6F
  iswlower c := c = 0x250 || c = 0x2C65
  towupper c := if c = 0x250 then 0x2C6F else if c = 0x2C65 then 0x23A else c
  range := turnedUpper_range
  letter := turnedUpper_letter
  towlower c := if c = 0x2C6F then 0x250 else if c = 0x23A then 0x2C65 else c
  lower_range := turnedLower_range
  lower_letter := turnedLower_letter

/-- A line with a letter and `B` behind it, both of them in the region. -/
def turnedLine (c : UChar) : Ed := Ed.holding [c ++ [0x42]] ⟨2, 0⟩ ⟨2, 2⟩

theorem sound_turnedLine {c : UChar} (hc : IsUChar c) (hnl : c ≠ nl) : Sound (turnedLine c) := by
  refine Ed.sound_holding fun t ht => ⟨[c, [0x42]], ⟨fun d hd => ?_, ?_⟩, ?_⟩
  · rcases List.mem_cons.mp hd with rfl | hd
    · exact hc
    · rw [List.mem_singleton.mp hd]
      decide
  · simp only [List.mem_cons, List.not_mem_nil, or_false, not_or]
    exact ⟨hnl.symm, by decide⟩
  · rw [List.mem_singleton.mp ht]
    simp

/-- The letter `Ɐ` and the letter `B` become `ɐ`, which takes a byte less, and `b`. -/
theorem lowerregion_upperregion_turnedLine :
    (∃ e', lowerregion turnedLetters 0 (turnedLine [0xE2, 0xB1, 0xAF]).startsaveundo =
        some (e', true) ∧
      Converts (.lower turnedLetters) (turnedLine [0xE2, 0xB1, 0xAF]) ⟨⟨2, 0⟩, 2⟩ e') ∧
      (turnedLine [0xE2, 0xB1, 0xAF]).converted (.lower turnedLetters) ⟨⟨2, 0⟩, 2⟩ =
        [[0xC9, 0x90], [0x62], nl] := by
  refine ⟨(lowerregion_upperregion_iff turnedLetters 0 (turnedLine [0xE2, 0xB1, 0xAF]) ⟨⟨2, 0⟩, 2⟩
    (sound_turnedLine (by decide) (by decide)) (Ed.linked_holding (by decide))
    ⟨.inl (by decide), by decide⟩ ⟨.inl (by decide), by decide⟩ ?_ rfl rfl).1.mpr
      (by decide), by decide⟩
  intro w hw
  obtain rfl := List.mem_singleton.mp hw
  exact ⟨by decide, by decide, fun i _ => by change 2 ∈ [1, 2]; decide⟩

/-- The letter `Ⱥ` becomes `ⱥ`, which takes a byte more, and the line is lost before `B` is
read. -/
theorem lowerregion_loses_line :
    Sound (turnedLine [0xC8, 0xBA]) ∧
      getregion (turnedLine [0xC8, 0xBA]) ⟨⟨null, 0⟩, 0⟩ = (⟨⟨2, 0⟩, 2⟩, none) ∧
      ¬ ∃ e', lowerregion turnedLetters 0 (turnedLine [0xC8, 0xBA]).startsaveundo =
          some (e', true) ∧
        Converts (.lower turnedLetters) (turnedLine [0xC8, 0xBA]) ⟨⟨2, 0⟩, 2⟩ e' := by
  refine ⟨sound_turnedLine (by decide) (by decide), rfl, ?_⟩
  rintro ⟨e', heq, -⟩
  have hnone : (lowerregion turnedLetters 0
      (turnedLine [0xC8, 0xBA]).startsaveundo).isNone = true := by decide
  rw [heq] at hnone
  cases hnone

end Emacs
