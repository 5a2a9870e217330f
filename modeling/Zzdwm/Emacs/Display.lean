import Mathlib
import Zzdwm.Lib.Scroll

/-!
# Hard redisplay (`display.c`)

A hard update compares the rows of the virtual screen with those that the terminal
shows, and moves rows of the terminal with insert and delete line where that is
cheaper than to write them.

* `setscores` — the cost matrix, with the way back from each entry;
* `traceback` — the operations on the way back;
* `hardupdate` — what `update` does after a hard change;
* `hardupdate_shows` — the terminal shows the virtual screen then.

Only the way back matters for that, so the costs may be any numbers.
-/

namespace Emacs

/-- A row of a screen, as far as it is compared: its hash code, its color, the cost
of its display, and what is in it. -/
structure VIDEO (Text : Type) where
  v_hash : Int
  v_color : Int
  v_cost : Int
  v_text : Text

/-- The optimal way to an entry of the matrix, and its cost. -/
structure SCORE where
  s_itrace : Nat
  s_jtrace : Nat
  s_cost : Int

/-- The way back goes one row up, one column to the left, or both. -/
def SCORE.Back (i j : Nat) (sp : SCORE) : Prop :=
  sp.s_itrace = i ∧ sp.s_jtrace + 1 = j ∨ sp.s_itrace + 1 = i ∧ sp.s_jtrace = j ∨
    sp.s_itrace + 1 = i ∧ sp.s_jtrace + 1 = j

/-- The second way, if it is cheaper. -/
def SCORE.cheaper (sp sp' : SCORE) : SCORE := if sp'.s_cost < sp.s_cost then sp' else sp

theorem SCORE.Back.cheaper {i j : Nat} {sp sp' : SCORE} (h : sp.Back i j) (h' : sp'.Back i j) :
    (sp.cheaper sp').Back i j := by
  unfold SCORE.cheaper
  split
  · exact h'
  · exact h

/-- The matrix, with a way back from every entry but the first. -/
structure Scores where
  score : Nat → Nat → SCORE
  back : ∀ i j, 0 < i + j → (score i j).Back i j

/-- What the terminal charges for lines that are inserted and deleted. -/
structure Costs where
  tcinsl : Nat → Int
  tcdell : Nat → Int

variable {Text : Type}

/-- Rows that are taken for the same. -/
def VIDEO.same (vp pp : VIDEO Text) : Bool := vp.v_color = pp.v_color && vp.v_hash = pp.v_hash

/-! ## The matrix -/

section Setscores

variable (c : Costs) (vbase pbase : Nat → VIDEO Text) (size : Nat)

/-- The cost of the display of the first `j` rows. -/
def tempcost : Nat → Int
  | 0 => 0
  | j + 1 => tempcost j + (vbase (j + 1)).v_cost

/-- Row 0, inserts. -/
def scoreTop : Nat → SCORE
  | 0 => ⟨0, 0, 0⟩
  | j + 1 => ⟨0, j, tempcost vbase (j + 1) + c.tcinsl (j + 1)⟩

/-- The entry at `[i, j]`, from those above, to the left, and at `[i-1, j-1]`. -/
def scoreBest (i j : Nat) (up left diag : SCORE) : SCORE :=
  let dell : SCORE := ⟨i - 1, j, if j ≠ size then up.s_cost + c.tcdell 1 else up.s_cost⟩
  let insl : SCORE :=
    ⟨i, j - 1, if i ≠ size then left.s_cost + (vbase j).v_cost + c.tcinsl 1
      else left.s_cost + (vbase j).v_cost⟩
  let draw : SCORE :=
    ⟨i - 1, j - 1, if (vbase j).same (pbase i) then diag.s_cost else diag.s_cost + (vbase j).v_cost⟩
  (dell.cheaper insl).cheaper draw

/-- Row `i`, after the row above. -/
def scoreRow (i : Nat) (above : Nat → SCORE) : Nat → SCORE
  | 0 => ⟨i - 1, 0, c.tcdell i⟩
  | j + 1 =>
      scoreBest c vbase pbase size i (j + 1) (above (j + 1)) (scoreRow i above j) (above j)

/-- The rows of the matrix. -/
def scoreRows : Nat → Nat → SCORE
  | 0 => scoreTop c vbase
  | i + 1 => scoreRow c vbase pbase size (i + 1) (scoreRows i)

theorem scoreBest_back (i j : Nat) (up left diag : SCORE) :
    (scoreBest c vbase pbase size (i + 1) (j + 1) up left diag).Back (i + 1) (j + 1) :=
  SCORE.Back.cheaper (.cheaper (.inr (.inl ⟨rfl, rfl⟩)) (.inl ⟨rfl, rfl⟩)) (.inr (.inr ⟨rfl, rfl⟩))

theorem scoreRows_back (i j : Nat) (h : 0 < i + j) :
    (scoreRows c vbase pbase size i j).Back i j := by
  cases i with
  | zero =>
      cases j with
      | zero => exact absurd h (Nat.lt_irrefl 0)
      | succ j => exact .inl ⟨rfl, rfl⟩
  | succ i =>
      cases j with
      | zero => exact .inr (.inl ⟨rfl, rfl⟩)
      | succ j => exact scoreBest_back c vbase pbase size i j _ _ _

end Setscores

/-- `setscores`; `vbase` and `pbase` are one row above the chunk. -/
def setscores (c : Costs) (vscreen pscreen : Nat → VIDEO Text) (offs size : Nat) : Scores where
  score := scoreRows c (fun j => vscreen (offs + j - 1)) (fun i => pscreen (offs + i - 1)) size
  back := scoreRows_back c _ _ size

/-! ## The way back -/

/-- What is sent to the terminal: `uline` turns a row that shows an old row into a
new one. -/
inductive Display (Text : Type)
  | ttinsl (row bot n : Nat)
  | ttdell (row bot n : Nat)
  | uline (row : Nat) (vp pp : VIDEO Text)

namespace Scores

variable (s : Scores)

/-- The loop that collects inserts: where it stops, and how many they are. -/
def collectInserts (itrace jtrace : Nat) : Nat × Nat :=
  if _h : (itrace ≠ 0 ∨ jtrace ≠ 0) ∧ (s.score itrace jtrace).s_itrace = itrace then
    let (jtrace, ninsl) := collectInserts itrace (s.score itrace jtrace).s_jtrace
    (jtrace, ninsl + 1)
  else (jtrace, 0)
termination_by jtrace
decreasing_by
  have hback := s.back itrace jtrace (by omega)
  unfold SCORE.Back at hback
  omega

/-- The loop that collects deletes. -/
def collectDeletes (itrace jtrace : Nat) : Nat × Nat :=
  if _h : (itrace ≠ 0 ∨ jtrace ≠ 0) ∧ (s.score itrace jtrace).s_jtrace = jtrace then
    let (itrace, ndell) := collectDeletes (s.score itrace jtrace).s_itrace jtrace
    (itrace, ndell + 1)
  else (itrace, 0)
termination_by itrace
decreasing_by
  have hback := s.back itrace jtrace (by omega)
  unfold SCORE.Back at hback
  omega

/-- Each insert is one column to the left. -/
theorem collectInserts_sum (itrace jtrace : Nat) :
    (s.collectInserts itrace jtrace).1 + (s.collectInserts itrace jtrace).2 = jtrace := by
  induction jtrace using Nat.strong_induction_on with
  | h jtrace ih =>
      rw [collectInserts]
      split
      · next h =>
        have hback := s.back itrace jtrace (by omega)
        unfold SCORE.Back at hback
        have hsum := ih (s.score itrace jtrace).s_jtrace (by omega)
        dsimp only
        omega
      · exact Nat.add_zero jtrace

/-- Each delete is one row up. -/
theorem collectDeletes_sum (itrace jtrace : Nat) :
    (s.collectDeletes itrace jtrace).1 + (s.collectDeletes itrace jtrace).2 = itrace := by
  induction itrace using Nat.strong_induction_on with
  | h itrace ih =>
      rw [collectDeletes]
      split
      · next h =>
        have hback := s.back itrace jtrace (by omega)
        unfold SCORE.Back at hback
        have hsum := ih (s.score itrace jtrace).s_itrace (by omega)
        dsimp only
        omega
      · exact Nat.add_zero itrace

end Scores

section Traceback

variable (vscreen pscreen : Nat → VIDEO Text) (blanks : VIDEO Text)

/-- The loop that writes `ndraw` rows from row `k` on, where the terminal is blank. -/
def drawBlank (k : Nat) : Nat → List (Display Text)
  | 0 => []
  | ndraw + 1 => .uline k (vscreen k) blanks :: drawBlank (k + 1) ndraw

/-- `traceback`. -/
def traceback (s : Scores) (offs size i j : Nat) : List (Display Text) :=
  if h : i = 0 ∧ j = 0 then []
  else if hi : (s.score i j).s_itrace = i then
    let run := s.collectInserts i (s.score i j).s_jtrace
    let ndraw := run.2 + 1
    let ninsl := if i ≠ size then ndraw else 0
    traceback s offs size i run.1 ++
      (if ninsl ≠ 0 then [.ttinsl (offs + j - ninsl) (offs + size - 1) ninsl] else []) ++
        drawBlank vscreen blanks (offs + j - ndraw) ndraw
  else if hj : (s.score i j).s_jtrace = j then
    let run := s.collectDeletes (s.score i j).s_itrace j
    let ndell := if j ≠ size then run.2 + 1 else 0
    (if ndell ≠ 0 then [.ttdell (offs + i - ndell) (offs + size - 1) ndell] else []) ++
      traceback s offs size run.1 j
  else
    traceback s offs size (s.score i j).s_itrace (s.score i j).s_jtrace ++
      [.uline (offs + j - 1) (vscreen (offs + j - 1)) (pscreen (offs + i - 1))]
termination_by i + j
decreasing_by
  all_goals
    have hback := s.back i j (by omega)
    unfold SCORE.Back at hback
  · have hsum := s.collectInserts_sum i (s.score i j).s_jtrace
    omega
  · have hsum := s.collectDeletes_sum (s.score i j).s_itrace j
    omega
  · omega

end Traceback

/-! ## The update -/

section Hardupdate

variable (vscreen : Nat → VIDEO Text)

/-- `ucopy`: the new row takes the place of the old one. -/
def ucopy (k : Nat) (pscreen : Nat → VIDEO Text) : Nat → VIDEO Text :=
  Function.update pscreen k (vscreen k)

/-- The loop that gets the top match, with `left` rows to go: the first row that is
different, and the old rows. -/
def topMatch : Nat → Nat → (Nat → VIDEO Text) → List (Display Text) × Nat × (Nat → VIDEO Text)
  | 0, offs, pscreen => ([], offs, pscreen)
  | left + 1, offs, pscreen =>
      if (vscreen offs).same (pscreen offs) then
        let (ops, offs', pscreen') := topMatch left (offs + 1) (ucopy vscreen offs pscreen)
        (.uline offs (vscreen offs) (pscreen offs) :: ops, offs', pscreen')
      else ([], offs, pscreen)

/-- The loop that gets the bottom match: how many rows there are up to the last row
that is different, and the old rows. -/
def bottomMatch (offs : Nat) : Nat → (Nat → VIDEO Text) →
    List (Display Text) × Nat × (Nat → VIDEO Text)
  | 0, pscreen => ([], 0, pscreen)
  | size + 1, pscreen =>
      if (vscreen (offs + size)).same (pscreen (offs + size)) then
        let (ops, size', pscreen') := bottomMatch offs size (ucopy vscreen (offs + size) pscreen)
        (.uline (offs + size) (vscreen (offs + size)) (pscreen (offs + size)) :: ops, size', pscreen')
      else ([], size + 1, pscreen)

/-- The loop that copies the chunk. -/
def copyChunk (offs : Nat) : Nat → (Nat → VIDEO Text) → Nat → VIDEO Text
  | 0, pscreen => pscreen
  | size + 1, pscreen => copyChunk (offs + 1) size (ucopy vscreen offs pscreen)

/-- The hard update of the `n` rows above the echo line; `none` is `abort ()`. -/
def hardupdate (c : Costs) (blanks : VIDEO Text) (n : Nat) (pscreen : Nat → VIDEO Text) :
    Option (List (Display Text) × (Nat → VIDEO Text)) :=
  let (top, offs, pscreen) := topMatch vscreen n 0 pscreen
  if offs = n then some (top, pscreen)
  else
    let (bottom, size, pscreen) := bottomMatch vscreen offs (n - offs) pscreen
    if size = 0 then none
    else
      let s := setscores c vscreen pscreen offs size
      some (top ++ bottom ++ traceback vscreen pscreen blanks s offs size size size,
        copyChunk vscreen offs size pscreen)

end Hardupdate

/-! ## What the terminal shows -/

section Shows

open Scroll

variable (draw : VIDEO Text → VIDEO Text → Text → Text) (blanks : VIDEO Text)

/-- What an operation does to the rows of the terminal.  `draw` is what becomes of a
row under `uline`, and may depend on what the row shows. -/
def Display.run (op : Display Text) (rows : List Text) : List Text :=
  match op with
  | .ttinsl row bot n => insl blanks.v_text row bot n rows
  | .ttdell row bot n => dell blanks.v_text row bot n rows
  | .uline row vp pp => rows.modify row (draw vp pp)

/-- What the operations do. -/
def display (ops : List (Display Text)) (rows : List Text) : List Text :=
  ops.foldl (fun rows op => op.run draw blanks rows) rows

/-- `n` rows of a screen from row `k` on. -/
def texts (screen : Nat → VIDEO Text) (k : Nat) : Nat → List Text
  | 0 => []
  | n + 1 => (screen k).v_text :: texts screen (k + 1) n

variable {screen vscreen pscreen : Nat → VIDEO Text} {above rest below : List Text}

@[simp] theorem texts_length (k n : Nat) : (texts screen k n).length = n := by
  induction n generalizing k with
  | zero => rfl
  | succ n ih => simp [texts, ih]

theorem texts_add (k m n : Nat) :
    texts screen k (m + n) = texts screen k m ++ texts screen (k + m) n := by
  induction m generalizing k with
  | zero => simp [texts]
  | succ m ih =>
      rw [Nat.add_right_comm, texts, ih, texts, Nat.add_right_comm k 1 m]
      rfl

theorem texts_last (screen : Nat → VIDEO Text) {k n : Nat} (hn : 0 < n) :
    texts screen k n = texts screen k (n - 1) ++ [(screen (k + n - 1)).v_text] := by
  obtain ⟨n, rfl⟩ := Nat.exists_eq_add_of_lt hn
  rw [Nat.zero_add]
  exact texts_add k n 1

theorem display_append (ops ops' : List (Display Text)) (rows : List Text) :
    display draw blanks (ops ++ ops') rows =
      display draw blanks ops' (display draw blanks ops rows) := List.foldl_append ..

theorem display_nil (rows : List Text) : display draw blanks [] rows = rows := rfl

theorem display_cons (op : Display Text) (ops : List (Display Text)) (rows : List Text) :
    display draw blanks (op :: ops) rows = display draw blanks ops (op.run draw blanks rows) := rfl

variable (hdraw : ∀ vp pp, draw vp pp pp.v_text = vp.v_text)

include hdraw

/-- `uline` on a row that shows what it should. -/
theorem display_uline {k : Nat} (hk : above.length = k) (vp pp : VIDEO Text) :
    display draw blanks [.uline k vp pp] (above ++ pp.v_text :: below) =
      above ++ vp.v_text :: below := by
  rw [display_cons, display_nil, Display.run, modify_append hk, hdraw]

/-- Blank rows are written. -/
theorem display_drawBlank {k n : Nat} (hk : above.length = k) :
    display draw blanks (drawBlank vscreen blanks k n)
        (above ++ (List.replicate n blanks.v_text ++ below)) =
      above ++ (texts vscreen k n ++ below) := by
  induction n generalizing k above with
  | zero => rfl
  | succ n ih =>
      have hnext : (above ++ [(vscreen k).v_text]).length = k + 1 := by
        rw [List.length_append, hk]
        rfl
      rw [drawBlank, display_cons, List.replicate_succ, List.cons_append, Display.run,
        modify_append hk, hdraw, texts]
      have hrest := ih hnext
      rw [List.append_assoc, List.append_assoc] at hrest
      exact hrest

omit hdraw in
/-- More blank rows at the end are not seen. -/
theorem take_blank {m n size : Nat} (b : Text) (hm : m ≤ size) :
    (rest ++ List.replicate n b ++ List.replicate size b).take m =
      (rest ++ List.replicate size b).take m := by
  rw [List.append_assoc, ← List.replicate_add, List.take_append, List.take_append,
    List.take_replicate, List.take_replicate]
  congr 2
  omega

/-- **The way back is right.**  Where the terminal shows the first `i` old rows of the
chunk and then the rows `rest`, the operations from entry `[i, j]` on leave the first
`j` new rows, and then what is not pushed out of the chunk, with blank rows after it. -/
theorem display_traceback (s : Scores) {offs size i j : Nat} (habove : above.length = offs)
    (hi : i ≤ size) (hj : j ≤ size) (hrest : i + rest.length = size) :
    display draw blanks (traceback vscreen pscreen blanks s offs size i j)
        (above ++ (texts pscreen offs i ++ (rest ++ below))) =
      above ++ (texts vscreen offs j ++
        ((rest ++ List.replicate size blanks.v_text).take (size - j) ++ below)) := by
  induction hm : i + j using Nat.strong_induction_on generalizing i j rest with
  | h m ih =>
    rw [traceback]
    split
    · -- the end of the way
      next hzero =>
      obtain ⟨rfl, rfl⟩ := hzero
      have htake : (rest ++ List.replicate size blanks.v_text).take (size - 0) = rest := by
        rw [List.take_append, List.take_of_length_le (by omega),
          show size - 0 - rest.length = 0 by omega, List.take_zero, List.append_nil]
      rw [htake, display_nil]
      rfl
    next hpos =>
    have hback := s.back i j (by omega)
    unfold SCORE.Back at hback
    split
    · -- inserts
      next hitrace =>
      have hsum := s.collectInserts_sum i (s.score i j).s_jtrace
      dsimp only
      set run := s.collectInserts i (s.score i j).s_jtrace with hrun
      have hj' : run.1 + (run.2 + 1) = j := by omega
      have hrow : offs + j - (run.2 + 1) = offs + run.1 := by omega
      have htop : (above ++ texts vscreen offs run.1).length = offs + run.1 := by
        rw [List.length_append, texts_length, habove]
      -- after the inserts, the rows to be written are blank
      have hblank : display draw blanks
            (if (if i ≠ size then run.2 + 1 else 0) ≠ 0 then
              [.ttinsl (offs + j - if i ≠ size then run.2 + 1 else 0) (offs + size - 1)
                (if i ≠ size then run.2 + 1 else 0)] else [])
            (above ++ (texts vscreen offs run.1 ++
              ((rest ++ List.replicate size blanks.v_text).take (size - run.1) ++ below))) =
          (above ++ texts vscreen offs run.1) ++ (List.replicate (run.2 + 1) blanks.v_text ++
            ((rest ++ List.replicate size blanks.v_text).take (size - j) ++ below)) := by
        by_cases hsize : i = size
        · have hnil : rest = [] := List.eq_nil_of_length_eq_zero (by omega)
          rw [if_neg (not_not.mpr hsize), if_neg (not_not.mpr rfl), hnil, display_nil, List.nil_append,
            List.take_replicate, List.take_replicate, min_eq_left (by omega), min_eq_left (by omega),
            show size - run.1 = run.2 + 1 + (size - j) by omega, List.replicate_add]
          simp only [List.append_assoc]
        · have hlen : ((rest ++ List.replicate size blanks.v_text).take (size - run.1)).length =
              size - run.1 := by
            rw [List.length_take, List.length_append, List.length_replicate]
            omega
          rw [if_pos hsize, if_pos (Nat.succ_ne_zero _), display_cons, display_nil, Display.run, hrow,
            ← List.append_assoc above, insl_append htop (by omega) (by omega), hlen, List.take_take,
            show min (size - run.1 - (run.2 + 1)) (size - run.1) = size - j by omega]
          simp only [List.append_assoc]
      rw [display_append, display_append, ih (i + run.1) (by omega) hi (by omega) hrest rfl, hblank,
        hrow, display_drawBlank draw blanks hdraw htop, ← hj', texts_add offs run.1 (run.2 + 1)]
      simp only [List.append_assoc]
    split
    · -- deletes
      next hjtrace =>
      have hsum := s.collectDeletes_sum (s.score i j).s_itrace j
      dsimp only
      set run := s.collectDeletes (s.score i j).s_itrace j with hrun
      have hi' : run.1 + (run.2 + 1) = i := by omega
      have hrows : texts pscreen offs i =
          texts pscreen offs run.1 ++ texts pscreen (offs + run.1) (run.2 + 1) := by
        rw [← texts_add, hi']
      by_cases hsize : j = size
      · -- at the bottom, what is deleted is pushed out later
        have hlen : run.1 + (texts pscreen (offs + run.1) (run.2 + 1) ++ rest).length = size := by
          rw [List.length_append, texts_length]
          omega
        have hrec := ih (run.1 + j) (by omega) (by omega) hj hlen rfl
        rw [if_neg (not_not.mpr hsize), if_neg (not_not.mpr rfl), List.nil_append, hrows,
          List.append_assoc, ← List.append_assoc _ rest, hrec, hsize, Nat.sub_self, List.take_zero,
          List.take_zero]
      · have hlen : run.1 + (rest ++ List.replicate (run.2 + 1) blanks.v_text).length = size := by
          rw [List.length_append, List.length_replicate]
          omega
        have htop : (above ++ texts pscreen offs run.1).length = offs + run.1 := by
          rw [List.length_append, texts_length, habove]
        have hrec := ih (run.1 + j) (by omega) (by omega) hj hlen rfl
        rw [if_pos hsize, if_pos (Nat.succ_ne_zero _), display_append, display_cons, display_nil,
          Display.run, hrows, show offs + i - (run.2 + 1) = offs + run.1 by omega, List.append_assoc,
          ← List.append_assoc above, dell_append htop (texts_length ..)
            (by rw [texts_length]; omega)]
        rw [List.append_assoc, hrec, take_blank _ (Nat.sub_le ..)]
    · -- a row that is kept
      next hitrace hjtrace =>
      obtain ⟨hi', hj'⟩ : (s.score i j).s_itrace = i - 1 ∧ (s.score i j).s_jtrace = j - 1 := by omega
      have htop : (above ++ texts vscreen offs (j - 1)).length = offs + j - 1 := by
        rw [List.length_append, texts_length, habove]
        omega
      have hlen : i - 1 + ((pscreen (offs + i - 1)).v_text :: rest).length = size := by
        rw [List.length_cons]
        omega
      have hrec := ih (i - 1 + (j - 1)) (by omega) (by omega) (by omega) hlen rfl
      rw [hi', hj', display_append, texts_last pscreen (by omega), List.append_assoc,
        List.singleton_append, ← List.cons_append, hrec,
        show size - (j - 1) = size - j + 1 by omega, List.cons_append, List.take_succ_cons,
        List.cons_append, ← List.append_assoc above, display_uline draw blanks hdraw htop,
        texts_last vscreen (n := j) (by omega)]
      simp only [List.append_assoc, List.singleton_append]

omit hdraw in
theorem texts_congr {screen' : Nat → VIDEO Text} {k n : Nat}
    (h : ∀ i, k ≤ i → i < k + n → screen i = screen' i) : texts screen k n = texts screen' k n := by
  induction n generalizing k with
  | zero => rfl
  | succ n ih =>
      rw [texts, texts, h k le_rfl (by omega), ih fun i hi hn => h i (by omega) (by omega)]

omit hdraw in
theorem texts_split (screen : Nat → VIDEO Text) {k m : Nat} (n : Nat) (hk : k + m ≤ n) :
    texts screen 0 n = texts screen 0 k ++ (texts screen k m ++ texts screen (k + m) (n - k - m)) := by
  have hsum : n = k + (m + (n - k - m)) := by omega
  conv_lhs => rw [hsum, texts_add, texts_add, Nat.zero_add]

/-- A terminal that shows the old rows still does after a row has been written and
copied. -/
theorem display_ucopy {k n : Nat} (hk : k < n) (rest : List Text) :
    display draw blanks [.uline k (vscreen k) (pscreen k)] (texts pscreen 0 n ++ rest) =
      texts (ucopy vscreen k pscreen) 0 n ++ rest := by
  have hcopy : ucopy vscreen k pscreen k = vscreen k := Function.update_self ..
  have hother (i : Nat) (hi : i ≠ k) : ucopy vscreen k pscreen i = pscreen i :=
    Function.update_of_ne hi ..
  have habove : texts (ucopy vscreen k pscreen) 0 k = texts pscreen 0 k :=
    texts_congr fun i _ hi => hother i (by omega)
  have hbelow : texts (ucopy vscreen k pscreen) (k + 1) (n - k - 1) =
      texts pscreen (k + 1) (n - k - 1) := texts_congr fun i hi _ => hother i (by omega)
  have hlen : (texts pscreen 0 k).length = k := texts_length 0 k
  rw [texts_split pscreen n (show k + 1 ≤ n by omega),
    texts_split (ucopy vscreen k pscreen) n (show k + 1 ≤ n by omega), habove, hbelow]
  simp only [texts, List.append_assoc, List.cons_append, List.nil_append, hcopy]
  exact display_uline draw blanks hdraw hlen (vscreen k) (pscreen k)

/-- What the loops leave: the terminal shows the old rows, and the rows outside of the
chunk are the new ones. -/
structure Matched (vscreen : Nat → VIDEO Text) (n lo hi : Nat) (pscreen : Nat → VIDEO Text) :
    Prop where
  above : ∀ k < lo, pscreen k = vscreen k
  below : ∀ k, hi ≤ k → k < n → pscreen k = vscreen k

theorem topMatch_shows {n left offs : Nat} (hleft : offs + left = n) (rest : List Text)
    (pscreen : Nat → VIDEO Text) (hmatch : Matched vscreen n offs n pscreen) :
    ∃ ops offs' pscreen', topMatch vscreen left offs pscreen = (ops, offs', pscreen') ∧ offs' ≤ n ∧
      Matched vscreen n offs' n pscreen' ∧
      (offs' < n → (vscreen offs').same (pscreen' offs') = false) ∧
      display draw blanks ops (texts pscreen 0 n ++ rest) = texts pscreen' 0 n ++ rest := by
  induction left generalizing offs pscreen with
  | zero => exact ⟨[], offs, pscreen, rfl, by omega, hmatch, by omega, rfl⟩
  | succ left ih =>
      rw [topMatch]
      split
      · next hsame =>
        have hnext : Matched vscreen n (offs + 1) n (ucopy vscreen offs pscreen) := by
          refine ⟨fun k hk => ?_, fun k hk hn => by omega⟩
          by_cases hko : k = offs
          · rw [hko]
            exact Function.update_self ..
          · exact (Function.update_of_ne hko ..).trans (hmatch.above k (by omega))
        obtain ⟨ops, offs', pscreen', heq, hle, hm, hdiff, hshow⟩ := ih (by omega) _ hnext
        refine ⟨_, offs', pscreen', by rw [heq], hle, hm, hdiff, ?_⟩
        rw [← List.singleton_append, display_append, display_ucopy draw blanks hdraw (by omega), hshow]
      · next hsame => exact ⟨[], offs, pscreen, rfl, by omega, hmatch, fun _ => by simpa using hsame, rfl⟩

theorem bottomMatch_shows {n offs size : Nat} (hsize : offs + size ≤ n) (hpos : 0 < size)
    (rest : List Text) (pscreen : Nat → VIDEO Text) (hmatch : Matched vscreen n offs (offs + size) pscreen)
    (hdiff : (vscreen offs).same (pscreen offs) = false) :
    ∃ ops size' pscreen', bottomMatch vscreen offs size pscreen = (ops, size', pscreen') ∧
      0 < size' ∧ offs + size' ≤ n ∧ Matched vscreen n offs (offs + size') pscreen' ∧
      display draw blanks ops (texts pscreen 0 n ++ rest) = texts pscreen' 0 n ++ rest := by
  induction size generalizing pscreen with
  | zero => exact absurd hpos (Nat.lt_irrefl 0)
  | succ size ih =>
      rw [bottomMatch]
      split
      · next hsame =>
        have hzero : size ≠ 0 := fun h => by
          rw [h, Nat.add_zero, hdiff] at hsame
          exact absurd hsame Bool.false_ne_true
        have hother (k : Nat) (hk : k ≠ offs + size) :
            ucopy vscreen (offs + size) pscreen k = pscreen k := Function.update_of_ne hk ..
        have hnext : Matched vscreen n offs (offs + size) (ucopy vscreen (offs + size) pscreen) := by
          refine ⟨fun k hk => (hother k (by omega)).trans (hmatch.above k hk), fun k hk hn => ?_⟩
          by_cases hks : k = offs + size
          · rw [hks]
            exact Function.update_self ..
          · exact (hother k hks).trans (hmatch.below k (by omega) hn)
        have hdiff' : (vscreen offs).same (ucopy vscreen (offs + size) pscreen offs) = false := by
          rw [hother offs (by omega)]
          exact hdiff
        obtain ⟨ops, size', pscreen', heq, hpos', hle, hm, hshow⟩ :=
          ih (by omega) (by omega) _ hnext hdiff'
        refine ⟨_, size', pscreen', by rw [heq], hpos', hle, hm, ?_⟩
        rw [← List.singleton_append, display_append, display_ucopy draw blanks hdraw (by omega), hshow]
      · exact ⟨[], size + 1, pscreen, rfl, Nat.succ_pos size, hsize, hmatch, rfl⟩

omit hdraw in
theorem copyChunk_eq (vscreen : Nat → VIDEO Text) (offs size : Nat) (pscreen : Nat → VIDEO Text)
    (k : Nat) : copyChunk vscreen offs size pscreen k =
      if offs ≤ k ∧ k < offs + size then vscreen k else pscreen k := by
  induction size generalizing offs pscreen with
  | zero => rw [copyChunk, if_neg (by omega)]
  | succ size ih =>
      rw [copyChunk, ih]
      by_cases hk : k = offs
      · rw [if_neg (by omega), if_pos (by omega), hk]
        exact Function.update_self ..
      · have hother : ucopy vscreen offs pscreen k = pscreen k := Function.update_of_ne hk ..
        rw [hother]
        refine if_congr ?_ rfl rfl
        omega

/-- The matrix and the way back turn the old rows of a chunk into the new ones. -/
theorem display_scores (c : Costs) {offs : Nat} (size : Nat) (habove : above.length = offs) :
    display draw blanks (traceback vscreen pscreen blanks (setscores c vscreen pscreen offs size)
        offs size size size) (above ++ (texts pscreen offs size ++ below)) =
      above ++ (texts vscreen offs size ++ below) := by
  have hnone : size + ([] : List Text).length = size := Nat.add_zero size
  have hback := @display_traceback _ draw blanks vscreen pscreen above [] below hdraw
    (setscores c vscreen pscreen offs size) offs size size size habove le_rfl le_rfl hnone
  rwa [Nat.sub_self, List.take_zero, List.nil_append] at hback

/-- **A hard update shows the virtual screen.**  On a terminal that shows the old rows,
the operations from the matrix leave the new ones, for all `n` rows at once and in the
update, which leaves out rows at the top and at the bottom.  Whatever is below the
last row stays, and the update takes the new rows for the old ones from then on. -/
theorem hardupdate_shows (c : Costs) (n : Nat) (rest : List Text) :
    display draw blanks (traceback vscreen pscreen blanks (setscores c vscreen pscreen 0 n) 0 n n n)
        (texts pscreen 0 n ++ rest) = texts vscreen 0 n ++ rest ∧
      ∃ ops pscreen', hardupdate vscreen c blanks n pscreen = some (ops, pscreen') ∧
        display draw blanks ops (texts pscreen 0 n ++ rest) = texts vscreen 0 n ++ rest ∧
        ∀ k < n, pscreen' k = vscreen k := by
  have hnone : ([] : List Text).length = 0 := rfl
  refine ⟨display_scores draw blanks hdraw c n hnone, ?_⟩
  obtain ⟨top, offs, p, htop, hle, hm, hdiff, hshow⟩ :=
    topMatch_shows draw blanks hdraw (Nat.zero_add n) rest pscreen
      (show Matched vscreen n 0 n pscreen from
        ⟨fun k hk => absurd hk (Nat.not_lt_zero k), fun k hk hn => by omega⟩)
  rw [hardupdate, htop]
  dsimp only
  split
  · next hall =>
    have hsame : texts p 0 n = texts vscreen 0 n :=
      texts_congr fun k _ hk => hm.above k (by omega)
    exact ⟨top, p, rfl, by rw [hshow, hsame], fun k hk => hm.above k (by omega)⟩
  next hsome =>
  have hmatch : Matched vscreen n offs (offs + (n - offs)) p :=
    ⟨hm.above, fun k hk hn => by omega⟩
  obtain ⟨bottom, size, q, hbottom, hpos, hsize, hmq, hshowq⟩ :=
    bottomMatch_shows draw blanks hdraw (by omega) (by omega) rest p hmatch (hdiff (by omega))
  rw [hbottom]
  dsimp only
  rw [if_neg hpos.ne']
  refine ⟨_, _, rfl, ?_, fun k hk => ?_⟩
  · have habove : texts q 0 offs = texts vscreen 0 offs :=
      texts_congr fun k _ hk => hmq.above k (by omega)
    have hbelow : texts q (offs + size) (n - offs - size) =
        texts vscreen (offs + size) (n - offs - size) :=
      texts_congr fun k hk hn => hmq.below k hk (by omega)
    rw [display_append, display_append, hshow, hshowq, texts_split q n hsize,
      texts_split vscreen n hsize]
    simp only [List.append_assoc]
    rw [display_scores draw blanks hdraw c size (texts_length 0 offs), habove, hbelow]
  · rw [copyChunk_eq]
    split
    · rfl
    · by_cases hlo : k < offs
      · exact hmq.above k hlo
      · exact hmq.below k (by omega) hk

end Shows

/-- `uline` on rows of columns: it writes the columns that are different. -/
def uline {Column : Type} {ncol : Nat} [DecidableEq Column] (vp pp : VIDEO (Fin ncol → Column))
    (shown : Fin ncol → Column) : Fin ncol → Column :=
  fun col => if vp.v_text col = pp.v_text col then shown col else vp.v_text col

theorem uline_shows {Column : Type} {ncol : Nat} [DecidableEq Column]
    (vp pp : VIDEO (Fin ncol → Column)) : uline vp pp pp.v_text = vp.v_text := by
  funext col
  unfold uline
  split
  · next heq => exact heq.symm
  · rfl

/-- A screen of rows of one letter, which is its hash code. -/
def letters (l : String) (k : Nat) : VIDEO (Fin 1 → Char) :=
  let c := l.toList.getD k ' '
  ⟨c.toNat, 0, 1, fun _ => c⟩

/-- The rows `a b c` become `b c d`. -/
theorem hardupdate_shows_scrolled : ∃ ops pscreen',
    hardupdate (letters "bcd") ⟨fun _ => 1, fun _ => 1⟩ (letters "" 0) 3 (letters "abc") =
        some (ops, pscreen') ∧
      display uline (letters "" 0) ops (texts (letters "abc") 0 3 ++ []) =
        texts (letters "bcd") 0 3 ++ [] := by
  obtain ⟨-, ops, pscreen', hops, hshow, -⟩ :=
    @hardupdate_shows _ uline (letters "" 0) (letters "bcd") (letters "abc") uline_shows
      ⟨fun _ => 1, fun _ => 1⟩ 3 []
  exact ⟨ops, pscreen', hops, hshow⟩

end Emacs
