import Zzdwm.Emacs.Records
import Zzdwm.Emacs.SearchReplace

/-!
# Back and forth (`undo.c`)

The groups of the undo list lead from the text that is shown to older ones, and those of
the redo list to the texts that have been undone.  `undo` and `redo` go from text to text.

* `Replaying` — what a replay leaves alone;
* `Leading`, `Timeline` — the texts that the two lists lead to;
* `Timeline.undo`, `Timeline.redo` — one text back, and one forth;
* `undo_redo_run` — **any run of the two commands** is a walk along the texts.
-/

namespace Emacs

open Journal (Zipper Rec Carries)

variable {e : Ed} {st : UNDOSTACK} {now : List UChar} {past future : List (List UChar)}

/-! ## Replaying -/

/-- The flag is set, and the stack is what it was. -/
structure Replaying (st : UNDOSTACK) (e : Ed) : Prop where
  undoing : e.undoing = true
  stack : e.b_undo = st

namespace Replaying

theorem saveundo (h : Replaying st e) (k : Saved) (pos : Option POS) :
    Replaying st (e.saveundo k pos) := by
  unfold Ed.saveundo
  rw [if_pos h.undoing]
  exact h

theorem goundo (h : Replaying st e) (up : UNDO) : Replaying st (Emacs.goundo up e).1 := by
  have hline : ∀ n, Replaying st (gotoline n e).1 := by
    intro n
    unfold gotoline
    split
    · exact ⟨h.undoing, h.stack⟩
    · split
      · exact ⟨h.undoing, h.stack⟩
      · exact h
  unfold Emacs.goundo
  split
  · rename_i l o _
    have hgo := hline (l + 1)
    generalize gotoline (l + 1) e = r at hgo ⊢
    obtain ⟨e', status⟩ := r
    dsimp only at hgo ⊢
    split
    · exact hgo
    · exact ⟨hgo.undoing, hgo.stack⟩
  · exact h

theorem ldeleteStep (h : Replaying st e) (n : Nat) : Replaying st (Emacs.ldeleteStep n e).1 := by
  have hchange : Replaying st e.lchange := ⟨h.undoing, h.stack⟩
  unfold Emacs.ldeleteStep
  dsimp only
  generalize (if unslen _ > n then n else unslen _) = chars
  split
  · obtain ⟨hundo, -, hstack⟩ := ldelnewline_undo e.lchange
    have hjoin : Replaying st (ldelnewline e.lchange) :=
      ⟨hundo.trans hchange.undoing, hstack.trans hchange.stack⟩
    exact hjoin.saveundo _ _
  · exact ⟨(hchange.saveundo _ none).undoing, (hchange.saveundo _ none).stack⟩

theorem ldelete (h : Replaying st e) (n : Int) : Replaying st (Emacs.ldelete n e).1 := by
  have hloop : ∀ (f n : Nat) {e : Ed}, Replaying st e → Replaying st (ldeleteLoop f n e).1 := by
    intro f
    induction f with
    | zero =>
        intro n e h
        cases n <;> exact h
    | succ f ih =>
        intro n e h
        cases n with
        | zero => exact h
        | succ n =>
            rw [ldeleteLoop]
            split
            · exact h
            · exact ih _ (h.ldeleteStep (n + 1))
  unfold Emacs.ldelete
  split
  · exact h
  · split
    · exact h
    · exact hloop _ _ h

theorem linsert (h : Replaying st e) (a : Insertion) : Replaying st (Emacs.linsert a e).1 := by
  have hchange : Replaying st e.lchange := ⟨h.undoing, h.stack⟩
  have hsaved := hchange.saveundo a.saved none
  unfold Emacs.linsert
  split
  · exact h
  · dsimp only
    generalize e.lchange.saveundo a.saved none = e' at hsaved ⊢
    split
    · exact hsaved
    · obtain ⟨hundo, -, hstack⟩ := insertLine_undo e.dot
        (uoffset (e.line e.dot.p).l_text e.dot.o) a.bytes e'
      exact ⟨hundo.trans hsaved.undoing, hstack.trans hsaved.stack⟩

theorem lnewline (h : Replaying st e) : Replaying st (Emacs.lnewline e).1 := by
  have hchange : Replaying st e.lchange := ⟨h.undoing, h.stack⟩
  have hsaved := hchange.saveundo (.UINSERT 1 1 [newline]) none
  unfold Emacs.lnewline
  split
  · exact h
  · exact ⟨hsaved.undoing, hsaved.stack⟩

theorem insertwithnl (h : Replaying st e) (s : List Byte) :
    Replaying st (Emacs.insertwithnl s e).1 := by
  unfold Emacs.insertwithnl
  generalize s.length + 1 = f
  induction f generalizing s e with
  | zero => exact h
  | succ f ih =>
      rw [insertwithnlLoop]
      split
      · exact h
      · dsimp only
        split
        · exact h.linsert _
        · have hfirst : Replaying st (if s.takeWhile (· ≠ newline) = [] then (e, true)
              else Emacs.linsert (.str (s.takeWhile (· ≠ newline))) e).1 := by
            split
            · exact h
            · exact h.linsert _
          generalize (if s.takeWhile (· ≠ newline) = [] then (e, true)
            else Emacs.linsert (.str (s.takeWhile (· ≠ newline))) e) = r at hfirst ⊢
          obtain ⟨e', status⟩ := r
          dsimp only at hfirst ⊢
          split
          · exact hfirst
          · have hline := hfirst.lnewline
            generalize Emacs.lnewline e' = r at hline ⊢
            obtain ⟨e'', status'⟩ := r
            dsimp only at hline ⊢
            split
            · exact hline
            · exact ih hline _

theorem steps (h : Replaying st e) (up : UNDO) :
    Replaying st (undostep up e).1 ∧ Replaying st (redostep up e).1 := by
  have hgo := h.goundo up
  unfold undostep redostep
  generalize Emacs.goundo up e = r at hgo ⊢
  obtain ⟨e', status⟩ := r
  dsimp only at hgo ⊢
  split
  · exact ⟨hgo, hgo⟩
  · split
    · exact ⟨hgo, hgo⟩
    · exact ⟨hgo.insertwithnl _, hgo.ldelete _⟩
    · exact ⟨hgo.ldelete _, hgo.insertwithnl _⟩

end Replaying

/-- A row of records. -/
theorem playSteps_replaying {step : UNDO → Ed → Ed × Bool}
    (hstep : ∀ up e, Replaying st e → Replaying st (step up e).1) (ups : List UNDO)
    {r : Ed × Bool} (h : Replaying st r.1) : Replaying st (playSteps step ups r).1 := by
  induction ups generalizing r with
  | nil => exact h
  | cons up ups ih => exact ih (hstep up r.1 h)

theorem undoLoop_replaying (rev later : List UNDO) {r : Ed × Bool} (h : Replaying st r.1) :
    Replaying st (undoLoop rev later r).1 := by
  induction rev generalizing later r with
  | nil => exact playSteps_replaying (fun up e he => (he.steps up).1) later h
  | cons up rev ih =>
      rw [undoLoop]
      split
      · exact ih _ (playSteps_replaying (fun up e he => (he.steps up).1) _ h)
      · exact ih _ h

/-! ## Texts -/

/-- The groups of a list lead from a text to others, each across a journal: back, if it is
the undo list, or forth. -/
inductive Leading (forth : Bool) : List UNDOGROUP → List UChar → List (List UChar) → Prop
  | nil (t : List UChar) : Leading forth [] t []
  | cons {vs : List UNDO} {us : List (Rec UChar)} {gs : List UNDOGROUP} {t t' : List UChar}
      {texts : List (List UChar)} (flag : Bool) (hread : List.Forall₂ Reads vs us)
      (hcarries : if forth then Carries isBreak us t t' else Carries isBreak us t' t)
      (h : Leading forth gs t' texts) : Leading forth (⟨vs, flag⟩ :: gs) t (t' :: texts)

/-- The text that is shown, and those before and behind it, the nearest first. -/
structure Timeline (past : List (List UChar)) (now : List UChar) (future : List (List UChar))
    (e : Ed) : Prop where
  shown : ∃ z, Writable e z ∧ z.text = now
  backs : Leading false e.b_undo.undolist now past
  forths : Leading true e.b_undo.redolist now future

theorem popundo_cons {g : UNDOGROUP} {gs : List UNDOGROUP} (h : st.undolist = g :: gs) :
    st.popundo.undolist = gs ∧ st.popundo.redolist = g :: st.redolist := by
  unfold UNDOSTACK.popundo
  split <;> simp_all

theorem popredo_cons {g : UNDOGROUP} {gs : List UNDOGROUP} (h : st.redolist = g :: gs) :
    st.popredo.redolist = gs ∧ st.popredo.undolist = g :: st.undolist := by
  unfold UNDOSTACK.popredo
  split <;> simp_all

/-- The end of the command. -/
theorem Timeline.ends {z : Zipper UChar} (h : Writable e z) (htext : z.text = now)
    (hbacks : Leading false st.undolist now past) (hforths : Leading true st.redolist now future) (chg : Bool) :
    Timeline past now future { e with bfchg := chg, b_undo := st, undoing := false } :=
  ⟨⟨z, ⟨h.shows_.congr rfl rfl rfl rfl rfl, h.bfro⟩, htext⟩, hbacks, hforths⟩

/-- **`undo`** goes one text back. -/
theorem Timeline.undo {b : List UChar} (h : Timeline (b :: past) now future e) :
    Timeline past b (now :: future) (Emacs.undo e).1 := by
  obtain ⟨⟨z, hwritable, htext⟩, hbacks, hforths⟩ := h
  generalize hlist : e.b_undo.undolist = groups at hbacks
  cases hbacks with
  | @cons vs us gs _ _ _ flag hread hcarries hbacks =>
      obtain ⟨z', hplayed, htext'⟩ := undoLoop_plays hwritable htext hread hcarries
      have hkept : Replaying e.b_undo
          (undoLoop vs.reverse [] ({ e with undoing := true }, true)).1 :=
        undoLoop_replaying _ _ ⟨rfl, rfl⟩
      obtain ⟨hundos, hredos⟩ := popundo_cons hlist
      unfold Emacs.undo
      rw [hlist]
      dsimp only
      rw [hkept.stack]
      refine .ends hplayed htext' ?_ ?_ flag
      · rwa [hundos]
      · rw [hredos]
        exact .cons flag hread hcarries hforths

/-- **`redo`** goes one text forth. -/
theorem Timeline.redo {t : List UChar} (h : Timeline past now (t :: future) e) :
    Timeline (now :: past) t future (Emacs.redo e).1 := by
  obtain ⟨⟨z, ⟨hs, hro⟩, htext⟩, hbacks, hforths⟩ := h
  generalize hlist : e.b_undo.redolist = groups at hforths
  cases hforths with
  | @cons vs us gs _ _ _ flag hread hcarries hforths =>
      have hbegin : Writable { e with undoing := true } z := ⟨hs.congr rfl rfl rfl rfl rfl, hro⟩
      obtain ⟨z', hplayed, htext'⟩ := hcarries.redoes.play redostep_plays hread
        (fun _ _ => trivial) hbegin htext
      rw [← playSteps_fst redostep vs ({ e with undoing := true }, true)] at hplayed
      have hkept : Replaying e.b_undo
          (playSteps redostep vs ({ e with undoing := true }, true)).1 :=
        playSteps_replaying (fun up e he => (he.steps up).2) _ ⟨rfl, rfl⟩
      obtain ⟨hredos, hundos⟩ := popredo_cons hlist
      unfold Emacs.redo
      rw [hlist]
      dsimp only
      rw [hkept.stack]
      refine .ends hplayed htext' ?_ ?_ true
      · rw [hundos]
        exact .cons flag hread hcarries hbacks
      · rwa [hredos]

/-! ## Runs -/

/-- The two commands; `true` is `redo`. -/
def backOrForth (forth : Bool) (e : Ed) : Ed := if forth then (redo e).1 else (undo e).1

/-- A walk along the texts, which stays where it is at an end. -/
def along : List Bool → List (List UChar) × List UChar × List (List UChar) →
    List (List UChar) × List UChar × List (List UChar)
  | [], at_ => at_
  | false :: calls, (b :: past, now, future) => along calls (past, b, now :: future)
  | true :: calls, (past, now, t :: future) => along calls (now :: past, t, future)
  | _ :: calls, at_ => along calls at_

theorem Timeline.step (h : Timeline past now future e) (forth : Bool) :
    ∃ past' now' future', Timeline past' now' future' (backOrForth forth e) ∧
      ∀ calls, along (forth :: calls) (past, now, future) =
        along calls (past', now', future') := by
  have hstays : Timeline past now future { e with undoing := false } := by
    obtain ⟨⟨z, hz, htext⟩, hbacks, hforths⟩ := h
    exact .ends hz htext hbacks hforths e.bfchg
  obtain ⟨-, hbacks, hforths⟩ := id h
  cases forth with
  | false =>
      cases past with
      | cons b past => exact ⟨past, b, now :: future, h.undo, fun calls => rfl⟩
      | nil =>
          refine ⟨[], now, future, ?_, fun calls => rfl⟩
          generalize hlist : e.b_undo.undolist = groups at hbacks
          cases hbacks
          simpa [backOrForth, Emacs.undo, hlist] using hstays
  | true =>
      cases future with
      | cons t future =>
          exact ⟨now :: past, t, future, h.redo, fun calls => by cases past <;> rfl⟩
      | nil =>
          refine ⟨past, now, [], ?_, fun calls => by cases past <;> rfl⟩
          generalize hlist : e.b_undo.redolist = groups at hforths
          cases hforths
          simpa [backOrForth, Emacs.redo, hlist] using hstays

/-- **Any run of `undo` and `redo`** walks along the texts: what is shown at the end is the
text where the walk ends, and the lists lead to the texts on both sides. -/
theorem undo_redo_run (h : Timeline past now future e) (calls : List Bool) :
    Timeline (along calls (past, now, future)).1 (along calls (past, now, future)).2.1
      (along calls (past, now, future)).2.2
      (calls.foldl (fun e forth => backOrForth forth e) e) := by
  induction calls generalizing e past now future with
  | nil => exact h
  | cons forth calls ih =>
      obtain ⟨past', now', future', hstep, hwalk⟩ := h.step forth
      rw [hwalk]
      exact ih hstep

/-- The letter has been typed into an empty line. -/
def typedLetter : Ed :=
  { oneLetter with b_undo := ⟨[⟨[⟨some (0, 0), .UINSERT 1 [98]⟩], false⟩], [], 1, rfl⟩ }

theorem typedLetter_timeline : Timeline [[nl]] [[98], nl] [] typedLetter := by
  refine ⟨⟨_, ⟨oneLetter_shows.congr rfl rfl rfl rfl rfl, rfl⟩, rfl⟩, ?_, .nil _⟩
  have hact : Journal.Performs (.ins 1 [[98]]) ⟨[], [nl]⟩ ⟨[[98]], [nl]⟩ [] := .ins [[98]] _
  have hwriting : Journal.Writing isBreak ([] ++ [⟨some (0, 0), .ins 1 [[98]]⟩])
      ([nl] ++ []) ⟨[[98]], [nl]⟩ := by
    refine Carries.begin ?_ ?_ ?_ hact
    · exact .nil [nl]
    · exact List.cons_ne_nil nl []
    · rfl
  refine .cons false (.cons ?_ .nil) hwriting.carries (.nil _)
  have hletter : AllUChars [[98]] := AllUChars.replicate (by decide) 1
  exact .ins (some (0, 0)) 1 hletter

/-- Back, forth, back: the empty line, and the letter is ahead. -/
theorem undo_redo_run_letter :
    Timeline [] [nl] [[[98], nl]]
      ([false, true, false].foldl (fun e forth => backOrForth forth e) typedLetter) :=
  undo_redo_run typedLetter_timeline [false, true, false]

end Emacs
