import Zzdwm.Agent.Tools
import Zzdwm.Lib.RingBuffer
import Zzdwm.Lib.Machine

/-!
# Live steering (src/tools/ai/agent/ai.c)

While a request or a command runs, what the human types goes into a line, the line
into a ring of slots when the request is over, and the texts of the ring into the next
message to the model.

* `pollLiveInput`, `endLiveInput`, `addSteering`, … — the routines;
* `Steering.Delivers` — every completed text has been sent, is still in the queue, or
  was reported as dropped;
* `appendLiveSteering_ring` — the ring does what the list of `Agent.World` does;
* `appendLiveSteering_eq` — texts that fit are all collected;
* `steering_delivered` — **no text is lost silently** in the runs in which the texts fit
  the line and the message.

The heading of a message and what is shown of the line are left out.
-/

namespace Agent

open Ascii (Byte)
open Machine (Run Any)
open RingBuffer (Ring Holds)

/-- `live_input`, apart from the terminal. -/
structure LiveInput where
  line : List Byte
  terminalConfigured : Bool
  inputOpen : Bool

/-- `steering_input` and `live_input`.  The last three fields record the line as it was
typed, every completed text and whether the human was told that it was dropped, and
the messages: what the steering begins with, and the whole of it. -/
structure Steering where
  queue : Ring (List Byte) maxSteeringLines
  live : LiveInput
  typed : List Byte
  completed : List (List Byte × Bool)
  sent : List (List Byte × List Byte)

/-! ## The line -/

/-- `erase_live_input`. -/
def eraseLiveInput (length : Nat) (line : List Byte) : List Byte :=
  if length = 0 ∨ length > line.length then line else line.take (line.length - length)

/-- The start of the last word. -/
def wordStart (line : List Byte) : Nat :=
  ((line.reverse.dropWhile (· = 32)).dropWhile (· ≠ 32)).length

/-- A byte is stored behind the others; a line that is full stays as it is. -/
def storeByte (room : Option Nat) (line : List Byte) (c : Byte) : List Byte :=
  match room with
  | some n => if line.length < n then line ++ [c] else line
  | none => line ++ [c]

/-- What a byte does to the line, which may have room for so many bytes only. -/
def editKey (room : Option Nat) (configured : Bool) (line : List Byte) (c : Byte) : List Byte :=
  if c = 10 ∨ c = 13 then if line = [] then [] else storeByte room line 10
  else if c = 127 ∨ c = 8 then eraseLiveInput 1 line
  else if c = 4 then eraseLiveInput line.length line
  else if c = 21 then eraseLiveInput (line.length - wordStart line) line
  else if configured ∧ (c = 2 ∨ c = 6) then line
  else storeByte room line c

/-- `queue_live_line`; `typed` is the text as it was typed. -/
def Steering.queueLiveLine (typed text : List Byte) (s : Steering) : Steering :=
  match s.queue.push text with
  | some queue => { s with queue := queue, completed := s.completed ++ [(typed, false)] }
  | none => { s with completed := s.completed ++ [(typed, true)] }

/-- One round of the loop of `poll_live_input`, with `queued_input`. -/
def pollKey (p : Steering × Bool) (c : Byte) : Steering × Bool :=
  let (s, queuedInput) := p
  let newline := c = 10 ∨ c = 13
  let t := { s with
    live := { s.live with
      line := editKey (some (maxCommand - 1)) s.live.terminalConfigured s.live.line c }
    typed := editKey none s.live.terminalConfigured s.typed c }
  if newline ∧ s.live.line = [] ∧ queuedInput then (Steering.queueLiveLine [] [] t, false)
  else (t, queuedInput || (newline ∧ s.live.line ≠ []))

/-- `begin_live_input`. -/
def beginLiveInput (opened configured : Bool) (s : Steering) : Steering :=
  { s with live := ⟨[], opened && configured, opened⟩, typed := [] }

/-- `poll_live_input`, which reads `keys`. -/
def pollLiveInput (keys : List Byte) (s : Steering) : Steering :=
  if s.live.inputOpen then (keys.foldl pollKey (s, false)).1 else s

/-- `end_live_input`. -/
def endLiveInput (s : Steering) : Steering :=
  let s :=
    if s.live.line ≠ [] then Steering.queueLiveLine s.typed s.live.line s
    else { s with completed := s.completed ++ [(s.typed, false)] }
  { s with live := ⟨[], false, false⟩, typed := [] }

/-! ## The message -/

/-- `take_steering`.  The slot is free afterwards, whether or not the text fits. -/
def takeSteering (capacity : Nat) (queue : Ring (List Byte) maxSteeringLines) :
    Option (List Byte) × Ring (List Byte) maxSteeringLines :=
  match queue.pop with
  | none => (none, queue)
  | some (text, queue) =>
      (if (cString text).length < capacity then some (cString text) else none, queue)

/-- A text behind the others, on a line of its own. -/
def addLine (steer line : List Byte) : List Byte :=
  if line = [] then steer else if steer = [] then line else steer ++ 10 :: line

/-- `append_live_steering`; `none` is -1. -/
def Steering.appendLiveSteering (capacity : Nat) :
    Nat → List Byte → Ring (List Byte) maxSteeringLines →
      Option (List Byte) × Ring (List Byte) maxSteeringLines
  | 0, steer, queue => (some steer, queue)
  | f + 1, steer, queue =>
      match takeSteering maxCommand queue with
      | (none, queue) => (some steer, queue)
      | (some line, queue) =>
          if line = [] then Steering.appendLiveSteering capacity f steer queue
          else if steer ≠ [] ∧ steer.length + 1 ≥ capacity then (none, queue)
          else if line.length ≥ capacity - steer.length - (if steer = [] then 0 else 1) then
            (none, queue)
          else Steering.appendLiveSteering capacity f (addLine steer line) queue

/-- The end of `process_tool_calls`, and `add_pending_request_steering`, which begins
with no text: the steering is collected, and a message is made of it if there is any.
`added` is what `add_text_message` says. -/
def addSteering (steer : Text maxCommand) (added : Bool) (s : Steering) : Steering :=
  match Steering.appendLiveSteering maxCommand (maxSteeringLines + 1) steer.bytes s.queue with
  | (none, queue) => { s with queue := queue }
  | (some text, queue) =>
      if text ≠ [] ∧ added then
        { s with queue := queue, sent := s.sent ++ [(steer.bytes, text)] }
      else { s with queue := queue }

/-- `clear_steering`. -/
def clearSteering (s : Steering) : Steering := { s with queue := .empty }

/-- What happens to the steering. -/
inductive SteeringEvent
  | beginLiveInput (opened configured : Bool)
  | pollLiveInput (keys : List Byte)
  | endLiveInput
  | addSteering (steer : Text maxCommand) (added : Bool)
  | clearSteering

def steeringStep (e : SteeringEvent) (s : Steering) : Except Empty Steering :=
  match e with
  | .beginLiveInput opened configured => .ok (beginLiveInput opened configured s)
  | .pollLiveInput keys => .ok (pollLiveInput keys s)
  | .endLiveInput => .ok (endLiveInput s)
  | .addSteering steer added => .ok (addSteering steer added s)
  | .clearSteering => .ok (clearSteering s)

/-- The agent has just started. -/
def Steering.start : Steering := ⟨.empty, ⟨[], false, false⟩, [], [], []⟩

/-! ## What is promised -/

/-- The texts that have not been reported as dropped. -/
def Steering.accepted (s : Steering) : List (List Byte) :=
  ((s.completed.filter fun c => !c.2).map Prod.fst).filter fun text => text ≠ []

/-- Texts one behind the other. -/
def joinLines (steer : List Byte) (texts : List (List Byte)) : List Byte :=
  texts.foldl addLine steer

/-- The accepted texts are those of the messages sent, which say them in that order, and
those that are still in the queue. -/
structure Steering.Books (s : Steering) (batches : List (List Byte × List (List Byte)))
    (queue : List (List Byte)) : Prop where
  holds : Holds queue s.queue
  sent : s.sent = batches.map fun b => (b.1, joinLines b.1 b.2)
  accepted : s.accepted = batches.flatMap Prod.snd ++ queue.filter fun text => text ≠ []

/-- **Every completed text** is sent in the order typed, once and unchanged, or is in the
queue, or its loss has been reported. -/
def Steering.Delivers (s : Steering) : Prop := ∃ batches queue, s.Books batches queue

/-- The bytes typed have room in the line, and end no string; the queue fits the message,
and the message the conversation; and a queue that is cleared is empty. -/
def Spares (e : SteeringEvent) (s : Steering) : Prop :=
  match e with
  | .pollLiveInput keys => s.live.inputOpen = true → 0 ∉ keys ∧ ∀ part, part <+: keys →
      (part.foldl (editKey none s.live.terminalConfigured) s.typed).length < maxCommand
  | .addSteering steer added => ∀ queue, Holds queue s.queue →
      (joinLines steer.bytes queue).length < maxCommand ∧
        (joinLines steer.bytes queue ≠ [] → added = true)
  | .clearSteering => ∀ queue, Holds queue s.queue → ∀ text ∈ queue, text = []
  | _ => True

/-! ## The line as it was typed -/

variable {s : Steering} {line text : List Byte} {c b : Byte} {configured : Bool}
  {batches : List (List Byte × List (List Byte))} {queue : List (List Byte)}

/-- The end of the array does not matter to a line that has room. -/
theorem editKey_room {n : Nat} (h : (editKey none configured line c).length ≤ n) :
    editKey (some n) configured line c = editKey none configured line c := by
  have hstore : ∀ d, (storeByte none line d).length ≤ n →
      storeByte (some n) line d = storeByte none line d := by
    intro d hd
    rw [storeByte, List.length_append, List.length_singleton] at hd
    rw [storeByte, storeByte, if_pos (by omega)]
  unfold editKey at h ⊢
  split
  · rw [if_pos ‹_›] at h
    split
    · rfl
    · rw [if_neg ‹_›] at h
      exact hstore 10 h
  · rw [if_neg ‹_›] at h
    repeat' (split; · rfl)
    repeat rw [if_neg ‹_›] at h
    exact hstore c h

theorem mem_eraseLiveInput {n : Nat} (h : b ∈ eraseLiveInput n line) : b ∈ line := by
  unfold eraseLiveInput at h
  split at h
  · exact h
  · exact List.mem_of_mem_take h

/-- No byte gets into the line but those that are typed, and newlines. -/
theorem mem_editKey (h : b ∈ editKey none configured line c) : b ∈ line ∨ b = c ∨ b = 10 := by
  have hstore : ∀ d, b ∈ storeByte none line d → b ∈ line ∨ b = d := by
    intro d hd
    rw [storeByte, List.mem_append, List.mem_singleton] at hd
    exact hd
  unfold editKey at h
  split at h
  · split at h
    · cases h
    · rcases hstore 10 h with hline | hten
      · exact Or.inl hline
      · exact Or.inr (Or.inr hten)
  split at h
  · exact Or.inl (mem_eraseLiveInput h)
  split at h
  · exact Or.inl (mem_eraseLiveInput h)
  split at h
  · exact Or.inl (mem_eraseLiveInput h)
  split at h
  · exact Or.inl h
  · rcases hstore c h with hline | hc
    · exact Or.inl hline
    · exact Or.inr (Or.inl hc)

/-- A text that a slot and a C string can hold. -/
def Whole (text : List Byte) : Prop := text.length < maxCommand ∧ (0 : Byte) ∉ text

/-- The invariant: the line is what was typed, and the texts in the queue are whole. -/
structure Steering.Sound (s : Steering) : Prop where
  line : s.live.line = s.typed
  whole : Whole s.typed
  books : ∃ batches queue, s.Books batches queue ∧ ∀ text ∈ queue, Whole text

/-! ## Into the queue -/

/-- A text that is reported as dropped is not accepted; an empty one makes no
difference. -/
theorem accepted_append {t : Steering} {dropped : Bool}
    (h : t.completed = s.completed ++ [(text, dropped)]) :
    t.accepted = s.accepted ++ if dropped = false ∧ text ≠ [] then [text] else [] := by
  unfold Steering.accepted
  rw [h, List.filter_append, List.map_append, List.filter_append]
  cases dropped with
  | true => simp
  | false => by_cases htext : text = [] <;> simp [htext]

/-- **The ring does what the list does** (`Agent.queueLiveLine`): a text is queued. -/
theorem queueLiveLine_ring (h : Holds queue s.queue) (typed : List Byte) (htext : Whole text) :
    Holds (queueLiveLine text queue) (Steering.queueLiveLine typed text s).queue := by
  have hcut : cString (text.take (maxCommand - 1)) = text := by
    rw [List.take_of_length_le (Nat.le_sub_one_of_lt htext.1)]
    exact cString_self.mpr htext.2
  unfold queueLiveLine Steering.queueLiveLine
  rcases h.push_eq text with ⟨hfull, hpush⟩ | ⟨hroom, ring, hpush, hring⟩
  · rw [hpush, if_neg (by omega)]
    exact h
  · rw [hpush, if_pos hroom, hcut]
    exact hring

/-- **`queue_live_line`** puts the text into the queue, or says that it is dropped. -/
theorem Steering.Books.queueLiveLine (h : s.Books batches queue)
    (hqueue : ∀ text ∈ queue, Whole text) (htext : Whole text) :
    ∃ batches' queue', (Steering.queueLiveLine text text s).Books batches' queue' ∧
      ∀ text ∈ queue', Whole text := by
  unfold Steering.queueLiveLine
  rcases h.holds.push_eq text with ⟨-, hpush⟩ | ⟨-, ring, hpush, hring⟩
  · rw [hpush]
    refine ⟨batches, queue, ⟨h.holds, h.sent, ?_⟩, hqueue⟩
    rw [accepted_append (s := s) rfl, if_neg (by simp), List.append_nil]
    exact h.accepted
  · rw [hpush]
    refine ⟨batches, queue ++ [text], ⟨hring, h.sent, ?_⟩, ?_⟩
    · rw [accepted_append (s := s) rfl, List.filter_append, ← List.append_assoc, ← h.accepted]
      by_cases hempty : text = [] <;> simp [hempty]
    · intro t ht
      rcases List.mem_append.mp ht with ht | ht
      · exact hqueue t ht
      · rw [List.mem_singleton.mp ht]
        exact htext

theorem queueLiveLine_keeps (typed text : List Byte) (s : Steering) :
    (Steering.queueLiveLine typed text s).live = s.live ∧
      (Steering.queueLiveLine typed text s).typed = s.typed := by
  unfold Steering.queueLiveLine
  split <;> exact ⟨rfl, rfl⟩

theorem Steering.Sound.queueLiveLine (h : s.Sound) (htext : Whole text) :
    (Steering.queueLiveLine text text s).Sound := by
  obtain ⟨batches, queue, hbooks, hqueue⟩ := h.books
  obtain ⟨hlive, htyped⟩ := queueLiveLine_keeps text text s
  constructor
  · rw [hlive, htyped]
    exact h.line
  · rw [htyped]
    exact h.whole
  · exact hbooks.queueLiveLine hqueue htext

theorem whole_nil : Whole [] := ⟨by decide, nofun⟩

/-- **One byte** is typed. -/
theorem Steering.Sound.pollKey (h : s.Sound) (hc : c ≠ 0)
    (hroom : (editKey none s.live.terminalConfigured s.typed c).length < maxCommand)
    (queuedInput : Bool) :
    (pollKey (s, queuedInput) c).1.Sound ∧
      (pollKey (s, queuedInput) c).1.live.terminalConfigured = s.live.terminalConfigured ∧
      (pollKey (s, queuedInput) c).1.typed =
        editKey none s.live.terminalConfigured s.typed c := by
  have hline : editKey (some (maxCommand - 1)) s.live.terminalConfigured s.live.line c =
      editKey none s.live.terminalConfigured s.typed c := by
    rw [h.line]
    exact editKey_room (by omega)
  have hnul : (0 : Byte) ∉ editKey none s.live.terminalConfigured s.typed c := by
    intro hmem
    rcases mem_editKey hmem with htyped | hkey | hten
    · exact h.whole.2 htyped
    · exact hc hkey.symm
    · exact absurd hten (by decide)
  have hedited : Steering.Sound { s with
      live := { s.live with
        line := editKey (some (maxCommand - 1)) s.live.terminalConfigured s.live.line c }
      typed := editKey none s.live.terminalConfigured s.typed c } := by
    obtain ⟨batches, queue, hbooks, hqueue⟩ := h.books
    exact ⟨hline, ⟨hroom, hnul⟩, batches, queue, ⟨hbooks.holds, hbooks.sent, hbooks.accepted⟩,
      hqueue⟩
  unfold Agent.pollKey
  dsimp only
  split
  · obtain ⟨hlive, htyped⟩ := queueLiveLine_keeps [] [] { s with
      live := { s.live with
        line := editKey (some (maxCommand - 1)) s.live.terminalConfigured s.live.line c }
      typed := editKey none s.live.terminalConfigured s.typed c }
    refine ⟨hedited.queueLiveLine whole_nil, ?_, htyped⟩
    dsimp only
    rw [hlive]
  · exact ⟨hedited, rfl, rfl⟩

/-- All the bytes that a poll reads. -/
theorem Steering.Sound.pollKeys {keys : List Byte} (h : s.Sound) (hkeys : 0 ∉ keys)
    (hroom : ∀ part, part <+: keys →
      (part.foldl (editKey none s.live.terminalConfigured) s.typed).length < maxCommand)
    (queuedInput : Bool) : (keys.foldl Agent.pollKey (s, queuedInput)).1.Sound := by
  induction keys generalizing s queuedInput with
  | nil => exact h
  | cons c keys ih =>
      rw [List.mem_cons, not_or] at hkeys
      have hfirst := hroom [c] (List.cons_prefix_cons.mpr ⟨rfl, List.nil_prefix⟩)
      obtain ⟨hsound, hconf, htyped⟩ := h.pollKey (Ne.symm hkeys.1) hfirst queuedInput
      rw [List.foldl_cons]
      refine ih hsound hkeys.2 (fun part hpart => ?_) _
      have hlonger := hroom (c :: part) (List.cons_prefix_cons.mpr ⟨rfl, hpart⟩)
      rw [List.foldl_cons] at hlonger
      rw [hconf, htyped]
      exact hlonger

theorem Steering.Sound.endLiveInput (h : s.Sound) : (endLiveInput s).Sound := by
  have hfresh : ∀ t : Steering, t.Sound → Steering.Sound
      { t with live := ⟨[], false, false⟩, typed := [] } := by
    intro t ht
    obtain ⟨batches, queue, hbooks, hqueue⟩ := ht.books
    exact ⟨rfl, whole_nil, batches, queue, ⟨hbooks.holds, hbooks.sent, hbooks.accepted⟩, hqueue⟩
  unfold Agent.endLiveInput
  dsimp only
  split
  · rw [h.line]
    exact hfresh _ (h.queueLiveLine h.whole)
  · rename_i hempty
    have htyped : s.typed = [] := by
      rw [← h.line]
      exact not_not.mp hempty
    apply hfresh
    obtain ⟨batches, queue, hbooks, hqueue⟩ := h.books
    refine ⟨h.line, h.whole, batches, queue, ⟨hbooks.holds, hbooks.sent, ?_⟩, hqueue⟩
    rw [accepted_append (s := s) rfl, htyped, if_neg (by simp), List.append_nil]
    exact hbooks.accepted

/-! ## Into the message -/

theorem length_addLine (steer line : List Byte) : steer.length ≤ (addLine steer line).length ∧
    line.length ≤ (addLine steer line).length := by
  unfold addLine
  by_cases hline : line = []
  · simp [hline]
  · rw [if_neg hline]
    by_cases hsteer : steer = []
    · simp [hsteer]
    · rw [if_neg hsteer, List.length_append, List.length_cons]
      omega

/-- What is joined only gets longer. -/
theorem length_joinLines (steer : List Byte) (texts : List (List Byte)) :
    steer.length ≤ (joinLines steer texts).length ∧
      ∀ text ∈ texts, text.length ≤ (joinLines steer texts).length := by
  induction texts generalizing steer with
  | nil => exact ⟨Nat.le_refl _, nofun⟩
  | cons t texts ih =>
      obtain ⟨hsteer, htexts⟩ := ih (addLine steer t)
      obtain ⟨hleft, hright⟩ := length_addLine steer t
      refine ⟨Nat.le_trans hleft hsteer, fun text htext => ?_⟩
      rcases List.mem_cons.mp htext with rfl | htext
      · exact Nat.le_trans hright hsteer
      · exact htexts text htext

/-- Empty texts add nothing. -/
theorem joinLines_filter (steer : List Byte) (texts : List (List Byte)) :
    joinLines steer (texts.filter fun text => text ≠ []) = joinLines steer texts := by
  induction texts generalizing steer with
  | nil => rfl
  | cons t texts ih =>
      by_cases ht : t = []
      · have hskip : joinLines steer (t :: texts) = joinLines steer texts := by
          rw [joinLines, List.foldl_cons, addLine, if_pos ht]
          rfl
        rw [List.filter_cons_of_neg (by simp [ht]), hskip]
        exact ih steer
      · rw [List.filter_cons_of_pos (by simp [ht])]
        exact ih (addLine steer t)

/-- **The ring does what the list does** (`Agent.appendLiveSteering`): what is collected,
and what stays. -/
theorem appendLiveSteering_ring {capacity f : Nat} {steer : List Byte}
    {ring : Ring (List Byte) maxSteeringLines} (hring : Holds queue ring) (hf : queue.length ≤ f)
    (hqueue : ∀ text ∈ queue, Whole text) {fits : Bool} {steer' : List Byte}
    {queue' : List (List Byte)}
    (hlist : appendLiveSteering capacity queue steer = (fits, steer', queue')) :
    ∃ ring', Steering.appendLiveSteering capacity f steer ring =
      (if fits = true then some steer' else none, ring') ∧ Holds queue' ring' := by
  induction queue generalizing f steer ring with
  | nil =>
      cases hlist
      cases f with
      | zero => exact ⟨ring, rfl, hring⟩
      | succ f =>
          refine ⟨ring, ?_, hring⟩
          rw [Steering.appendLiveSteering, takeSteering, hring.pop_nil]
          rfl
  | cons t queue ih =>
      obtain ⟨f, rfl⟩ :=
        Nat.exists_eq_add_of_le' (Nat.le_trans (Nat.succ_le_succ (Nat.zero_le _)) hf)
      obtain ⟨ring', hpop, hring'⟩ := hring.pop_cons
      obtain ⟨hlen, hnul⟩ := hqueue t List.mem_cons_self
      have htake : takeSteering maxCommand ring = (some t, ring') := by
        rw [takeSteering, hpop]
        dsimp only
        rw [cString_self.mpr hnul, if_pos hlen]
      have hwhole : ∀ text ∈ queue, Whole text :=
        fun text h => hqueue text (List.mem_cons_of_mem _ h)
      have hnext := fun steer => @ih f steer ring' hring' (Nat.le_of_succ_le_succ hf) hwhole
      rw [Steering.appendLiveSteering, htake]
      rw [appendLiveSteering] at hlist
      dsimp only
      by_cases ht : t = []
      · rw [if_pos ht] at hlist ⊢
        exact hnext steer hlist
      rw [if_neg ht] at hlist ⊢
      by_cases hfull : steer ≠ [] ∧ capacity ≤ steer.length + 1
      · rw [if_pos hfull] at hlist ⊢
        cases hlist
        exact ⟨ring', rfl, hring'⟩
      rw [if_neg hfull] at hlist ⊢
      by_cases hsteer : steer = []
      · subst hsteer
        rw [if_neg (not_not.mpr rfl)] at hlist
        rw [if_pos rfl, addLine, if_neg ht, if_pos rfl]
        split at hlist
        · rw [if_pos ‹_›]
          cases hlist
          exact ⟨ring', rfl, hring'⟩
        · rw [if_neg ‹_›]
          exact hnext t (by simpa using hlist)
      · rw [if_pos hsteer] at hlist
        rw [if_neg hsteer, addLine, if_neg ht, if_neg hsteer]
        split at hlist
        · rw [if_pos ‹_›]
          cases hlist
          exact ⟨ring', rfl, hring'⟩
        · rw [if_neg ‹_›]
          exact hnext (steer ++ 10 :: t) (by simpa [newline, hsteer] using hlist)

/-- **What fits is collected**: all the texts of the queue, in order. -/
theorem appendLiveSteering_eq {capacity : Nat} {steer : List Byte}
    (hfits : (joinLines steer queue).length < capacity) :
    appendLiveSteering capacity queue steer = (true, joinLines steer queue, []) := by
  induction queue generalizing steer with
  | nil => rfl
  | cons t queue ih =>
      have hrest : joinLines steer (t :: queue) = joinLines (addLine steer t) queue := rfl
      rw [hrest] at hfits ⊢
      have hnext := ih hfits
      rw [appendLiveSteering]
      by_cases ht : t = []
      · rw [if_pos ht]
        rw [addLine, if_pos ht] at hnext ⊢
        exact hnext
      · have hroom : (addLine steer t).length < capacity :=
          Nat.lt_of_le_of_lt (length_joinLines (addLine steer t) queue).1 hfits
        have hpos : 0 < t.length := List.length_pos_iff.mpr ht
        rw [if_neg ht]
        rw [addLine, if_neg ht] at hroom hnext ⊢
        by_cases hsteer : steer = []
        · subst hsteer
          rw [if_pos rfl] at hroom hnext ⊢
          simpa [Nat.not_le.mpr hroom] using hnext
        · rw [if_neg hsteer] at hroom hnext ⊢
          rw [List.length_append, List.length_cons] at hroom
          rw [if_neg (by omega), if_neg (by rw [if_pos hsteer]; omega), if_pos hsteer,
            List.append_assoc]
          exact hnext

/-- **A message** takes all that is in the queue. -/
theorem Steering.Sound.addSteering (h : s.Sound) {steer : Text maxCommand} {added : Bool}
    (hok : Spares (.addSteering steer added) s) : (addSteering steer added s).Sound := by
  obtain ⟨batches, queue, hbooks, hqueue⟩ := h.books
  obtain ⟨hfits, hadded⟩ := hok queue hbooks.holds
  have hf : queue.length ≤ maxSteeringLines + 1 := Nat.le_succ_of_le hbooks.holds.few
  obtain ⟨ring, heq, hring⟩ :=
    appendLiveSteering_ring hbooks.holds hf hqueue (appendLiveSteering_eq hfits)
  unfold Agent.addSteering
  rw [heq, if_pos rfl]
  dsimp only
  split
  · refine ⟨h.line, h.whole, batches ++ [(steer.bytes, queue.filter fun text => text ≠ [])], [],
      ⟨hring, ?_, ?_⟩, nofun⟩
    · rw [List.map_append, List.map_singleton, ← hbooks.sent, joinLines_filter]
    · rw [List.flatMap_append, List.flatMap_singleton, List.filter_nil, List.append_nil]
      exact hbooks.accepted
  · rename_i hnone
    have hempty : joinLines steer.bytes queue = [] := by
      by_contra hne
      exact hnone ⟨hne, hadded hne⟩
    have hall : (queue.filter fun text => text ≠ []) = [] := by
      rw [List.filter_eq_nil_iff]
      intro text htext
      have hle := (length_joinLines steer.bytes queue).2 text htext
      rw [hempty] at hle
      simpa using List.eq_nil_of_length_eq_zero (Nat.le_zero.mp hle)
    refine ⟨h.line, h.whole, batches, [], ⟨hring, hbooks.sent, ?_⟩, nofun⟩
    rw [List.filter_nil, ← hall]
    exact hbooks.accepted

/-! ## Plain text -/

/-- A byte that means no editing, and that ends no string. -/
def PlainKey (c : Byte) : Prop := c ∉ ([0, 2, 4, 6, 8, 10, 13, 21, 127] : List Byte)

instance : DecidablePred PlainKey := fun c =>
  inferInstanceAs (Decidable (c ∉ ([0, 2, 4, 6, 8, 10, 13, 21, 127] : List Byte)))

theorem editKey_plain (room : Option Nat) (h : PlainKey c) :
    editKey room configured line c = storeByte room line c := by
  unfold PlainKey at h
  simp only [List.mem_cons, not_or] at h
  unfold editKey
  rw [if_neg (by grind), if_neg (by grind), if_neg (by grind), if_neg (by grind),
    if_neg (by grind)]

/-- Plain text gets into a line that has no end as it is, … -/
theorem editKeys_plain {keys : List Byte} (hplain : ∀ c ∈ keys, PlainKey c) :
    keys.foldl (editKey none configured) line = line ++ keys := by
  induction keys generalizing line with
  | nil => exact (List.append_nil line).symm
  | cons c keys ih =>
      rw [List.foldl_cons, editKey_plain none (hplain c List.mem_cons_self), storeByte,
        ih fun d hd => hplain d (List.mem_cons_of_mem _ hd), List.append_assoc]
      rfl

/-- … and into the line of `poll_live_input` if it has room. -/
theorem pollKeys_plain {keys : List Byte} (hplain : ∀ c ∈ keys, PlainKey c)
    (hroom : s.live.line.length + keys.length < maxCommand) :
    keys.foldl pollKey (s, false) = ({ s with
      live := { s.live with line := s.live.line ++ keys }
      typed := s.typed ++ keys }, false) := by
  induction keys generalizing s with
  | nil => simp
  | cons c keys ih =>
      have hc := hplain c List.mem_cons_self
      have hnewline : ¬(c = 10 ∨ c = 13) := by
        unfold PlainKey at hc
        grind
      rw [List.length_cons] at hroom
      have hkey : pollKey (s, false) c = ({ s with
          live := { s.live with line := s.live.line ++ [c] }
          typed := s.typed ++ [c] }, false) := by
        rw [pollKey]
        simp only [editKey_plain _ hc, storeByte, hnewline, false_and, if_false, decide_false,
          Bool.or_false, Bool.false_eq_true]
        rw [if_pos (by omega)]
      rw [List.foldl_cons, hkey, ih (fun d hd => hplain d (List.mem_cons_of_mem _ hd))
        (by simp; omega)]
      simp

/-- **A request** during which plain text is typed puts it into the queue. -/
theorem request_plain {keys : List Byte} (hplain : ∀ c ∈ keys, PlainKey c) (hne : keys ≠ [])
    (hlen : keys.length < maxCommand) (hqueue : Holds queue s.queue)
    (hroom : queue.length < maxSteeringLines) :
    ∃ ring, Holds (queue ++ [keys]) ring ∧
      endLiveInput (pollLiveInput keys (beginLiveInput true true s)) =
        ⟨ring, ⟨[], false, false⟩, [], s.completed ++ [(keys, false)], s.sent⟩ := by
  have hpoll : pollLiveInput keys (beginLiveInput true true s) =
      { s with live := ⟨keys, true, true⟩, typed := keys } := by
    have hroom : (beginLiveInput true true s).live.line.length + keys.length < maxCommand := by
      rw [beginLiveInput, List.length_nil, Nat.zero_add]
      exact hlen
    rw [pollLiveInput, if_pos (by rfl), pollKeys_plain hplain hroom]
    rfl
  rcases hqueue.push_eq keys with ⟨hfull, -⟩ | ⟨-, ring, hpush, hring⟩
  · omega
  · refine ⟨ring, hring, ?_⟩
    rw [hpoll]
    unfold endLiveInput Steering.queueLiveLine
    dsimp only
    rw [if_pos hne, hpush]

/-! ## Runs -/

/-- **One event.** -/
theorem Steering.Sound.step {t : Steering} {e : SteeringEvent} (h : s.Sound) (hok : Spares e s)
    (hstep : steeringStep e s = .ok t) : t.Sound := by
  cases e with
  | beginLiveInput opened configured =>
      cases hstep
      obtain ⟨batches, queue, hbooks, hqueue⟩ := h.books
      exact ⟨rfl, whole_nil, batches, queue, ⟨hbooks.holds, hbooks.sent, hbooks.accepted⟩, hqueue⟩
  | pollLiveInput keys =>
      cases hstep
      unfold Agent.pollLiveInput
      split
      · obtain ⟨hkeys, hroom⟩ := hok ‹_›
        exact h.pollKeys hkeys hroom false
      · exact h
  | endLiveInput =>
      cases hstep
      exact h.endLiveInput
  | addSteering steer added =>
      cases hstep
      exact h.addSteering hok
  | clearSteering =>
      cases hstep
      obtain ⟨batches, queue, hbooks, hqueue⟩ := h.books
      have hall : (queue.filter fun text => text ≠ []) = [] := by
        rw [List.filter_eq_nil_iff]
        intro text htext
        simpa using hok queue hbooks.holds text htext
      refine ⟨h.line, h.whole, batches, [], ⟨RingBuffer.holds_empty (by decide), hbooks.sent, ?_⟩,
        nofun⟩
      rw [List.filter_nil, ← hall]
      exact hbooks.accepted

theorem sound_start : Steering.start.Sound :=
  ⟨rfl, whole_nil, [], [], ⟨RingBuffer.holds_empty (by decide), rfl, rfl⟩, nofun⟩

/-- **Steering is delivered** or its loss reported, in every run in which what is typed has room
and ends no string, what is collected fits, and only an empty queue is cleared. -/
theorem steering_delivered {es : List SteeringEvent}
    (hrun : Run steeringStep Spares .start es s) : s.Delivers := by
  have hsound : s.Sound :=
    hrun.preserves Steering.Sound (fun _ _ _ h hok hstep => h.step hok hstep) sound_start
  obtain ⟨batches, queue, hbooks, -⟩ := hsound.books
  exact ⟨batches, queue, hbooks⟩

/-- Nothing has been typed at the prompt. -/
theorem noSteer_fits : ([] : List Byte).length < maxCommand := by decide

def noSteer : Text maxCommand := ⟨[], noSteer_fits, nul_not_mem_nil⟩

/-- A request during which `keys` are typed. -/
def request (keys : List Byte) : List SteeringEvent :=
  [.beginLiveInput true true, .pollLiveInput keys, .endLiveInput]

/-- "hi" is typed, and sent. -/
theorem steering_delivered_hi :
    (addSteering noSteer true
      (endLiveInput (pollLiveInput [104, 105] (beginLiveInput true true .start)))).Delivers := by
  have hplain : ∀ c ∈ ([104, 105] : List Byte), PlainKey c := by simp [PlainKey]
  obtain ⟨ring, hring, hend⟩ := request_plain (s := .start) hplain (by decide)
    (by simp [maxCommand]) (RingBuffer.holds_empty (by decide)) (by decide)
  suffices hrun : Run steeringStep Spares .start (request [104, 105] ++ [.addSteering noSteer true])
      (addSteering noSteer true
        (endLiveInput (pollLiveInput [104, 105] (beginLiveInput true true .start)))) from
    steering_delivered hrun
  refine .cons trivial rfl (.cons ?_ rfl (.cons trivial rfl (.cons ?_ rfl (.nil _))))
  · intro _
    refine ⟨by decide, fun part hpart => ?_⟩
    have hpart' := hpart.length_le
    rw [editKeys_plain fun c hc => hplain c (hpart.subset hc)]
    exact Nat.lt_of_le_of_lt hpart' (by decide)
  · intro queue hqueue
    rw [hend] at hqueue
    rw [hqueue.unique hring]
    exact ⟨by decide, fun _ => rfl⟩

/-- Two texts that do not fit one message are both lost. -/
theorem steering_lost : ¬ ∀ (es : List SteeringEvent) (s : Steering),
    Run steeringStep Any .start es s → s.Delivers := by
  intro hall
  have hplain : ∀ c ∈ List.replicate 5000 (97 : Byte), PlainKey c := by
    intro c hc
    rw [List.eq_of_mem_replicate hc]
    decide
  have hlength : (List.replicate 5000 (97 : Byte)).length = 5000 := List.length_replicate
  generalize List.replicate 5000 (97 : Byte) = text at hplain hlength
  have hne : text ≠ [] := List.ne_nil_of_length_pos (by omega)
  have hshort : text.length < maxCommand := by
    rw [hlength]
    decide
  obtain ⟨ring, hring, hfirst⟩ := request_plain (s := .start) hplain hne hshort
    (RingBuffer.holds_empty (by decide)) (by decide)
  obtain ⟨ring', hring', hsecond⟩ := request_plain
    (s := ⟨ring, ⟨[], false, false⟩, [], [(text, false)], []⟩) hplain hne hshort hring
    (Nat.lt_of_le_of_lt (Nat.le_refl 1) (by decide))
  have hcollect : appendLiveSteering maxCommand [text, text] noSteer.bytes = (false, text, []) := by
    simp [appendLiveSteering, noSteer, hne, hlength, maxCommand]
  have hwhole : ∀ t ∈ [text, text], Whole t := by
    have hnul : (0 : Byte) ∉ text := fun h => absurd (hplain 0 h) (by decide)
    simp [Whole, hshort, hnul]
  obtain ⟨last, hlast, hempty⟩ := appendLiveSteering_ring (f := maxSteeringLines + 1) hring'
    (Nat.le_trans (Nat.le_refl 2) (by decide)) hwhole hcollect
  obtain ⟨batches, queue, hbooks⟩ := hall
    (request text ++ request text ++ [.addSteering noSteer true]) _
    (.cons trivial rfl (.cons trivial rfl (.cons trivial rfl (.cons trivial rfl (.cons trivial rfl
      (.cons trivial rfl (.cons trivial rfl (.nil _))))))))
  have hfinal : addSteering noSteer true
      ⟨ring', ⟨[], false, false⟩, [], [(text, false)] ++ [(text, false)], []⟩ =
      ⟨last, ⟨[], false, false⟩, [], [(text, false)] ++ [(text, false)], []⟩ := by
    rw [addSteering]
    dsimp only
    rw [hlast, if_neg (by decide)]
  have hthis : (addSteering noSteer true (endLiveInput (pollLiveInput text (beginLiveInput true true
      (endLiveInput (pollLiveInput text (beginLiveInput true true .start))))))) =
      ⟨last, ⟨[], false, false⟩, [], [(text, false)] ++ [(text, false)], []⟩ := by
    rw [hfirst]
    exact (congrArg _ hsecond).trans hfinal
  rw [hthis] at hbooks
  have hbatches : batches = [] := List.map_eq_nil_iff.mp hbooks.sent.symm
  have hqueue : queue = [] := hbooks.holds.unique hempty
  have haccepted := hbooks.accepted
  rw [hbatches, hqueue] at haccepted
  simp [Steering.accepted, hne] at haccepted

end Agent
