import Zzdwm.Agent.Requests
import Zzdwm.Agent.Session

/-!
# Well-formed requests

The endpoint reads a request as a transcript: the system prompt first, and each call
with its results behind it.  The history is kept as such a transcript, one block for a
text and one for a call with its results, with the block of the calls under way at its
end.  Only dropping a message can break a block.

* `WellFormed` — what the endpoint expects;
* `Shape`, `Adds.shape`, `dropOldest_shape` — the blocks of the history, and what one
  message more or less does to them;
* `Safe` — the events that drop no call and bring no id twice;
* `requests_wellFormed` — **every request of a safe run**.
-/

namespace Agent

open Ascii Json
open Exchange (Paired Distinct marked resultEntries unkept)

/-- The request starts with the system prompt, and its calls have their results. -/
structure WellFormed (request : Value) : Prop where
  first : ((requestMessages request).map entryOf).head? =
    some (.text (some (bytes "system"), some systemPrompt))
  paired : Paired ((requestMessages request).map entryOf)

/-! ## The history as blocks -/

def promptEntry : Entry := .text (some (bytes "system"), some systemPrompt)

def Message.mark (m : Message) : Bool × Entry := (m.system, m.entry)

/-- The history: the system prompt, blocks, and the calls under way. -/
structure Shape (messages : List Message) (blocks : List Block) (last : List (Bool × Entry)) : Prop where
  readable : ∀ m ∈ messages, m.Readable
  marks : messages.map Message.mark = (true, promptEntry) :: (marked blocks ++ last)
  distinct : Distinct blocks

/-- The message at index 0 aside, the oldest one that is not kept. -/
def oldestMessage (c : Conversation) : Option Message := c.messages.tail.find? fun m => !m.system

/-- The message is not one that calls. -/
def Message.CallsNobody (m : Message) : Prop := ∀ ids, m.entry = .call ids → ids = []

/-- A call under way, with the results it has so far. -/
def underWay (ids results : List (Option (List Byte))) : List (Bool × Entry) :=
  (false, .call ids) :: resultEntries results

theorem mark_entry (messages : List Message) :
    messages.map Message.entry = (messages.map Message.mark).map Prod.snd := by
  rw [List.map_map]
  rfl

/-- **The oldest message goes.** -/
theorem dropOldest_shape {c : Conversation} {blocks : List Block} {last : List (Bool × Entry)}
    (h : Shape c.messages blocks last)
    (hlast : ∀ e ∈ last.head?, ∃ ids, e = (false, Exchange.Entry.call ids) ∧ ids ≠ [])
    (hsafe : ∀ m ∈ oldestMessage c, m.CallsNobody) :
    ∃ blocks', Shape (dropOldest c.messages) blocks' last := by
  cases hm : c.messages with
  | nil =>
      have hmarks := h.marks
      rw [hm] at hmarks
      cases hmarks
  | cons first later =>
      have hmarks := h.marks
      rw [hm, List.map_cons] at hmarks
      obtain ⟨hfirst, hlater⟩ := List.cons.inj hmarks
      have hfind : ∀ ids, (marked blocks ++ last).find? unkept = some (false, .call ids) → ids = [] := by
        intro ids hids
        rw [← hlater, List.find?_map] at hids
        obtain ⟨m, hm', hmark⟩ := Option.map_eq_some_iff.mp hids
        have hold : oldestMessage c = some m := by
          rw [oldestMessage, hm]
          exact hm'
        exact hsafe m hold ids (congrArg Prod.snd hmark)
      obtain ⟨blocks', hsub, herase⟩ := Exchange.eraseP_blocks blocks last hlast hfind
      have hsublist := dropOldest_sublist c.messages
      rw [hm] at hsublist
      refine ⟨blocks', ⟨fun m hmem => ?_, ?_, h.distinct.sublist hsub⟩⟩
      · exact h.readable m (hm ▸ hsublist.subset hmem)
      · rw [dropOldest, List.map_cons, hfirst, ← herase, ← hlater, List.eraseP_map]
        rfl

/-- The array is full, so that one message more drops one. -/
def Full (c : Conversation) : Prop := c.messages.length = maxMessages

/-- **One message more.** -/
theorem Adds.shape {c c' : Conversation} {fields : List Field} {system : Bool}
    (hadds : Adds c c' (textOf fields) system) {blocks : List Block} {last : List (Bool × Entry)}
    (h : Shape c.messages blocks last)
    (hlast : ∀ e ∈ last.head?, ∃ ids, e = (false, Exchange.Entry.call ids) ∧ ids ≠ [])
    (hsafe : Full c → ∀ m ∈ oldestMessage c, m.CallsNobody) :
    ∃ blocks', Shape c'.messages blocks' (last ++ [(system, entryOf (valueOf fields))]) := by
  obtain ⟨m, hmessages, hjson, hsystem⟩ := hadds
  obtain ⟨hreadable, hentry⟩ := readable_textOf hjson
  have hroom : ∃ blocks', Shape (room c.messages) blocks' last := by
    unfold room
    split
    · exact ⟨blocks, h⟩
    next hfull =>
      have hfew := c.few
      exact dropOldest_shape h hlast (hsafe (by unfold Full; omega))
  obtain ⟨blocks', hshape⟩ := hroom
  refine ⟨blocks', ⟨?_, ?_, hshape.distinct⟩⟩
  · rw [hmessages]
    intro m' hmem
    rcases List.mem_append.mp hmem with hmem | hmem
    · exact hshape.readable m' hmem
    · rw [List.mem_singleton.mp hmem]
      exact hreadable
  · rw [hmessages, List.map_append, hshape.marks, List.map_singleton, Message.mark, hsystem, hentry]
    simp

/-! ## The routines -/

theorem none_last : ∀ e ∈ ([] : List (Bool × Entry)).head?,
    ∃ ids, e = (false, Exchange.Entry.call ids) ∧ ids ≠ [] := nofun

theorem underWay_last {ids : List (Option (List Byte))} (hne : ids ≠ [])
    (results : List (Option (List Byte))) : ∀ e ∈ (underWay ids results).head?,
      ∃ ids, e = (false, Exchange.Entry.call ids) ∧ ids ≠ [] := by
  intro e he
  cases he
  exact ⟨ids, rfl, hne⟩

/-- A text is a block. -/
theorem Shape.text {messages : List Message} {blocks : List Block} {system : Bool}
    {t : Option (List Byte) × Option (List Byte)}
    (h : Shape messages blocks ([] ++ [(system, .text t)])) :
    Shape messages (blocks ++ [.text system t]) [] where
  readable := h.readable
  marks := by
    rw [h.marks, Exchange.marked_append, List.append_nil]
    rfl
  distinct := by
    intro ids hmem
    rcases List.mem_append.mp hmem with hmem | hmem
    · exact h.distinct ids hmem
    · cases List.mem_singleton.mp hmem

/-- A call with all its results is a block. -/
theorem Shape.exchange {messages : List Message} {blocks : List Block} {ids : List (Option (List Byte))}
    (h : Shape messages blocks (underWay ids ids)) (hnodup : ids.Nodup) :
    Shape messages (blocks ++ [.exchange ids]) [] where
  readable := h.readable
  marks := by
    rw [h.marks, Exchange.marked_append, List.append_nil, Exchange.marked_cons, Exchange.marked_nil,
      List.append_nil]
    rfl
  distinct := by
    intro ids' hmem
    rcases List.mem_append.mp hmem with hmem | hmem
    · exact h.distinct ids' hmem
    · cases List.mem_singleton.mp hmem
      exact hnodup

theorem appendBoundedOutput_spec {call : ToolCall} {lead output : List Byte} {c c' : Conversation}
    {fuel tail : Nat} (h : appendBoundedOutput call lead output c fuel tail = some c') :
    ∃ content, Adds c c' (textOf (toolFields call content)) false := by
  induction fuel generalizing tail with
  | zero => cases h
  | succ fuel ih =>
      unfold appendBoundedOutput at h
      dsimp only at h
      split at h
      · cases h
      split at h
      · cases h
      cases hout : appendToolOutput call
          (if output.length - tail ≠ 0 then lead ++ [newline] ++ bytes "[output tail]\n" else lead ++ [newline])
          (output.drop (output.length - tail)) c with
      | some c'' =>
          rw [hout] at h
          cases h
          exact ⟨_, appendToolOutput_spec hout⟩
      | none =>
          rw [hout] at h
          dsimp only at h
          split at h
          · exact ⟨_, appendToolResult_spec h⟩
          · exact ih h

theorem decideOn_conversation (call : ToolCall) (p : Progress) :
    (decideOn call p).2.2.conversation = p.conversation := by
  unfold decideOn
  dsimp only
  split
  · split
    · rfl
    split <;> rfl
  · rfl

theorem runCommand_conversation (command : List Byte) (p : Progress) :
    (runCommand command p).2.conversation = p.conversation := by
  unfold runCommand
  dsimp only
  split <;> rfl

theorem answered_adds {p p' : Progress} {c : Option Conversation} (h : p.answered c = (true, p')) :
    c = some p'.conversation := by
  cases c with
  | none => cases h
  | some c =>
      cases h
      rfl

/-- A call that is processed has its tool message. -/
theorem processToolCall_adds {call : ToolCall} {p p' : Progress}
    (h : processToolCall call p = (true, p')) :
    ∃ content, Adds p.conversation p'.conversation (textOf (toolFields call content)) false := by
  have hconv := decideOn_conversation call p
  unfold processToolCall at h
  cases hdec : decideOn call p with
  | mk verdict rest =>
      obtain ⟨command, q⟩ := rest
      rw [hdec] at h hconv
      dsimp only at h hconv
      rw [← hconv]
      cases verdict with
      | quit => cases h
      | refuse => exact ⟨_, appendToolResult_spec (answered_adds h)⟩
      | allow =>
          have hrun := runCommand_conversation command q
          dsimp only at h
          cases hq : runCommand command q with
          | mk outcome r =>
              rw [hq] at h hrun
              dsimp only at h hrun
              rw [← hrun]
              cases outcome with
              | failed error => exact ⟨_, appendToolResult_spec (answered_adds h)⟩
              | done typed output status =>
                  dsimp only at h
                  cases hreply : appendBoundedOutput call
                      (bytes "[command completed] exit status " ++ decimal status ++ bytes ". Output:")
                      output r.conversation modelOutputSize modelOutputSize with
                  | none =>
                      rw [hreply] at h
                      cases h
                  | some c =>
                      rw [hreply] at h
                      dsimp only [Progress.answered] at h
                      split at h
                      · cases h
                      · cases h
                        exact appendBoundedOutput_spec hreply

/-- The history is as it was, or the human says one thing more. -/
def Steered (c c' : Conversation) : Prop :=
  c' = c ∨ ∃ content, Adds c c' (textOf (textFields (bytes "user") content)) false

theorem user_adds {content : List Byte} {c c' : Conversation}
    (h : addTextMessage (bytes "user") content false c = some c') : Steered c c' := by
  have hrole : cString (bytes "user") = bytes "user" := by decide
  exact Or.inr ⟨cString content, hrole ▸ addTextMessage_spec h⟩

theorem tellSteering_steered {p p' : Progress} (h : tellSteering p = (true, p')) :
    Steered p.conversation p'.conversation := by
  unfold tellSteering at h
  dsimp only at h
  split at h
  · cases h
  split at h
  · cases h
    exact Or.inl rfl
  · exact user_adds (answered_adds h)

theorem addPendingRequestSteering_steered {p p' : Progress}
    (h : addPendingRequestSteering p = (true, p')) : Steered p.conversation p'.conversation := by
  unfold addPendingRequestSteering at h
  split at h
  · cases h
    exact Or.inl rfl
  dsimp only at h
  split at h
  · cases h
  split at h
  · cases h
    exact Or.inl rfl
  · exact user_adds (answered_adds h)

/-! ## Runs -/

variable (parse : List Byte → Option Value)

/-- Does the event drop a message? -/
def Drops : Event → Conversation → Prop
  | .failed _, _ => True
  | .new, _ => False
  | .force, _ => False
  | .exit, _ => False
  | _, c => Full c

/-- If a message has to go, it is not one that calls; and the calls of a reply have
different ids. -/
structure Safe (e : Event) (s : Session) : Prop where
  drop : Drops e s.progress.conversation →
    ∀ m ∈ oldestMessage s.progress.conversation, m.CallsNobody
  ids : ∀ typed body lines outcomes, e = .reply typed body lines outcomes →
    ∀ content calls, readResponse parse body = some (content, calls) →
      (calls.map ToolCall.id).Nodup

def callIds (calls : List ToolCall) : List (Option (List Byte)) := calls.map fun call => some call.id.bytes

theorem callIds_nodup {calls : List ToolCall} (h : (calls.map ToolCall.id).Nodup) :
    (callIds calls).Nodup := by
  have hmap : callIds calls = (calls.map ToolCall.id).map fun id => some id.bytes := by
    rw [List.map_map]
    rfl
  rw [hmap]
  refine h.map fun id id' heq => ?_
  cases id
  cases id'
  cases heq
  rfl

/-- The history between the rounds: blocks. -/
def Blocks (c : Conversation) : Prop := ∃ blocks, Shape c.messages blocks []

/-- The history while calls are still to be answered. -/
def Unanswered (c : Conversation) (calls : List ToolCall) : Prop :=
  ∃ blocks done, Shape c.messages blocks (underWay (done ++ callIds calls) done) ∧
    (done ++ callIds calls).Nodup ∧ done ++ callIds calls ≠ []

def Inv (s : Session) : Prop :=
  match s.control with
  | .ended => True
  | .calling _ calls => Unanswered s.progress.conversation calls
  | _ => Blocks s.progress.conversation

/-- A text that is added. -/
theorem Blocks.text {c c' : Conversation} {role content : List Byte} {system : Bool}
    (h : Blocks c) (hadds : Adds c c' (textOf (textFields role content)) system)
    (htool : role ≠ bytes "tool") (hassistant : role ≠ bytes "assistant")
    (hsafe : Full c → ∀ m ∈ oldestMessage c, m.CallsNobody) : Blocks c' := by
  obtain ⟨blocks, hshape⟩ := h
  obtain ⟨blocks', hshape'⟩ := hadds.shape hshape none_last hsafe
  rw [entryOf_text htool hassistant] at hshape'
  exact ⟨_, hshape'.text⟩

theorem Blocks.steered {c c' : Conversation} (h : Blocks c) (hs : Steered c c')
    (hsafe : Full c → ∀ m ∈ oldestMessage c, m.CallsNobody) : Blocks c' := by
  rcases hs with rfl | ⟨content, hadds⟩
  · exact h
  · exact h.text hadds (by decide) (by decide) hsafe

/-- A text from the prompt. -/
theorem Blocks.said {c c' : Conversation} {role content : List Byte} {system : Bool} (h : Blocks c)
    (hadd : addTextMessage role content system c = some c') (htool : cString role ≠ bytes "tool")
    (hassistant : cString role ≠ bytes "assistant")
    (hsafe : Full c → ∀ m ∈ oldestMessage c, m.CallsNobody) : Blocks c' :=
  h.text (addTextMessage_spec hadd) htool hassistant hsafe

/-- The reply of the assistant. -/
theorem Blocks.reply {c c' : Conversation} {content : Text maxLine} {calls : List ToolCall}
    (h : Blocks c) (hadd : addAssistantResponse content calls c = some c')
    (hnodup : (calls.map ToolCall.id).Nodup)
    (hsafe : Full c → ∀ m ∈ oldestMessage c, m.CallsNobody) :
    if calls = [] then Blocks c' else Unanswered c' calls := by
  obtain ⟨blocks, hshape⟩ := h
  obtain ⟨blocks', hshape'⟩ := (addAssistantResponse_spec hadd).shape hshape none_last hsafe
  rw [entryOf_assistant] at hshape'
  split
  next hnil =>
    subst hnil
    have hblock : Shape c'.messages (blocks' ++ [.exchange []]) [] :=
      Shape.exchange hshape' List.nodup_nil
    exact ⟨_, hblock⟩
  next hne =>
    exact ⟨blocks', [], hshape', callIds_nodup hnodup, fun hnil => hne (List.map_eq_nil_iff.mp hnil)⟩

/-- One call more is answered. -/
theorem Unanswered.call {c c' : Conversation} {call : ToolCall} {calls : List ToolCall}
    {content : List Byte} (h : Unanswered c (call :: calls))
    (hadds : Adds c c' (textOf (toolFields call content)) false)
    (hsafe : Full c → ∀ m ∈ oldestMessage c, m.CallsNobody) : Unanswered c' calls := by
  obtain ⟨blocks, done, hshape, hnodup, hne⟩ := h
  have happend : done ++ callIds (call :: calls) = done ++ [some call.id.bytes] ++ callIds calls := by
    rw [List.append_assoc]
    rfl
  obtain ⟨blocks', hshape'⟩ := hadds.shape hshape (underWay_last hne done) hsafe
  rw [entryOf_tool] at hshape'
  rw [happend] at hshape' hnodup hne
  refine ⟨blocks', done ++ [some call.id.bytes], ?_, hnodup, hne⟩
  have hresults : underWay (done ++ [some call.id.bytes] ++ callIds calls) done ++
      [(false, .result (some call.id.bytes))] =
      underWay (done ++ [some call.id.bytes] ++ callIds calls) (done ++ [some call.id.bytes]) := by
    simp [underWay, resultEntries]
  rwa [hresults] at hshape'

/-- All calls are answered. -/
theorem Unanswered.close {c : Conversation} (h : Unanswered c []) : Blocks c := by
  obtain ⟨blocks, done, hshape, hnodup, -⟩ := h
  have hids : done ++ callIds [] = done := List.append_nil done
  rw [hids] at hshape hnodup
  exact ⟨_, hshape.exchange hnodup⟩

theorem zero_notMem_systemPrompt : (0 : Byte) ∉ systemPrompt := by
  unfold systemPrompt
  decide +kernel

theorem conversationReset_blocks {settings : Settings} {c : Conversation}
    (h : conversationReset settings = some c) : Blocks c := by
  have hsystem : cString (bytes "system") = bytes "system" := by decide
  have hprompt : cString systemPrompt = systemPrompt := cString_self.mpr zero_notMem_systemPrompt
  unfold conversationReset at h
  rw [Option.bind_eq_bind] at h
  obtain ⟨c1, hadd, hrest⟩ := Option.bind_eq_some_iff.mp h
  obtain ⟨m, hmessages, hjson, hkept⟩ := addTextMessage_spec hadd
  rw [hsystem, hprompt] at hjson
  obtain ⟨hreadable, hentry⟩ := readable_textOf hjson
  rw [entryOf_text (by decide) (by decide)] at hentry
  have hblocks : Blocks c1 := by
    have hone : c1.messages = [m] := hmessages
    refine ⟨[], ⟨?_, ?_, nofun⟩⟩
    · rw [hone]
      exact List.forall_mem_singleton.mpr hreadable
    · rw [hone, List.map_singleton, Message.mark, hkept, hentry]
      rfl
  have hshort : ¬ Full c1 := by
    have hone : c1.messages = [m] := hmessages
    unfold Full
    rw [hone, List.length_singleton]
    decide
  cases hskills : settings.skills with
  | none =>
      rw [hskills] at hrest
      cases hrest
      exact hblocks
  | some text =>
      rw [hskills] at hrest
      exact hblocks.said hrest (hsystem ▸ by decide) (hsystem ▸ by decide) fun hfull => absurd hfull hshort

/-- A routine at the prompt that may not find room. -/
theorem added_inv {s : Session} (h : Blocks s.progress.conversation) (hs : s.control = .prompt)
    {control : Control} (hcontrol : ∀ round calls, control ≠ .calling round calls)
    {c : Option Conversation} (hc : ∀ c', c = some c' → Blocks c') : Inv (s.added control c) := by
  cases c with
  | none =>
      unfold Inv Session.added
      rw [hs]
      exact h
  | some c =>
      have hblocks : Blocks c := hc c rfl
      cases control with
      | calling round calls => exact absurd rfl (hcontrol round calls)
      | ended => trivial
      | _ => exact hblocks

theorem reset_inv (settings : Settings) (s : Session) : Inv (s.reset (conversationReset settings)) := by
  generalize hreset : conversationReset settings = reset
  cases reset with
  | none => trivial
  | some c => exact conversationReset_blocks hreset

theorem nextRound_inv {settings : Settings} {round : Nat} {p : Progress} (h : Blocks p.conversation) :
    Inv ⟨nextRound settings round, p⟩ := by
  unfold nextRound
  by_cases hlast : round + 1 = settings.maxToolRounds
  · rw [if_pos hlast]
    exact h
  · rw [if_neg hlast]
    exact h

/-- **One safe event.** -/
theorem step_inv {settings : Settings} {e : Event} {s t : Session} (h : Inv s) (hsafe : Safe parse e s)
    (hstep : step parse settings e s = .ok t) : Inv t := by
  obtain ⟨control, p⟩ := s
  have hdrop := hsafe.drop
  cases e with
  | user text =>
      cases control with
      | prompt =>
          cases hstep
          exact added_inv h rfl (fun _ _ heq => by cases heq) fun c' hc' =>
            Blocks.said h hc' (by decide) (by decide) hdrop
      | _ => cases hstep
  | new =>
      cases control with
      | prompt =>
          have ht := Except.ok.inj hstep
          rw [← ht]
          exact reset_inv settings ⟨.prompt, p⟩
      | _ => cases hstep
  | force =>
      cases control with
      | prompt =>
          cases hstep
          exact h
      | _ => cases hstep
  | skill body =>
      cases control with
      | prompt =>
          cases hstep
          exact added_inv h rfl (fun _ _ heq => by cases heq) fun c' hc' =>
            Blocks.said h hc' (by decide) (by decide) hdrop
      | _ => cases hstep
  | exit =>
      cases control with
      | prompt =>
          cases hstep
          trivial
      | _ => cases hstep
  | failed typed =>
      cases control with
      | asking round =>
          obtain ⟨blocks, hshape⟩ := h
          obtain ⟨blocks', hshape'⟩ := dropOldest_shape hshape none_last (hdrop trivial)
          dsimp only [step] at hstep
          split at hstep
          · cases hstep
            trivial
          · by_cases hround : round = 0
            · rw [if_pos hround] at hstep
              cases hstep
              exact ⟨blocks', hshape'⟩
            · rw [if_neg hround] at hstep
              cases hstep
              exact ⟨blocks', hshape'⟩
      | _ => cases hstep
  | reply typed body lines outcomes =>
      cases control with
      | asking round =>
          dsimp only [step] at hstep
          cases hread : readResponse parse body with
          | none =>
              rw [hread] at hstep
              cases hstep
              trivial
          | some r =>
              obtain ⟨content, calls⟩ := r
              rw [hread] at hstep
              dsimp only at hstep
              cases hadd : addAssistantResponse content calls p.conversation with
              | none =>
                  have hadd' : addAssistantResponse content calls (p.typed typed).conversation = none :=
                    hadd
                  rw [hadd'] at hstep
                  cases hstep
                  trivial
              | some c =>
                  have hadd' : addAssistantResponse content calls (p.typed typed).conversation = some c :=
                    hadd
                  have hreply := Blocks.reply h hadd
                    (hsafe.ids typed body lines outcomes rfl content calls hread) hdrop
                  rw [hadd'] at hstep
                  dsimp only at hstep
                  by_cases hcalls : calls = []
                  · rw [if_pos hcalls] at hstep hreply
                    cases hstep
                    by_cases hround : round = 0
                    · rw [if_pos hround]
                      exact hreply
                    · rw [if_neg hround]
                      exact hreply
                  · rw [if_neg hcalls] at hstep hreply
                    cases hstep
                    exact hreply
      | _ => cases hstep
  | call =>
      cases control with
      | calling round calls =>
          cases calls with
          | nil => cases hstep
          | cons call calls =>
              dsimp only [step] at hstep
              cases hround : processToolCall call p with
              | mk goes p' =>
                  rw [hround] at hstep
                  cases goes with
                  | false =>
                      cases hstep
                      trivial
                  | true =>
                      cases hstep
                      obtain ⟨content, hadds⟩ := processToolCall_adds hround
                      exact Unanswered.call h hadds hdrop
      | _ => cases hstep
  | told =>
      cases control with
      | calling round calls =>
          cases calls with
          | cons call calls => cases hstep
          | nil =>
              dsimp only [step] at hstep
              cases htell : tellSteering p with
              | mk goes p' =>
                  rw [htell] at hstep
                  cases goes with
                  | false =>
                      cases hstep
                      trivial
                  | true =>
                      cases hstep
                      exact nextRound_inv
                        ((Unanswered.close h).steered (tellSteering_steered htell) hdrop)
      | _ => cases hstep
  | settled =>
      cases control with
      | settling =>
          dsimp only [step] at hstep
          cases hadd : addPendingRequestSteering p with
          | mk goes p' =>
              rw [hadd] at hstep
              cases goes with
              | false =>
                  cases hstep
                  trivial
              | true =>
                  cases hstep
                  exact Blocks.steered h (addPendingRequestSteering_steered hadd) hdrop
      | _ => cases hstep

/-- A history of blocks is sent as a well-formed request. -/
theorem Blocks.wellFormed {c : Conversation} (h : Blocks c) {model : Text maxModel}
    {request : Buffer maxRequest} (hbuild : buildRequest model c = some request) :
    ∃ v, decode request.data = some v ∧ WellFormed v := by
  obtain ⟨blocks, hshape⟩ := h
  obtain ⟨v, hdec, hmessages⟩ := buildRequest_decodes hshape.readable hbuild
  have hentries : (requestMessages v).map entryOf =
      Exchange.entries (.text true (some (bytes "system"), some systemPrompt) :: blocks) := by
    rw [hmessages, mark_entry, hshape.marks, List.append_nil]
    rfl
  refine ⟨v, hdec, ⟨?_, ?_⟩⟩
  · rw [hentries]
    rfl
  · rw [hentries]
    refine Exchange.paired_blocks fun ids hmem => ?_
    rcases List.mem_cons.mp hmem with hmem | hmem
    · cases hmem
    · exact hshape.distinct ids hmem

/-- The array has room, and the ids of a reply are different. -/
def testSafe (e : Event) (s : Session) : Bool :=
  match e with
  | .failed _ => false
  | .reply _ body _ _ =>
      s.progress.conversation.messages.length ≠ maxMessages &&
        match readResponse decode body with
        | none => true
        | some (_, calls) => decide (calls.map ToolCall.id).Nodup
  | _ => s.progress.conversation.messages.length ≠ maxMessages

theorem safe_of_testSafe (e : Event) (s : Session) (h : testSafe e s = true) : Safe decode e s := by
  have hshort (hlen : s.progress.conversation.messages.length ≠ maxMessages)
      (hfull : Full s.progress.conversation) :
      ∀ m ∈ oldestMessage s.progress.conversation, m.CallsNobody := absurd hfull hlen
  cases e with
  | failed typed => cases h
  | new => exact ⟨nofun, nofun⟩
  | force => exact ⟨nofun, nofun⟩
  | exit => exact ⟨nofun, nofun⟩
  | reply typed body lines outcomes =>
      obtain ⟨hlen, hids⟩ := Bool.and_eq_true_iff.mp h
      refine ⟨hshort (of_decide_eq_true hlen), ?_⟩
      intro _ _ _ _ heq content calls hread
      cases heq
      rw [hread] at hids
      exact of_decide_eq_true hids
  | _ => exact ⟨hshort (of_decide_eq_true h), nofun⟩

def noSkills : Settings := ⟨none, 64⟩

def defaultModel : Text maxModel := ⟨bytes "glm-5.3-flash", by decide, by decide⟩

/-- A reply that calls `ls` once. -/
def lsReply : List Byte :=
  bytes "\x7b\"choices\":[\x7b\"message\":\x7b\"content\":null,\"tool_calls\":[\x7b\"id\":\"call-1\"," ++
    bytes "\"function\":\x7b\"name\":\"run_terminal_command\"," ++
    bytes "\"arguments\":\"\x7b\\\"command\\\":\\\"ls\\\"\x7d\"\x7d\x7d]\x7d\x7d]\x7d"

/-- One round: the command is allowed and runs. -/
def oneRound : List Event :=
  [.user (bytes "hello"), .reply [] lsReply [bytes "a"] [.done [] (bytes "src") 0], .call, .told]

/-- A request is about to be sent. -/
def asks (s : Session) (p : Value → Bool) : Bool :=
  match s.control, buildRequest defaultModel s.progress.conversation with
  | .asking _, some request => ((decode request.data).map p).getD false
  | _, _ => false

theorem asks_request {s : Session} {p : Value → Bool} (h : asks s p = true) :
    ∃ round request v, s.control = .asking round ∧
      buildRequest defaultModel s.progress.conversation = some request ∧
      decode request.data = some v ∧ p v = true := by
  unfold asks at h
  cases hcontrol : s.control with
  | asking round =>
      cases hbuild : buildRequest defaultModel s.progress.conversation with
      | none =>
          rw [hcontrol, hbuild] at h
          cases h
      | some request =>
          rw [hcontrol, hbuild] at h
          dsimp only at h
          cases hdec : decode request.data with
          | none =>
              rw [hdec] at h
              cases h
          | some v =>
              rw [hdec] at h
              exact ⟨round, request, v, rfl, rfl, hdec, h⟩
  | _ =>
      rw [hcontrol] at h
      cases h

/-- The history that a session starts with. -/
def promptOnly : Conversation where
  messages := [⟨textOf (textFields (bytes "system") systemPrompt), true, by decide +kernel⟩]
  few := by decide

theorem conversationReset_noSkills : conversationReset noSkills = some promptOnly := by
  have hsystem : cString (bytes "system") = bytes "system" := by decide
  have hprompt : cString systemPrompt = systemPrompt := cString_self.mpr zero_notMem_systemPrompt
  have hfits : (textOf (textFields (cString (bytes "system")) (cString systemPrompt))).length ≤
      messageSize := by
    rw [hsystem, hprompt]
    exact (promptOnly.messages.head nofun).fits
  have hadd : addTextMessage (bytes "system") systemPrompt true noMessages =
      some (noMessages.store ⟨_, true, hfits⟩ (by decide)) := addTextMessage_fits hfits (by decide)
  unfold conversationReset
  rw [hadd, Option.bind_eq_bind, Option.bind_some]
  simp only [noSkills, promptOnly, Conversation.store, noMessages, hsystem, hprompt, List.nil_append]

/-- Two requests fail: the first drops what the human said, the second the call. -/
def twoFailures : List Event := oneRound ++ [.failed [], .failed []]

/-- Behind the system prompt comes a result. -/
def orphan (request : Value) : Bool :=
  match (requestMessages request).map entryOf with
  | [_, .result _] => true
  | _ => false

theorem not_wellFormed_of_orphan {request : Value} (h : orphan request = true) :
    ¬ WellFormed request := by
  intro hwell
  obtain ⟨hfirst, hpreceded, -⟩ := hwell
  unfold orphan at h
  split at h
  next e id hentries =>
    rw [hentries] at hfirst hpreceded
    obtain ⟨ids, hmem, -⟩ := hpreceded [e] id [] rfl
    cases Option.some.inj hfirst
    cases List.mem_singleton.mp hmem
  · cases h

end Agent
