import Mathlib

/-!
# Transcripts of calls and results

A transcript is a list of entries: texts, calls (each of several parties, by their
names) and results of single calls.  It is *paired* if every result has its call before
it and every call that is not the last entry has exactly one result for each of its
names, before the next call.

A transcript that is put together from blocks, a text or a call with all its results,
is paired.  Each entry carries a mark that says whether it is kept when the oldest
entry has to go; what goes may be a text, or a call of nobody, but not a call alone.

* `Paired`, `paired_blocks` — the transcripts of blocks;
* `eraseP_blocks` — dropping the oldest entry that is not kept.
-/

namespace Exchange

variable {ι τ : Type}

inductive Entry (ι τ : Type)
  | text (t : τ)
  | call (ids : List ι)
  | result (id : ι)

def Entry.isCall : Entry ι τ → Bool
  | .call _ => true
  | _ => false

def Entry.resultOf : Entry ι τ → Option ι
  | .result id => some id
  | _ => none

/-- The results before the next call. -/
def results (l : List (Entry ι τ)) : List ι := (l.takeWhile fun e => !e.isCall).filterMap Entry.resultOf

structure Paired [BEq ι] (l : List (Entry ι τ)) : Prop where
  preceded : ∀ before id after, l = before ++ .result id :: after →
    ∃ ids, .call ids ∈ before ∧ id ∈ ids
  answered : ∀ before ids after, l = before ++ .call ids :: after → after ≠ [] →
    ∀ id ∈ ids, (results after).count id = 1

/-- A text, kept or not, or a call with its results. -/
inductive Block (ι τ : Type)
  | text (keep : Bool) (t : τ)
  | exchange (ids : List ι)

/-- The results of a call, in the order of its names. -/
def resultEntries (ids : List ι) : List (Bool × Entry ι τ) := ids.map fun id => (false, .result id)

def Block.marked : Block ι τ → List (Bool × Entry ι τ)
  | .text keep t => [(keep, .text t)]
  | .exchange ids => (false, .call ids) :: resultEntries ids

def marked (blocks : List (Block ι τ)) : List (Bool × Entry ι τ) := blocks.flatMap Block.marked

def entries (blocks : List (Block ι τ)) : List (Entry ι τ) := (marked blocks).map Prod.snd

/-- No call has a name twice. -/
def Distinct (blocks : List (Block ι τ)) : Prop := ∀ ids, Block.exchange ids ∈ blocks → ids.Nodup

theorem Distinct.tail {b : Block ι τ} {blocks : List (Block ι τ)} (h : Distinct (b :: blocks)) :
    Distinct blocks := fun ids hmem => h ids (List.mem_cons_of_mem _ hmem)

@[simp] theorem marked_append (blocks later : List (Block ι τ)) :
    marked (blocks ++ later) = marked blocks ++ marked later := List.flatMap_append

@[simp] theorem marked_cons (b : Block ι τ) (blocks : List (Block ι τ)) :
    marked (b :: blocks) = b.marked ++ marked blocks := List.flatMap_cons

@[simp] theorem marked_nil : marked ([] : List (Block ι τ)) = [] := rfl

theorem entries_text (keep : Bool) (t : τ) (blocks : List (Block ι τ)) :
    entries (.text keep t :: blocks) = .text t :: entries blocks := rfl

theorem entries_exchange (ids : List ι) (blocks : List (Block ι τ)) :
    entries (.exchange ids :: blocks) = .call ids :: (ids.map .result ++ entries blocks) := by
  simp [entries, Block.marked, resultEntries, Function.comp_def]

/-- Between the blocks there is no result left over. -/
theorem results_entries (blocks : List (Block ι τ)) : results (entries blocks) = [] := by
  induction blocks with
  | nil => rfl
  | cons b blocks ih =>
      cases b with
      | text keep t => exact ih
      | exchange ids => rw [entries_exchange]; rfl

theorem results_map_result (ids : List ι) (l : List (Entry ι τ)) :
    results (ids.map .result ++ l) = ids ++ results l := by
  induction ids with
  | nil => rfl
  | cons id ids ih => exact congrArg (id :: ·) ih

theorem preceded_entries (blocks : List (Block ι τ)) (before : List (Entry ι τ)) (id : ι)
    (after : List (Entry ι τ)) (h : entries blocks = before ++ .result id :: after) :
    ∃ ids, Entry.call ids ∈ before ∧ id ∈ ids := by
  induction blocks generalizing before with
  | nil => exact absurd h.symm (by simp [entries])
  | cons b blocks ih =>
      cases b with
      | text keep t =>
          rw [entries_text] at h
          cases before with
          | nil => cases h
          | cons e before =>
              obtain ⟨rfl, htail⟩ := List.cons.inj h
              obtain ⟨ids, hmem, hid⟩ := ih before htail
              exact ⟨ids, List.mem_cons_of_mem _ hmem, hid⟩
      | exchange ids =>
          rw [entries_exchange] at h
          cases before with
          | nil => cases h
          | cons e before =>
              obtain ⟨rfl, htail⟩ := List.cons.inj h
              rcases List.append_eq_append_iff.mp htail with ⟨rest, rfl, hrest⟩ | ⟨rest, hids, hrest⟩
              · -- the result is in a later block
                obtain ⟨ids', hmem, hid⟩ := ih rest hrest
                exact ⟨ids', List.mem_cons_of_mem _ (List.mem_append_right _ hmem), hid⟩
              · cases rest with
                | nil =>
                    rw [List.nil_append] at hrest
                    obtain ⟨ids', hmem, -⟩ := ih [] hrest.symm
                    cases hmem
                | cons e rest =>
                    obtain ⟨rfl, -⟩ := List.cons.inj hrest
                    have hid : (Entry.result id : Entry ι τ) ∈ ids.map Entry.result := by simp [hids]
                    obtain ⟨id', hid', heq⟩ := List.mem_map.mp hid
                    cases heq
                    exact ⟨ids, List.mem_cons_self, hid'⟩

theorem answered_entries [BEq ι] [LawfulBEq ι] (blocks : List (Block ι τ)) (hd : Distinct blocks)
    (before : List (Entry ι τ)) (ids : List ι) (after : List (Entry ι τ))
    (h : entries blocks = before ++ .call ids :: after) : ∀ id ∈ ids, (results after).count id = 1 := by
  induction blocks generalizing before with
  | nil => exact absurd h.symm (by simp [entries])
  | cons b blocks ih =>
      cases b with
      | text keep t =>
          rw [entries_text] at h
          cases before with
          | nil => cases h
          | cons e before => exact ih hd.tail before (List.cons.inj h).2
      | exchange ids' =>
          rw [entries_exchange] at h
          cases before with
          | nil =>
              cases h
              intro id hid
              rw [results_map_result, results_entries, List.append_nil]
              exact List.count_eq_one_of_mem (hd ids List.mem_cons_self) hid
          | cons e before =>
              obtain ⟨rfl, htail⟩ := List.cons.inj h
              rcases List.append_eq_append_iff.mp htail with ⟨rest, rfl, hrest⟩ | ⟨rest, hids, hrest⟩
              · exact ih hd.tail rest hrest
              · cases rest with
                | nil => exact ih hd.tail [] hrest.symm
                | cons e rest =>
                    obtain ⟨rfl, -⟩ := List.cons.inj hrest
                    have hcall : (Entry.call ids : Entry ι τ) ∈ ids'.map Entry.result := by simp [hids]
                    obtain ⟨id', -, heq⟩ := List.mem_map.mp hcall
                    cases heq

/-- **A transcript of blocks is paired.** -/
theorem paired_blocks [BEq ι] [LawfulBEq ι] {blocks : List (Block ι τ)} (hd : Distinct blocks) :
    Paired (entries blocks) :=
  ⟨preceded_entries blocks, fun before ids after h _ => answered_entries blocks hd before ids after h⟩

/-! ## Dropping the oldest entry -/

/-- Is the entry one that may go? -/
def unkept (e : Bool × Entry ι τ) : Bool := !e.1

/-- **The oldest entry goes.**  If it calls nobody, blocks stay behind: those there were,
less one. -/
theorem eraseP_blocks (blocks : List (Block ι τ)) (last : List (Bool × Entry ι τ))
    (hlast : ∀ e ∈ last.head?, ∃ ids, e = (false, Entry.call ids) ∧ ids ≠ [])
    (hfind : ∀ ids, (marked blocks ++ last).find? unkept = some (false, .call ids) → ids = []) :
    ∃ blocks', blocks'.Sublist blocks ∧ (marked blocks ++ last).eraseP unkept = marked blocks' ++ last := by
  induction blocks with
  | nil =>
      cases last with
      | nil => exact ⟨[], List.Sublist.refl _, rfl⟩
      | cons e last =>
          obtain ⟨ids, rfl, hne⟩ := hlast e rfl
          exact absurd (hfind ids rfl) hne
  | cons b blocks ih =>
      cases b with
      | text keep t =>
          cases keep with
          | true =>
              obtain ⟨blocks', hsub, heq⟩ := ih hfind
              refine ⟨.text true t :: blocks', hsub.cons_cons _, ?_⟩
              exact congrArg ((true, Entry.text t) :: ·) heq
          | false => exact ⟨blocks, List.sublist_cons_self _ _, rfl⟩
      | exchange ids =>
          obtain rfl := hfind ids rfl
          exact ⟨blocks, List.sublist_cons_self _ _, rfl⟩

theorem Distinct.sublist {blocks blocks' : List (Block ι τ)} (h : Distinct blocks)
    (hsub : blocks'.Sublist blocks) : Distinct blocks' := fun ids hmem => h ids (hsub.subset hmem)

end Exchange
