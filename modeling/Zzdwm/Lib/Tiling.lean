import Mathlib

/-!
# Spans that tile an interval

A list of spans of rows, one below the other, with a gap of fixed height below
each of them.

* `Tiles g lo spans hi` — the spans start at `lo`, and `hi` comes after the last gap;
* `tiles_append` — a tiling splits at every span;
* `Tiles.split`, `Tiles.merge` — a span and the two that it is divided into;
* `Tiles.border` — the border between two spans moves;
* `Tiles.length_le`, `Tiles.rows_le` — how many spans fit, and how high they are.
-/

namespace Tiling

/-- A span: its first row, and the number of its rows. -/
structure Span where
  top : Int
  rows : Int

/-- The spans start at one row, each follows the gap below the one before it, and
the other row follows the last gap. -/
def Tiles (g : Int) : Int → List Span → Int → Prop
  | lo, [], hi => lo = hi
  | lo, s :: ss, hi => s.top = lo ∧ Tiles g (lo + s.rows + g) ss hi

variable {g lo hi r : Int} {s t : Span} {ss ts : List Span}

@[simp] theorem tiles_nil : Tiles g lo [] hi ↔ lo = hi := Iff.rfl

@[simp] theorem tiles_cons :
    Tiles g lo (s :: ss) hi ↔ s.top = lo ∧ Tiles g (lo + s.rows + g) ss hi := Iff.rfl

/-- A tiling splits at every span. -/
theorem tiles_append :
    Tiles g lo (ss ++ ts) hi ↔ ∃ mid, Tiles g lo ss mid ∧ Tiles g mid ts hi := by
  induction ss generalizing lo with
  | nil => simp
  | cons s ss ih => simp [ih, and_assoc]

/-- What follows the middle of a tiling may be replaced. -/
theorem Tiles.replace {us : List Span} (h : Tiles g lo (ss ++ ts) hi)
    (hr : ∀ mid, Tiles g mid ts hi → Tiles g mid us hi) : Tiles g lo (ss ++ us) hi := by
  obtain ⟨mid, hss, hts⟩ := tiles_append.mp h
  exact tiles_append.mpr ⟨mid, hss, hr mid hts⟩

variable {a b : Span}

/-- Two spans take the place of one that is as high as the two and the gap between
them. -/
theorem Tiles.split (h : Tiles g lo (s :: ss) hi) (ha : a.top = s.top)
    (hb : b.top = s.top + a.rows + g) (hrows : s.rows = a.rows + g + b.rows) :
    Tiles g lo (a :: b :: ss) hi := by
  obtain ⟨htop, hss⟩ := h
  refine ⟨ha.trans htop, by omega, ?_⟩
  rwa [show lo + a.rows + g + b.rows + g = lo + s.rows + g by omega]

/-- One span takes the place of two. -/
theorem Tiles.merge (h : Tiles g lo (a :: b :: ss) hi) (ht : s.top = a.top)
    (hrows : s.rows = a.rows + g + b.rows) : Tiles g lo (s :: ss) hi := by
  obtain ⟨htop, -, hss⟩ := h
  refine ⟨ht.trans htop, ?_⟩
  rwa [show lo + s.rows + g = lo + a.rows + g + b.rows + g by omega]

/-- The border between two spans moves down. -/
theorem Tiles.border {d : Int} (h : Tiles g lo (a :: b :: ss) hi)
    (hs : s.top = a.top) (hsr : s.rows = a.rows + d)
    (ht : t.top = b.top + d) (htr : t.rows = b.rows - d) : Tiles g lo (s :: t :: ss) hi := by
  obtain ⟨hatop, hbtop, hss⟩ := h
  refine ⟨hs.trans hatop, by omega, ?_⟩
  rwa [show lo + s.rows + g + t.rows + g = lo + a.rows + g + b.rows + g by omega]

/-- Spans of at least some height fit only that often. -/
theorem Tiles.length_le (h : Tiles g lo ss hi) (hr : ∀ s ∈ ss, r ≤ s.rows) :
    lo + (r + g) * ss.length ≤ hi := by
  induction ss generalizing lo with
  | nil =>
      rw [tiles_nil] at h
      simp [h]
  | cons s ss ih =>
      have hs := hr s List.mem_cons_self
      have hss := ih h.2 fun s hs => hr s (List.mem_cons_of_mem _ hs)
      push_cast [List.length_cons]
      linarith

/-- Where no span and its gap reach up, none reaches past the end. -/
theorem Tiles.rows_le (h : Tiles g lo ss hi) (hr : ∀ s ∈ ss, 0 ≤ s.rows + g) :
    ∀ s ∈ ss, s.rows + g ≤ hi - lo := by
  induction ss generalizing lo with
  | nil => exact List.forall_mem_nil _
  | cons s ss ih =>
      obtain ⟨hs, hss⟩ := List.forall_mem_cons.mp hr
      have hlen := Tiles.length_le (r := -g) h.2 fun t ht => by have := hss t ht; omega
      rw [neg_add_cancel, zero_mul] at hlen
      refine List.forall_mem_cons.mpr ⟨by omega, fun t ht => ?_⟩
      have hle := ih h.2 hss t ht
      omega

end Tiling
