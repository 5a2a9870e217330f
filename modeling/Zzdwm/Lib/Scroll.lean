import Mathlib

/-!
# Terminals that insert and delete lines

A terminal is the list of its rows, from the top.  It inserts and deletes lines in a
scroll region, which is named by its first and its last row; blank rows fill the
gap, and rows outside of the region stay.

* `insl`, `dell` — insert and delete lines;
* `insl_append`, `dell_append` — what they do to rows that are known.
-/

namespace Scroll

variable {Row : Type}

/-- Insert `n` lines at row `row` of the region that ends with row `bot`. -/
def insl (blank : Row) (row bot n : Nat) (rows : List Row) : List Row :=
  rows.take row ++
    (List.replicate n blank ++ (rows.take (bot + 1)).drop row).take (bot + 1 - row) ++
      rows.drop (bot + 1)

/-- Delete `n` lines at row `row` of the region that ends with row `bot`. -/
def dell (blank : Row) (row bot n : Nat) (rows : List Row) : List Row :=
  rows.take row ++ (rows.take (bot + 1)).drop (row + n) ++
    List.replicate (min n (bot + 1 - row)) blank ++ rows.drop (bot + 1)

variable {above lines rest below : List Row} {blank : Row} {row bot n : Nat}

/-- Lines are inserted behind the rows `above`, and as many fall off the end. -/
theorem insl_append (hrow : above.length = row) (hbot : row + rest.length = bot + 1)
    (hn : n ≤ rest.length) :
    insl blank row bot n (above ++ (rest ++ below)) =
      above ++ (List.replicate n blank ++ rest.take (rest.length - n) ++ below) := by
  have hregion : (above ++ (rest ++ below)).take (bot + 1) = above ++ rest := by
    rw [← List.append_assoc, List.take_left' (by rw [List.length_append]; omega)]
  have hbelow : (above ++ (rest ++ below)).drop (bot + 1) = below := by
    rw [← List.append_assoc, List.drop_left' (by rw [List.length_append]; omega)]
  have hlen : bot + 1 - row = rest.length := by omega
  rw [insl, hregion, hbelow, List.take_left' hrow, List.drop_left' hrow, hlen, List.take_append,
    List.length_replicate, List.take_of_length_le (by rw [List.length_replicate]; exact hn)]
  simp only [List.append_assoc]

/-- Lines are deleted behind the rows `above`. -/
theorem dell_append (hrow : above.length = row) (hlines : lines.length = n)
    (hbot : row + (lines.length + rest.length) = bot + 1) :
    dell blank row bot n (above ++ (lines ++ (rest ++ below))) =
      above ++ (rest ++ List.replicate n blank ++ below) := by
  have hregion : (above ++ (lines ++ (rest ++ below))).take (bot + 1) = above ++ lines ++ rest := by
    rw [← List.append_assoc, ← List.append_assoc, List.take_left']
    simp only [List.length_append]
    omega
  have hbelow : (above ++ (lines ++ (rest ++ below))).drop (bot + 1) = below := by
    rw [← List.append_assoc, ← List.append_assoc, List.drop_left']
    simp only [List.length_append]
    omega
  have hmin : min n (bot + 1 - row) = n := by omega
  rw [dell, hregion, hbelow, List.take_left' hrow, hmin,
    List.drop_left' (by rw [List.length_append]; omega)]
  simp only [List.append_assoc]

/-- The row behind the rows `above` gets a new content. -/
theorem modify_append (hrow : above.length = row) (f : Row → Row) (old : Row) :
    (above ++ old :: below).modify row f = above ++ f old :: below := by
  subst hrow
  induction above with
  | nil => rfl
  | cons a above ih => simpa using ih

end Scroll
