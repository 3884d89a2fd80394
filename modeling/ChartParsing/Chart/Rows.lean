/-!
# Tables filled row by row

The cells of a chart depend on cells of earlier rows only.  Such a table is
filled by computing each row from the rows before it; what a cell holds is then
given by one equation, in terms of the table as it stood before the cell's row.
-/

namespace ChartParsing

/-- Rows of cells. -/
structure Rows (α : Type) where
  rows : Array (Array α)

namespace Rows

variable {α : Type}

/-- The cell in a row and a column, or a default where there is none. -/
@[inline]
def getD (table : Rows α) (row column : Nat) (default : α) : α :=
  (table.rows.getD row #[]).getD column default

/-- The first `count` rows of a table.  A row has `width row` cells, and `cell`
computes a cell from the rows before its own, its row and its column. -/
@[specialize]
def fill (width : Nat → Nat) (cell : Rows α → Nat → Nat → α) : Nat → Rows α
  | 0 => ⟨#[]⟩
  | row + 1 =>
      let earlier := fill width cell row
      ⟨earlier.rows.push (Array.ofFn fun column : Fin (width row) =>
        cell earlier row column)⟩

variable (width : Nat → Nat) (cell : Rows α → Nat → Nat → α)

@[simp]
theorem size_rows_fill (count : Nat) :
    (fill width cell count).rows.size = count := by
  induction count with
  | zero => rfl
  | succ row inductionHypothesis => simp [fill, inductionHypothesis]

/-- Later rows leave a cell as it was when its row had been filled. -/
theorem getD_fill_succ {row count : Nat} (column : Nat) (default : α)
    (filled : row < count) :
    (fill width cell (count + 1)).getD row column default =
      (fill width cell count).getD row column default := by
  simp only [getD, fill, Array.getD_eq_getD_getElem?, Array.getElem?_push,
    size_rows_fill, Nat.ne_of_lt filled, if_false]

/-- A cell reads the same in every table that has its row. -/
theorem getD_fill_of_lt {row count : Nat} (column : Nat) (default : α)
    (filled : row < count) :
    (fill width cell count).getD row column default =
      (fill width cell (row + 1)).getD row column default := by
  induction count with
  | zero => exact absurd filled (Nat.not_lt_zero row)
  | succ last inductionHypothesis =>
      rcases Nat.lt_succ_iff_lt_or_eq.mp filled with earlier | rfl
      · rw [getD_fill_succ width cell column default earlier,
          inductionHypothesis earlier]
      · rfl

/-- A cell holds what is computed for it from the rows before its own. -/
theorem getD_fill {row column count : Nat} (default : α) (filled : row < count)
    (inside : column < width row) :
    (fill width cell count).getD row column default =
      cell (fill width cell row) row column := by
  rw [getD_fill_of_lt width cell column default filled]
  simp only [getD, fill, Array.getD_eq_getD_getElem?, Array.getElem?_push,
    size_rows_fill, if_true]
  simp [inside]

/-- Behind the last row there is nothing. -/
theorem getD_fill_of_count_le {row count : Nat} (column : Nat) (default : α)
    (missing : count ≤ row) :
    (fill width cell count).getD row column default = default := by
  simp [getD, Array.getD_eq_getD_getElem?, missing]

/-- Behind the last cell of a row there is nothing. -/
theorem getD_fill_of_width_le {row column count : Nat} (default : α) (filled : row < count)
    (missing : width row ≤ column) :
    (fill width cell count).getD row column default = default := by
  rw [getD_fill_of_lt width cell column default filled]
  simp only [getD, fill, Array.getD_eq_getD_getElem?, Array.getElem?_push,
    size_rows_fill, if_true]
  simp [Nat.not_lt_of_le missing]

end Rows

end ChartParsing
