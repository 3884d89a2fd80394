import Mathlib.Algebra.Ring.Parity
import Mathlib.Data.Nat.Choose.Basic
import ChartParsing.Chart.Table

/-!
# Cells have slots of their own

Under both layouts the index of a valid cell lies within the table
(`ChartShape.Valid.index_lt_slots`) and no two valid cells share one
(`ChartShape.Valid.index_injective`), so that a table holds in each cell what has been put
there last (`Table.getD_set`).  The triangular layout has no slot without a cell
(`ChartShape.exists_valid_index_eq`).
-/

namespace ChartParsing

/-- How many spans leave out fewer than `missing` words. -/
def triangle (missing : Nat) : Nat :=
  missing * (missing + 1) / 2

theorem triangle_succ (missing : Nat) :
    triangle (missing + 1) = triangle missing + (missing + 1) := by
  have twice := Nat.triangle_succ (missing + 1)
  simp only [Nat.add_sub_cancel] at twice
  rw [triangle, triangle, Nat.mul_comm missing, Nat.mul_comm (missing + 1)]
  exact twice

theorem triangle_le_triangle {fewer more : Nat} (le : fewer ≤ more) :
    triangle fewer ≤ triangle more := by
  induction le with
  | refl => exact Nat.le_refl _
  | step _ inductionHypothesis =>
      rw [triangle_succ]
      exact Nat.le_add_right_of_le inductionHypothesis

/-- The spans that leave out more words come behind all of those that leave out fewer. -/
theorem triangle_add_lt {fewer more start : Nat} (bounded : start ≤ fewer) (lt : fewer < more) :
    triangle fewer + start < triangle more := by
  have next := triangle_le_triangle (Nat.succ_le_of_lt lt)
  rw [triangle_succ] at next
  omega

/-- A number is a number of words left out and a start in one way only. -/
theorem triangle_add_injective {fewer more start other : Nat} (bounded : start ≤ fewer)
    (otherBounded : other ≤ more) (same : triangle fewer + start = triangle more + other) :
    fewer = more ∧ start = other := by
  rcases Nat.lt_trichotomy fewer more with lt | rfl | gt
  · have before := triangle_add_lt bounded lt
    omega
  · exact ⟨rfl, Nat.add_left_cancel same⟩
  · have behind := triangle_add_lt otherBounded gt
    omega

/-- Every number is a number of words left out and a start. -/
theorem exists_triangle_add_eq (position : Nat) :
    ∃ missing start, start ≤ missing ∧ triangle missing + start = position := by
  induction position with
  | zero => exact ⟨0, 0, Nat.le_refl 0, rfl⟩
  | succ position inductionHypothesis =>
      rcases inductionHypothesis with ⟨missing, start, bounded, rfl⟩
      rcases Nat.lt_or_eq_of_le bounded with inside | rfl
      · exact ⟨missing, start + 1, inside, rfl⟩
      · exact ⟨start + 1, 0, Nat.zero_le _, triangle_succ start⟩

/-- Digits below a base are determined by the number that they make up. -/
theorem mul_add_injective {base high low otherHigh otherLow : Nat} (bounded : low < base)
    (otherBounded : otherLow < base)
    (same : high * base + low = otherHigh * base + otherLow) :
    high = otherHigh ∧ low = otherLow := by
  have positive := Nat.zero_lt_of_lt bounded
  have lows := congrArg (· % base) same
  have highs := congrArg (· / base) same
  simp only [Nat.mul_add_mod', Nat.mod_eq_of_lt bounded, Nat.mod_eq_of_lt otherBounded] at lows
  simp only [Nat.add_comm (_ * base), Nat.add_mul_div_right _ _ positive,
    Nat.div_eq_of_lt bounded, Nat.div_eq_of_lt otherBounded, Nat.zero_add] at highs
  exact ⟨highs, lows⟩

theorem mul_add_lt {base high low bound : Nat} (inside : high < bound) (bounded : low < base) :
    high * base + low < bound * base :=
  calc
    high * base + low < high * base + base := Nat.add_lt_add_left bounded _
    _ = (high + 1) * base := (Nat.succ_mul high base).symm
    _ ≤ bound * base := Nat.mul_le_mul_right base inside

namespace ChartShape

variable {layout : ChartLayout} {labelCount length : Nat} {shape : ChartShape}
  {label other start right otherStart otherRight : Nat}

theorem slots_triangular :
    slots ⟨.triangular, labelCount, length⟩ = triangle length * labelCount := by
  have even : 2 ∣ length * (length + 1) := even_iff_two_dvd.mp (Nat.even_mul_succ_self length)
  rw [slots, triangle, Nat.mul_assoc, Nat.mul_comm labelCount, Nat.div_mul_right_comm even]

/-- The index of a valid cell lies within the table. -/
theorem Valid.index_lt_slots (valid : shape.Valid label start right) :
    shape.index label start right < shape.slots := by
  rcases shape with ⟨layout, labelCount, length⟩
  rcases valid with ⟨known, inside⟩
  cases layout with
  | triangular =>
      rw [slots_triangular]
      exact mul_add_lt (triangle_add_lt (Nat.le_add_right start right) inside) known
  | rectangular =>
      apply mul_add_lt _ (Nat.lt_of_le_of_lt (Nat.le_add_left right start) inside)
      exact mul_add_lt known (Nat.lt_of_le_of_lt (Nat.le_add_right start right) inside)

/-- No two valid cells have the same index. -/
theorem Valid.index_injective (valid : shape.Valid label start right)
    (otherValid : shape.Valid other otherStart otherRight)
    (same : shape.index label start right = shape.index other otherStart otherRight) :
    label = other ∧ start = otherStart ∧ right = otherRight := by
  rcases shape with ⟨layout, labelCount, length⟩
  rcases valid with ⟨known, inside⟩
  rcases otherValid with ⟨otherKnown, otherInside⟩
  cases layout with
  | triangular =>
      obtain ⟨spans, labels⟩ := mul_add_injective known otherKnown same
      obtain ⟨missing, starts⟩ := triangle_add_injective (Nat.le_add_right start right)
        (Nat.le_add_right otherStart otherRight) spans
      exact ⟨labels, starts, by omega⟩
  | rectangular =>
      obtain ⟨rows, rights⟩ := mul_add_injective
        (Nat.lt_of_le_of_lt (Nat.le_add_left right start) inside)
        (Nat.lt_of_le_of_lt (Nat.le_add_left otherRight otherStart) otherInside) same
      obtain ⟨labels, starts⟩ := mul_add_injective
        (Nat.lt_of_le_of_lt (Nat.le_add_right start right) inside)
        (Nat.lt_of_le_of_lt (Nat.le_add_right otherStart otherRight) otherInside) rows
      exact ⟨labels, starts, rights⟩

/-- Every slot of a triangular table belongs to a cell. -/
theorem exists_valid_index_eq {position : Nat}
    (inside : position < slots ⟨.triangular, labelCount, length⟩) :
    ∃ label start right, Valid ⟨.triangular, labelCount, length⟩ label start right ∧
      index ⟨.triangular, labelCount, length⟩ label start right = position := by
  rw [slots_triangular] at inside
  have positive : 0 < labelCount := Nat.pos_of_ne_zero fun none => by simp [none] at inside
  rcases exists_triangle_add_eq (position / labelCount) with ⟨missing, start, bounded, span⟩
  have whole : start + (missing - start) = missing := Nat.add_sub_cancel' bounded
  have before : position / labelCount < triangle length :=
    Nat.div_lt_of_lt_mul (Nat.mul_comm _ labelCount ▸ inside)
  refine ⟨position % labelCount, start, missing - start,
    ⟨Nat.mod_lt _ positive, ?_⟩, ?_⟩
  · change start + (missing - start) < length
    rw [whole]
    by_contra beyond
    have behind := triangle_le_triangle (Nat.le_of_not_lt beyond)
    omega
  · change (triangle (start + (missing - start)) + start) * labelCount + position % labelCount =
      position
    rw [whole, span, Nat.div_add_mod']

end ChartShape

namespace Table

variable {shape : ChartShape} {α : Type} {label other start right otherStart otherRight : Nat}

@[simp]
theorem getD_filled (value : α) (label start right : Nat) :
    (filled shape value).getD label start right value = value := by
  simp only [filled, getD, Vector.getD, Vector.replicate, Array.getD_eq_getD_getElem?,
    Array.getElem?_replicate]
  split <;> rfl

/-- A valid cell holds what has been put there last. -/
theorem getD_set {table : Table shape α} (valid : shape.Valid label start right)
    (otherValid : shape.Valid other otherStart otherRight) (value default : α) :
    (table.set label start right value).getD other otherStart otherRight default =
      if label = other ∧ start = otherStart ∧ right = otherRight then value
      else table.getD other otherStart otherRight default := by
  have own := valid.index_lt_slots
  simp only [set, getD, Vector.getD, Vector.setIfInBounds, Array.getD_eq_getD_getElem?]
  split
  · rename_i same
    rcases same with ⟨rfl, rfl, rfl⟩
    simp [own]
  · rename_i different
    have elsewhere : shape.index label start right ≠ shape.index other otherStart otherRight :=
      fun same => different (valid.index_injective otherValid same)
    simp [Array.getElem?_setIfInBounds_ne elsewhere]

end Table

end ChartParsing
