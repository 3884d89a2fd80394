import ChartParsing.Vocabulary

/-!
# Flat chart tables

A table holds one value for each label and span.  A span is given by its start
and by how many words it leaves to its right, so that it is valid if together
they leave a word.  The cells lie one after the other in memory, in the order of
a layout, and a cell is addressed by a computed index.
-/

namespace ChartParsing

/-- How chart cells are laid out in memory. -/
inductive ChartLayout where
  /-- Cells grouped by how many words their span leaves out, then by its start,
  labels innermost.  No slot is wasted. -/
  | triangular
  /-- A full cube of labels, starts and words to the right, half of which is
  never touched. -/
  | rectangular
  deriving DecidableEq, Repr

/-- The layout of a table, over how many labels and words it is. -/
structure ChartShape where
  layout : ChartLayout
  labelCount : Nat
  length : Nat

namespace ChartShape

/-- How many cells a table has. -/
def slots (shape : ChartShape) : Nat :=
  match shape.layout with
  | .triangular => shape.labelCount * shape.length * (shape.length + 1) / 2
  | .rectangular => shape.labelCount * shape.length * shape.length

/-- Where the cell of a label lies, over the words from `start` up to the last
`right` ones. -/
@[inline]
def index (shape : ChartShape) (label : LabelId) (start right : Nat) : Nat :=
  match shape.layout with
  | .triangular =>
      let missing := start + right
      (missing * (missing + 1) / 2 + start) * shape.labelCount + label
  | .rectangular => (label * shape.length + start) * shape.length + right

/-- The labels and spans that a table is for. -/
structure Valid (shape : ChartShape) (label : LabelId) (start right : Nat) : Prop where
  known : label < shape.labelCount
  inside : start + right < shape.length

end ChartShape

/-- One value for each label and span. -/
structure Table (shape : ChartShape) (α : Type) where
  cells : Vector α shape.slots

namespace Table

variable {shape : ChartShape} {α : Type}

/-- The table that holds the same value everywhere. -/
def filled (shape : ChartShape) (value : α) : Table shape α :=
  ⟨.replicate shape.slots value⟩

/-- The value of a label over a span, or a default beyond the table. -/
@[inline]
def getD (table : Table shape α) (label : LabelId) (start right : Nat)
    (default : α) : α :=
  table.cells.getD (shape.index label start right) default

/-- Put a value in the cell of a label over a span. -/
@[inline]
def set (table : Table shape α) (label : LabelId) (start right : Nat)
    (value : α) : Table shape α :=
  ⟨table.cells.setIfInBounds (shape.index label start right) value⟩

end Table

/-- The spans that leave out `missing` words, from the left, as start and number
of words to the right. -/
def spansLeavingOut (missing : Nat) : List (Nat × Nat) :=
  (List.range (missing + 1)).map fun start => (start, missing - start)

end ChartParsing
