import ChartParsing.Chart.Inside

/-!
# The cost of filling a chart

The work on a sentence is counted in edges: pairs of a binary rule and a place to
apply it.  An inside chart takes one edge for each rule and split of a cell that
is not pruned, and an outside chart one for each rule and each span beside the
cell.  A sweep charges them rule by rule, which comes to the same
(`Sweep.insideSpending_eq`, `Sweep.outsideSpending_eq`).
-/

namespace ChartParsing

/-- The spans of a sentence, as start and stop. -/
def spans (length : Nat) : List (Nat × Nat) :=
  (List.range length).flatMap fun start =>
    (List.range' (start + 1) (length - start)).map fun stop => (start, stop)

/-- The sum of a number for each of some places. -/
def sumOver {α : Type} (places : List α) (edges : α → Nat) : Nat :=
  places.foldr (fun place total => edges place + total) 0

variable {σ : Type}

/-- The edges of one built cell. -/
def Pass.cellCost (pass : Pass σ) (label : LabelId) (start stop : Nat) : Nat :=
  if pass.pruned .built label start stop then 0
  else
    (pass.model.grammar.byParent.rules label).length * (middles start stop).length

/-- The edges of the inside chart of a pass. -/
def Pass.cost (pass : Pass σ) : Nat :=
  let labels := pass.model.grammar.labels.ids
  sumOver (spans pass.words.length) fun (start, stop) =>
    sumOver labels fun label => pass.cellCost label start stop

/-- The edges of one cell of an outside chart. -/
def Grammar.contextCost (grammar : Grammar σ) (length : Nat) (label : LabelId)
    (start stop : Nat) : Nat :=
  (grammar.byRight.rules label).length * start +
    (grammar.byLeft.rules label).length * (length - stop)

/-- The edges of the outside chart of a sentence of `length` words. -/
def Grammar.outsideCost (grammar : Grammar σ) (length : Nat) : Nat :=
  sumOver (spans length) fun (start, stop) =>
    sumOver grammar.labels.ids fun label =>
      grammar.contextCost length label start stop

end ChartParsing
