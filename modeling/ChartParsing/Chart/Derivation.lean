import ChartParsing.Chart.Inside

/-!
# Reading a derivation off a chart

The choices kept in the cells of an inside chart lead from a closed constituent
down to the words.
-/

namespace ChartParsing

namespace Closing

variable {σ : Type}

/-- The label of the constituent below the unary step. -/
def base (label : LabelId) : Closing σ → LabelId
  | .asBuilt => label
  | .byChain chain => chain.child

/-- The labels of the nodes that the unary step puts on top, from the top
down. -/
def above : Closing σ → List LabelId
  | .asBuilt => []
  | .byChain chain => chain.path.dropLast

end Closing

/-- A tree below a column of single nodes, given from the top down. -/
def Tree.under (column : List String) (tree : Tree String) : Tree String :=
  column.foldr (fun label below => .node label [below]) tree

namespace Pass

variable {σ : Type} [Score σ]

/-- The derivation of a label over a span that the closed cell and those below it
have chosen, if none of them is empty. -/
def derivation? (pass : Pass σ) (chart : InsideChart σ) (label : LabelId)
    (start stop : Nat) : Option (Tree String) :=
  let name := pass.model.grammar.labels.name
  match (chart.closed label start stop).choice with
  | none => none
  | some closing =>
      let base := closing.base label
      let column := closing.above.map name
      match (chart.built base start stop).choice with
      | none => none
      | some .word =>
          let word := .leaf (pass.words.getD start "")
          some (Tree.under column (.node (name base) [word]))
      | some (.split rule middle) =>
          if _inside : start < middle ∧ middle < stop then do
            let left ← pass.derivation? chart rule.left start middle
            let right ← pass.derivation? chart rule.right middle stop
            return Tree.under column (.node (name base) [left, right])
          else none
termination_by stop - start

end Pass

end ChartParsing
