import ChartParsing.Tree.Basic

/-!
# Bracketed text of a tree

A leaf is written as its label.  Any other tree is written as its label and its
children, one space before each child, between round brackets.  Labels are
written as they are: nothing is escaped.
-/

namespace ChartParsing

mutual

/-- The bracketed text of a tree. -/
def Tree.render : Tree String → String
  | .node label [] => label
  | .node label (first :: rest) =>
      "(" ++ label ++ " " ++ first.render ++ Forest.render rest ++ ")"

/-- The texts of the trees of a forest, each after one space. -/
def Forest.render : Forest String → String
  | [] => ""
  | first :: rest => " " ++ first.render ++ Forest.render rest

end

@[simp]
theorem Tree.render_leaf (word : String) : (Tree.leaf word).render = word := by
  simp [Tree.render]

/-- An inner node is written between brackets. -/
theorem Tree.render_node {children : Forest String} (label : String)
    (nonempty : children ≠ []) :
    (Tree.node label children).render =
      "(" ++ label ++ Forest.render children ++ ")" := by
  cases children with
  | nil => exact absurd rfl nonempty
  | cons first rest => simp [Tree.render, Forest.render, String.append_assoc]

end ChartParsing
