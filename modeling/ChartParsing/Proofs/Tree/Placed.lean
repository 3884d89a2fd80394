import ChartParsing.Chart.Derivation
import ChartParsing.Tree.Basic

/-!
# Nodes in their places

`Tree.placed` lists the nodes of a tree together with the number of words to the
left of each, so that a node says which words of a sentence it covers: those from
its place on, as many as it has leaves.

A column of single nodes over a tree covers the same words as the tree, and its
nodes all have the same place.
-/

namespace ChartParsing

variable {α : Type}

mutual

/-- Every node of a tree in preorder, leaves included, each with the place of its
first word if the first word of the tree has the place `start`. -/
def Tree.placed (start : Nat) : Tree α → List (Nat × Tree α)
  | .node label children =>
      (start, .node label children) :: Forest.placed start children

/-- Every node of a forest in preorder, each with the place of its first word. -/
def Forest.placed (start : Nat) : Forest α → List (Nat × Tree α)
  | [] => []
  | first :: rest =>
      first.placed start ++ Forest.placed (start + first.leaves.length) rest

end

namespace Tree

/-- Whether a node has a single child that is not a word. -/
def isUnaryStep : Tree α → Bool
  | .node _ [child] => !child.isLeaf
  | _ => false

/-! ## The three shapes of a derivation -/

@[simp]
theorem leaves_leaf (word : α) : (leaf word).leaves = [word] :=
  rfl

@[simp]
theorem leaves_single (label : α) (child : Tree α) :
    (node label [child]).leaves = child.leaves := by
  simp [leaves, Forest.leaves]

@[simp]
theorem leaves_pair (label : α) (left right : Tree α) :
    (node label [left, right]).leaves = left.leaves ++ right.leaves := by
  simp [leaves, Forest.leaves]

theorem mem_placed_leaf {start place : Nat} {word : α} {tree : Tree α} :
    (place, tree) ∈ (leaf word).placed start ↔ (place, tree) = (start, leaf word) := by
  simp [leaf, placed, Forest.placed]

theorem mem_placed_single {start place : Nat} {label : α} {child tree : Tree α} :
    (place, tree) ∈ (node label [child]).placed start ↔
      (place, tree) = (start, node label [child]) ∨
        (place, tree) ∈ child.placed start := by
  simp [placed, Forest.placed]

theorem mem_placed_pair {start place : Nat} {label : α} {left right tree : Tree α} :
    (place, tree) ∈ (node label [left, right]).placed start ↔
      (place, tree) = (start, node label [left, right]) ∨
        (place, tree) ∈ left.placed start ∨
          (place, tree) ∈ right.placed (start + left.leaves.length) := by
  simp [placed, Forest.placed]

/-- A tree is one of its own nodes. -/
theorem self_mem_placed (start : Nat) (tree : Tree α) :
    (start, tree) ∈ tree.placed start := by
  cases tree
  exact List.mem_cons_self

/-! ## Columns -/

@[simp]
theorem under_cons (label : String) (column : List String) (tree : Tree String) :
    under (label :: column) tree = .node label [under column tree] :=
  rfl

@[simp]
theorem leaves_under (column : List String) (tree : Tree String) :
    (under column tree).leaves = tree.leaves := by
  induction column with
  | nil => rfl
  | cons label rest inductionHypothesis =>
      rw [under_cons, leaves_single, inductionHypothesis]

theorem isLeaf_under {column : List String} {tree : Tree String}
    (inner : tree.isLeaf = false) : (under column tree).isLeaf = false := by
  cases column with
  | nil => exact inner
  | cons label rest => rfl

/-- What lies in a tree below a column keeps its place. -/
theorem mem_placed_under {start place : Nat} {column : List String}
    {tree node : Tree String} (member : (place, node) ∈ tree.placed start) :
    (place, node) ∈ (under column tree).placed start := by
  induction column with
  | nil => exact member
  | cons label rest inductionHypothesis =>
      exact mem_placed_single.mpr (Or.inr inductionHypothesis)

end Tree

end ChartParsing
