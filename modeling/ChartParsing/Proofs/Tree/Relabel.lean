import ChartParsing.Proofs.Tree.Placed

/-!
# Renaming labels

`Tree.relabel` renames the inner nodes of a tree and leaves its words alone, so every
node keeps its place, its words and the number of its children.
-/

namespace ChartParsing

mutual

/-- Rename the labels of the inner nodes of a tree. -/
def Tree.relabel (rename : String → String) : Tree String → Tree String
  | .node word [] => .node word []
  | .node label (first :: rest) =>
      .node (rename label) (first.relabel rename :: Forest.relabel rename rest)

/-- Rename the labels of the inner nodes of a forest. -/
def Forest.relabel (rename : String → String) : Forest String → Forest String
  | [] => []
  | first :: rest => first.relabel rename :: Forest.relabel rename rest

end

mutual

theorem Tree.leaves_relabel (rename : String → String) :
    (tree : Tree String) → (tree.relabel rename).leaves = tree.leaves
  | .node word [] => rfl
  | .node label (first :: rest) => by
      rw [Tree.relabel, Tree.leaves, Tree.leaves, Tree.leaves_relabel rename first,
        Forest.leaves_relabel rename rest]

theorem Forest.leaves_relabel (rename : String → String) :
    (forest : Forest String) →
      Forest.leaves (Forest.relabel rename forest) = Forest.leaves forest
  | [] => rfl
  | first :: rest => by
      rw [Forest.relabel, Forest.leaves, Forest.leaves, Tree.leaves_relabel rename first,
        Forest.leaves_relabel rename rest]

end

namespace Tree

variable {rename : String → String} {tree : Tree String}

theorem isLeaf_relabel : (tree.relabel rename).isLeaf = tree.isLeaf := by
  rcases tree with ⟨label, children⟩
  cases children <;> rfl

theorem label_relabel (inner : tree.isLeaf = false) :
    (tree.relabel rename).label = rename tree.label := by
  rcases tree with ⟨label, children⟩
  cases children with
  | nil => cases inner
  | cons first rest => rfl

theorem relabel_node {children : Forest String} (label : String)
    (nonempty : children ≠ []) :
    (node label children).relabel rename =
      node (rename label) (Forest.relabel rename children) := by
  cases children with
  | nil => contradiction
  | cons first rest => rfl

theorem isUnaryStep_relabel : (tree.relabel rename).isUnaryStep = tree.isUnaryStep := by
  rcases tree with ⟨label, children⟩
  match children with
  | [] => rfl
  | [child] => exact congrArg not isLeaf_relabel
  | _ :: _ :: _ => rfl

end Tree

mutual

/-- Renaming moves no node. -/
theorem Tree.mem_placed_relabel (rename : String → String) {place : Nat}
    {node : Tree String} :
    (tree : Tree String) → (start : Nat) → (place, node) ∈ tree.placed start →
      (place, node.relabel rename) ∈ (tree.relabel rename).placed start
  | .node word [], start, member => by
      rcases Prod.mk.inj (Tree.mem_placed_leaf.mp member) with ⟨rfl, rfl⟩
      exact Tree.self_mem_placed place _
  | .node label (first :: rest), start, member => by
      rcases List.mem_cons.mp member with same | below
      · rcases Prod.mk.inj same with ⟨rfl, rfl⟩
        exact Tree.self_mem_placed place _
      · exact List.mem_cons_of_mem _
          (Forest.mem_placed_relabel rename (first :: rest) start below)

theorem Forest.mem_placed_relabel (rename : String → String) {place : Nat}
    {node : Tree String} :
    (forest : Forest String) → (start : Nat) → (place, node) ∈ Forest.placed start forest →
      (place, node.relabel rename) ∈ Forest.placed start (Forest.relabel rename forest)
  | [], start, member => nomatch member
  | first :: rest, start, member => by
      rw [Forest.relabel, Forest.placed, Tree.leaves_relabel]
      rcases List.mem_append.mp member with here | later
      · exact List.mem_append_left _ (Tree.mem_placed_relabel rename first start here)
      · exact List.mem_append_right _ (Forest.mem_placed_relabel rename rest _ later)

end

end ChartParsing
