/-!
# Labelled trees

A tree is a label over a list of trees.  Words are the leaves: nodes without
children.  Every function on trees comes with its companion on forests, and the
lemmas at the end of each section restate the companion through the list
library, so that later proofs see `flatMap`, `map` and `foldr` only.
-/

namespace ChartParsing

universe u v

/-- A label over the trees below it. -/
inductive Tree (α : Type u) where
  | node (label : α) (children : List (Tree α))
  deriving Repr

/-- A sequence of trees, such as the children of a node. -/
abbrev Forest (α : Type u) :=
  List (Tree α)

variable {α : Type u} {β : Type v}

namespace Tree

/-- A node without children. -/
@[match_pattern]
def leaf (label : α) : Tree α :=
  .node label []

/-- The label of the topmost node. -/
def label : Tree α → α
  | .node label _ => label

/-- The trees directly below the topmost node. -/
def children : Tree α → Forest α
  | .node _ children => children

/-- A leaf has no children. -/
def isLeaf (tree : Tree α) : Bool :=
  tree.children.isEmpty

/-- A preterminal has exactly one child, and that child is a leaf. -/
def isPreterminal : Tree α → Bool
  | .node _ [child] => child.isLeaf
  | _ => false

@[simp]
theorem label_node (label : α) (children : Forest α) :
    (node label children).label = label :=
  rfl

@[simp]
theorem children_node (label : α) (children : Forest α) :
    (node label children).children = children :=
  rfl

@[simp]
theorem isLeaf_leaf (label : α) : (leaf label).isLeaf = true :=
  rfl

@[simp]
theorem isLeaf_node_cons (label : α) (first : Tree α) (rest : Forest α) :
    (node label (first :: rest)).isLeaf = false :=
  rfl

end Tree

/-! ## Words -/

mutual

/-- The words of a tree, left to right. -/
def Tree.leaves : Tree α → List α
  | .node label [] => [label]
  | .node _ (first :: rest) => first.leaves ++ Forest.leaves rest

/-- The words of a forest, left to right. -/
def Forest.leaves : Forest α → List α
  | [] => []
  | first :: rest => first.leaves ++ Forest.leaves rest

end

theorem Forest.leaves_eq_flatMap (forest : Forest α) :
    Forest.leaves forest = forest.flatMap Tree.leaves := by
  induction forest with
  | nil => rfl
  | cons first rest inductionHypothesis =>
      simp [Forest.leaves, inductionHypothesis]

/-- An inner node has the words of its children. -/
theorem Tree.leaves_node {children : Forest α} (label : α)
    (nonempty : children ≠ []) :
    (Tree.node label children).leaves = children.flatMap Tree.leaves := by
  cases children with
  | nil => exact absurd rfl nonempty
  | cons first rest =>
      simp [Tree.leaves, Forest.leaves_eq_flatMap]

/-! ## Inner nodes -/

mutual

/-- Every node of a tree in preorder, leaves included, each with the tree it
heads. -/
def Tree.subtrees : Tree α → Forest α
  | .node label children => .node label children :: Forest.subtrees children

/-- Every node of a forest in preorder. -/
def Forest.subtrees : Forest α → Forest α
  | [] => []
  | first :: rest => first.subtrees ++ Forest.subtrees rest

end

theorem Forest.subtrees_eq_flatMap (forest : Forest α) :
    Forest.subtrees forest = forest.flatMap Tree.subtrees := by
  induction forest with
  | nil => rfl
  | cons first rest inductionHypothesis =>
      simp [Forest.subtrees, inductionHypothesis]

namespace Tree

/-- The labels of the nodes that are not leaves, in preorder. -/
def nodeLabels (tree : Tree α) : List α :=
  (tree.subtrees.filter (!·.isLeaf)).map label

/-- The label of an inner node comes before those of its children. -/
theorem nodeLabels_node {children : Forest α} (label : α) (nonempty : children ≠ []) :
    (node label children).nodeLabels = label :: children.flatMap nodeLabels := by
  cases children with
  | nil => exact absurd rfl nonempty
  | cons first rest =>
      simp [nodeLabels, subtrees, Forest.subtrees_eq_flatMap, List.filter_flatMap,
        List.map_flatMap]
      rfl

/-- The labels of an inner node are its own and those of its children. -/
theorem forall_mem_nodeLabels_node {P : α → Prop} {label : α} {children : Forest α}
    (nonempty : children ≠ []) :
    (∀ inner ∈ (node label children).nodeLabels, P inner) ↔
      P label ∧ ∀ child ∈ children, ∀ inner ∈ child.nodeLabels, P inner := by
  rw [nodeLabels_node label nonempty, List.forall_mem_cons, List.forall_mem_flatMap]

theorem label_mem_nodeLabels {tree : Tree α} (inner : tree.isLeaf = false) :
    tree.label ∈ tree.nodeLabels := by
  rcases tree with ⟨label, _ | ⟨first, rest⟩⟩
  · cases inner
  · rw [nodeLabels_node label (List.cons_ne_nil first rest)]
    exact List.mem_cons_self

/-- The labels of the preterminals, in preorder. -/
def preterminalLabels (tree : Tree α) : List α :=
  (tree.subtrees.filter isPreterminal).map label

end Tree

/-! ## Depth -/

mutual

/-- The number of nodes on a longest path from the top to a leaf. -/
def Tree.depth : Tree α → Nat
  | .node _ children => 1 + Forest.depth children

/-- The depth of the deepest tree of a forest. -/
def Forest.depth : Forest α → Nat
  | [] => 0
  | first :: rest => max first.depth (Forest.depth rest)

end

/-! ## Renaming -/

mutual

/-- Rename every label of a tree, words included. -/
def Tree.map (f : α → β) : Tree α → Tree β
  | .node label children => .node (f label) (Forest.map f children)

/-- Rename every label of a forest. -/
def Forest.map (f : α → β) : Forest α → Forest β
  | [] => []
  | first :: rest => first.map f :: Forest.map f rest

end

theorem Forest.map_eq_map (f : α → β) (forest : Forest α) :
    Forest.map f forest = List.map (Tree.map f) forest := by
  induction forest with
  | nil => rfl
  | cons first rest inductionHypothesis =>
      simp [Forest.map, inductionHypothesis]

@[simp]
theorem Tree.map_node (f : α → β) (label : α) (children : Forest α) :
    (Tree.node label children).map f =
      .node (f label) (List.map (Tree.map f) children) := by
  rw [Tree.map, Forest.map_eq_map]

/-! ## Equality -/

mutual

/-- Decide whether two trees have the same labels in the same shape. -/
def Tree.decideEq [DecidableEq α] :
    (first second : Tree α) → Decidable (first = second)
  | .node label children, .node otherLabel otherChildren =>
      if sameLabel : label = otherLabel then
        match Forest.decideEq children otherChildren with
        | .isTrue sameChildren => .isTrue (by rw [sameLabel, sameChildren])
        | .isFalse different => .isFalse fun same => by
            injection same with _ sameChildren
            exact different sameChildren
      else
        .isFalse fun same => by
          injection same with same _
          exact sameLabel same

/-- Decide whether two forests have the same trees in the same order. -/
def Forest.decideEq [DecidableEq α] :
    (first second : Forest α) → Decidable (first = second)
  | [], [] => .isTrue rfl
  | [], _ :: _ => .isFalse nofun
  | _ :: _, [] => .isFalse nofun
  | first :: rest, otherFirst :: otherRest =>
      match first.decideEq otherFirst with
      | .isFalse different => .isFalse fun same => by
          injection same with same _
          exact different same
      | .isTrue sameFirst =>
          match Forest.decideEq rest otherRest with
          | .isTrue sameRest => .isTrue (by rw [sameFirst, sameRest])
          | .isFalse different => .isFalse fun same => by
              injection same with _ same
              exact different same

end

instance [DecidableEq α] : DecidableEq (Tree α) :=
  Tree.decideEq

end ChartParsing
