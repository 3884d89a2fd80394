import ChartParsing.Tree.Basic

/-!
# Paths in a tree

A path tells at which child to go down, node after node from the top, so the nodes of a
tree are told apart by their paths even if they look alike.  A node below the top is
reached from its parent, at the end of a path (`subtreeAt?_concat_eq_some_iff`).
-/

namespace ChartParsing.Tree

universe u

variable {α : Type u}

/-- The tree that a path leads to, if it does not leave the tree. -/
def subtreeAt? : List Nat → Tree α → Option (Tree α)
  | [], tree => some tree
  | place :: path, tree => tree.children[place]?.bind (subtreeAt? path)

@[simp]
theorem subtreeAt?_nil (tree : Tree α) : tree.subtreeAt? [] = some tree :=
  rfl

@[simp]
theorem subtreeAt?_cons (place : Nat) (path : List Nat) (tree : Tree α) :
    tree.subtreeAt? (place :: path) = tree.children[place]?.bind (subtreeAt? path) :=
  rfl

/-- A path goes on where its first part has led to. -/
theorem subtreeAt?_append (path more : List Nat) (tree : Tree α) :
    tree.subtreeAt? (path ++ more) = (tree.subtreeAt? path).bind (subtreeAt? more) := by
  induction path generalizing tree with
  | nil => rfl
  | cons place path inductionHypothesis =>
      rw [List.cons_append, subtreeAt?_cons, subtreeAt?_cons, Option.bind_assoc]
      congr 1
      funext child
      exact inductionHypothesis child

/-- The node above the one at a path.  There is none above the top. -/
def parentAt? (tree : Tree α) : List Nat → Option (Tree α)
  | [] => none
  | place :: path => tree.subtreeAt? (place :: path).dropLast

@[simp]
theorem parentAt?_nil (tree : Tree α) : tree.parentAt? [] = none :=
  rfl

@[simp]
theorem parentAt?_concat (tree : Tree α) (path : List Nat) (place : Nat) :
    tree.parentAt? (path ++ [place]) = tree.subtreeAt? path := by
  cases path with
  | nil => rfl
  | cons first path =>
      rw [List.cons_append, parentAt?, ← List.cons_append, List.dropLast_concat]

/-- Below the top a node is a child of the node above it. -/
theorem subtreeAt?_concat_eq_some_iff {path : List Nat} {place : Nat} {tree node : Tree α} :
    tree.subtreeAt? (path ++ [place]) = some node ↔
      ∃ parent, tree.subtreeAt? path = some parent ∧ parent.children[place]? = some node := by
  have down (parent : Tree α) : parent.subtreeAt? [place] = parent.children[place]? :=
    Option.bind_fun_some _
  simp [subtreeAt?_append, Option.bind_eq_some_iff, down]

end ChartParsing.Tree
