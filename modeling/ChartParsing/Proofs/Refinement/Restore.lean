import ChartParsing.Refinement.Restore

/-!
# Removing annotations keeps the words

Splicing intermediate nodes out and cutting labels down touches inner nodes only, so
a tree has the same words before and after, whatever its words and labels look like.
-/

namespace ChartParsing

/-- Every tree has a word. -/
theorem Tree.leaves_ne_nil {α : Type} : ∀ tree : Tree α, tree.leaves ≠ []
  | .node _ [] => List.cons_ne_nil _ []
  | .node _ (first :: _) =>
      List.append_ne_nil_of_left_ne_nil (leaves_ne_nil first) _

namespace Refinement

/-- A node has the words of a tree whose words its children have. -/
theorem leaves_node_of_flatMap {children : Forest String} {tree : Tree String}
    (label : String) (same : children.flatMap Tree.leaves = tree.leaves) :
    (Tree.node label children).leaves = tree.leaves := by
  have nonempty : children ≠ [] := by
    rintro rfl
    exact Tree.leaves_ne_nil tree same.symm
  rw [Tree.leaves_node label nonempty, same]

mutual

/-- The trees that take the place of a child have its words. -/
theorem flatMap_leaves_spliced :
    (tree : Tree String) → (spliced tree).flatMap Tree.leaves = tree.leaves
  | .node label [] => List.flatMap_singleton Tree.leaves (.node label [])
  | .node label (first :: rest) => by
      have below : (spliced first ++ splicedAll rest).flatMap Tree.leaves =
          (Tree.node label (first :: rest)).leaves := by
        rw [List.flatMap_append, flatMap_leaves_spliced first,
          flatMap_leaves_splicedAll rest, Tree.leaves]
      unfold spliced
      dsimp only
      split
      · exact below
      · rw [List.flatMap_singleton]
        exact leaves_node_of_flatMap _ below

theorem flatMap_leaves_splicedAll :
    (forest : Forest String) →
      (splicedAll forest).flatMap Tree.leaves = Forest.leaves forest
  | [] => rfl
  | first :: rest => by
      rw [splicedAll, List.flatMap_append, flatMap_leaves_spliced first,
        flatMap_leaves_splicedAll rest, Forest.leaves]

end

/-- A tree keeps its words when its annotations are removed. -/
theorem leaves_unannotate (tree : Tree String) :
    (unannotate tree).leaves = tree.leaves := by
  match tree with
  | .node label [] => rfl
  | .node label (first :: rest) =>
      have below : (spliced first ++ splicedAll rest).flatMap Tree.leaves =
          (Tree.node label (first :: rest)).leaves := by
        rw [List.flatMap_append, flatMap_leaves_spliced, flatMap_leaves_splicedAll,
          Tree.leaves]
      exact leaves_node_of_flatMap _ below

end Refinement

end ChartParsing
