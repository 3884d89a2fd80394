import ChartParsing.Proofs.Refinement.Label
import ChartParsing.Refinement.Binarize
import ChartParsing.Refinement.Restore

/-!
# Coarse annotation is undone

The intermediate nodes of a coarse tree are spliced out again, and nothing else was
changed, so removing annotations does not see coarse annotation at all
(`unannotate_annotateCoarse`), whatever the labels and words look like.  What it does is
to leave no node with more than two children, over the same words
(`annotateCoarse_invisible`).
-/

namespace ChartParsing.Refinement

theorem coarseChain_ne_nil {header : String} {children : Forest String}
    (nonempty : children ≠ []) : coarseChain header children ≠ [] := by
  match children with
  | [] => contradiction
  | [last] => exact List.cons_ne_nil _ _
  | first :: second :: rest => exact List.cons_ne_nil _ _

theorem spliced_node {children : Forest String} (label : String)
    (nonempty : children ≠ []) :
    spliced (.node label children) =
      if isIntermediate label then splicedAll children
      else [.node (baseLabel label) (splicedAll children)] := by
  cases children with
  | nil => contradiction
  | cons first rest => rfl

theorem unannotate_node_splicedAll {children : Forest String} (label : String)
    (nonempty : children ≠ []) :
    unannotate (.node label children) = .node (baseLabel label) (splicedAll children) := by
  rw [unannotate_node label nonempty, splicedAll_eq_flatMap]

mutual

theorem spliced_annotateCoarse :
    (tree : Tree String) → spliced (annotateCoarse tree) = spliced tree
  | .node word [] => by rw [annotateCoarse, coarseChain]
  | .node label (first :: rest) => by
      have nonempty : first :: rest ≠ [] := List.cons_ne_nil first rest
      rw [annotateCoarse, spliced_node label (coarseChain_ne_nil nonempty),
        spliced_node label nonempty, splicedAll_coarseChain label (first :: rest)]

/-- The intermediate nodes of a chain make way for the children they stand over. -/
theorem splicedAll_coarseChain (category : String) :
    (forest : Forest String) →
      splicedAll (coarseChain (intermediateHeader category) forest) = splicedAll forest
  | [] => by rw [coarseChain]
  | [last] => by
      rw [coarseChain, splicedAll, splicedAll, spliced_annotateCoarse last, splicedAll,
        splicedAll]
  | first :: second :: rest => by
      have chain := splicedAll_coarseChain category (second :: rest)
      rw [coarseChain, splicedAll, splicedAll, splicedAll, List.append_nil,
        spliced_annotateCoarse first,
        spliced_node _ (coarseChain_ne_nil (List.cons_ne_nil second rest)),
        if_pos (isIntermediate_intermediateHeader category), chain]
      rfl

end

/-- Removing annotations does not see coarse annotation. -/
theorem unannotate_annotateCoarse (tree : Tree String) :
    unannotate (annotateCoarse tree) = unannotate tree := by
  rcases tree with ⟨label, _ | ⟨first, rest⟩⟩
  · rw [annotateCoarse, coarseChain]
  · have nonempty : first :: rest ≠ [] := List.cons_ne_nil first rest
    rw [annotateCoarse, unannotate_node_splicedAll label (coarseChain_ne_nil nonempty),
      unannotate_node_splicedAll label nonempty, splicedAll_coarseChain]

/-! ## Words -/

/-- An inner node has the words of the forest below it. -/
theorem leaves_node_eq_leaves {children : Forest String} (label : String)
    (nonempty : children ≠ []) :
    (Tree.node label children).leaves = Forest.leaves children := by
  rw [Tree.leaves_node label nonempty, Forest.leaves_eq_flatMap]

mutual

theorem leaves_annotateCoarse :
    (tree : Tree String) → (annotateCoarse tree).leaves = tree.leaves
  | .node word [] => by rw [annotateCoarse, coarseChain]
  | .node label (first :: rest) => by
      have nonempty : first :: rest ≠ [] := List.cons_ne_nil first rest
      rw [annotateCoarse, leaves_node_eq_leaves label (coarseChain_ne_nil nonempty),
        leaves_node_eq_leaves label nonempty, leaves_coarseChain _ (first :: rest)]

/-- A chain has the words of the children it is made of. -/
theorem leaves_coarseChain (header : String) :
    (forest : Forest String) → Forest.leaves (coarseChain header forest) = Forest.leaves forest
  | [] => by rw [coarseChain]
  | [last] => by
      rw [coarseChain, Forest.leaves, Forest.leaves, Forest.leaves, leaves_annotateCoarse last,
        Forest.leaves]
  | first :: second :: rest => by
      have chain := leaves_coarseChain header (second :: rest)
      rw [coarseChain, Forest.leaves, Forest.leaves, Forest.leaves, List.append_nil,
        leaves_annotateCoarse first,
        leaves_node_eq_leaves _ (coarseChain_ne_nil (List.cons_ne_nil second rest)), chain,
        ← Forest.leaves]

end

/-! ## Branching -/

theorem length_coarseChain_le (header : String) (forest : Forest String) :
    (coarseChain header forest).length ≤ 2 := by
  match forest with
  | [] => exact Nat.zero_le 2
  | [last] => exact Nat.le_succ 1
  | first :: second :: rest => exact Nat.le_refl 2

mutual

/-- No node of a binarized tree has more than two children. -/
theorem length_children_le_of_mem_annotateCoarse :
    (tree : Tree String) → ∀ node ∈ (annotateCoarse tree).subtrees, node.children.length ≤ 2
  | .node label children => by
      rw [annotateCoarse, Tree.subtrees, List.forall_mem_cons]
      exact ⟨length_coarseChain_le _ children,
        length_children_le_of_mem_coarseChain _ children⟩

theorem length_children_le_of_mem_coarseChain (header : String) :
    (forest : Forest String) →
      ∀ node ∈ Forest.subtrees (coarseChain header forest), node.children.length ≤ 2
  | [] => by
      rw [coarseChain]
      exact fun _ member => nomatch member
  | [last] => by
      rw [coarseChain, Forest.subtrees, Forest.subtrees, List.append_nil]
      exact length_children_le_of_mem_annotateCoarse last
  | first :: second :: rest => by
      rw [coarseChain, Forest.subtrees, Forest.subtrees, Forest.subtrees, Tree.subtrees,
        List.append_nil, List.forall_mem_append, List.forall_mem_cons]
      exact ⟨length_children_le_of_mem_annotateCoarse first,
        length_coarseChain_le header (second :: rest),
        length_children_le_of_mem_coarseChain header (second :: rest)⟩

end

/-- Coarse annotation makes any tree binary over the same words, and removing annotations
does not see it. -/
theorem annotateCoarse_invisible (tree : Tree String) :
    (∀ node ∈ (annotateCoarse tree).subtrees, node.children.length ≤ 2) ∧
      (annotateCoarse tree).leaves = tree.leaves ∧
      unannotate (annotateCoarse tree) = unannotate tree :=
  ⟨length_children_le_of_mem_annotateCoarse tree, leaves_annotateCoarse tree,
    unannotate_annotateCoarse tree⟩

end ChartParsing.Refinement
