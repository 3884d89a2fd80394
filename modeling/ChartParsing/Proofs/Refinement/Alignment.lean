import ChartParsing.Proofs.Refinement.Fine

/-!
# Fine and coarse annotation line up

The two annotations of a tree have the same nodes, and the coarse label of each fine
label is the one it refines: marks are cut off at the first `^`, siblings at the arrow of
the header they stand behind.  So the fine trees of a treebank line up with its coarse
trees, after any collapses too (`relabel_collapseEach_annotateFine`).
-/

namespace ChartParsing.Refinement

/-- A label without the characters that annotation puts between labels. -/
structure IsBareLabel (label : String) : Prop where
  nonempty : label ≠ ""
  noCaret : '^' ∉ label.toList
  noArrow : '>' ∉ label.toList
  noHistory : '_' ∉ label.toList

instance decidableIsBareLabel (label : String) : Decidable (IsBareLabel label) :=
  decidable_of_iff
    (label ≠ "" ∧ '^' ∉ label.toList ∧ '>' ∉ label.toList ∧ '_' ∉ label.toList)
    ⟨fun ⟨nonempty, noCaret, noArrow, noHistory⟩ => ⟨nonempty, noCaret, noArrow, noHistory⟩,
      fun ⟨nonempty, noCaret, noArrow, noHistory⟩ => ⟨nonempty, noCaret, noArrow, noHistory⟩⟩

theorem coarseLabel_append_marks {label marks : String} (noArrow : '>' ∉ label.toList)
    (noArrows : '>' ∉ marks.toList) (noCaret : '^' ∉ label.toList)
    (starts : ∀ c ∈ marks.toList.head?, c = '^') : coarseLabel (label ++ marks) = label := by
  have absent : '>' ∉ label.toList ++ marks.toList := by
    rw [List.mem_append, not_or]
    exact ⟨noArrow, noArrows⟩
  apply String.toList_injective
  rw [toList_coarseLabel, String.toList_append, coarseChars_append_marks absent noCaret starts]

/-- The coarse label of a fine label is the one that it refines. -/
theorem coarseLabel_of_refines :
    ∀ label other, Refines IsBareLabel label other → coarseLabel other = label := by
  rintro _ _ (⟨bare, starts, drawn⟩ | ⟨bare, history⟩)
  · have noArrows := drawn.notMem (by decide) fun _ known => IsBareLabel.noArrow known
    refine coarseLabel_append_marks bare.noArrow noArrows bare.noCaret ?_
    rw [starts]
    rintro c ⟨⟩
    rfl
  · exact coarseLabel_intermediateHeader_append bare.noArrow history

/-- The root category takes no mark at all. -/
theorem coarseLabel_of_refinesRoot :
    ∀ label other, RefinesRoot (· = rootCategory) label other → coarseLabel other = label := by
  rintro _ _ (rfl | ⟨same, marked⟩)
  · rfl
  · exact absurd same marked

/-- The trees whose two annotations line up, also after collapsing. -/
structure IsAlignable (tree : Tree String) : Prop where
  root : tree.label = rootCategory
  bare : ∀ label ∈ tree.nodeLabels, IsBareLabel label

/-- Reading coarse labels off the fine trees of a treebank gives its coarse trees, after
any collapses of the fine ones. -/
theorem relabel_collapseEach_annotateFine {forest : Forest String}
    (alignable : ∀ tree ∈ forest, IsAlignable tree) (thresholds : List Nat) :
    List.map (Tree.relabel coarseLabel)
        (collapseEach thresholds (List.map annotateFine forest)) =
      List.map annotateCoarse forest := by
  have rootPlain : ∀ label, label = rootCategory → '_' ∉ label.toList := by
    rintro _ rfl
    decide
  have aligned := forall₂_collapseEach_annotateFine
    (fun _ bare => IsBareLabel.nonempty bare) (fun _ bare => IsBareLabel.noHistory bare)
    rootPlain (fun tree member => (alignable tree member).bare)
    (fun tree member _ => (alignable tree member).root) thresholds
  rw [← List.forall₂_eq_eq_eq, List.forall₂_map_left_iff]
  refine (aligned.imp ?_).flip
  exact fun coarse fine pair =>
    pair.relabel_eq coarseLabel_of_refinesRoot coarseLabel_of_refines

/-- The words of the history look like intermediate labels themselves, and one is cut
apart by the second collapse. -/
theorem relabel_collapseEach_annotateFine_oddWords :
    List.map (Tree.relabel coarseLabel)
        (collapseEach [2, 3] (List.map annotateFine
          [.node "ROOT" [.node "S" [.leaf "->_a", .leaf "^", .node "VP"
            [.node "RB" [.leaf "now"]]]]])) =
      [.node "ROOT" [.node "S" [.leaf "->_a", .node "@S->" [.leaf "^",
        .node "@S->" [.node "VP" [.node "RB" [.leaf "now"]]]]]]] := by
  have alignable : IsAlignable
      (.node "ROOT" [.node "S" [.leaf "->_a", .leaf "^", .node "VP"
        [.node "RB" [.leaf "now"]]]]) :=
    ⟨rfl, by decide⟩
  rw [relabel_collapseEach_annotateFine (List.forall_mem_singleton.mpr alignable)]
  rfl

end ChartParsing.Refinement
