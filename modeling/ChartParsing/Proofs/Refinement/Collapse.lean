import ChartParsing.Proofs.Refinement.Label
import ChartParsing.Proofs.Refinement.Rare

/-!
# What collapsing changes

A collapse renames nodes where they stand: every node of the collapsed forest is what the
collapse makes of the node in its place (`subtrees_relabelAbove`), with as many children
and the same words.  The label changes only above the preterminals, only where it is rare
in the forest as it was, and only by losing what stands between its first two `_`
(`collapsesTo_relabelAbove`).

That is the oldest sibling of an intermediate label whose category holds no `_`, and then
the coarse label stays (`collapseRare_node_by_node`).  A category that holds one is cut
itself (`collapseRare_cuts_categories`).
-/

namespace ChartParsing.Refinement

/-! ## Labels without their oldest sibling -/

section Labels

variable {header oldest : String}

theorem dropOldestChars_cons (history : List Char) :
    dropOldestChars ('_' :: history) = history.dropWhile (· != '_') := by
  simp [dropOldestChars]

/-- What stands before the first `_` is all that stays of a single sibling. -/
theorem dropOldest_single (plain : '_' ∉ header.toList) (single : '_' ∉ oldest.toList) :
    dropOldest (header ++ "_" ++ oldest) = header := by
  apply String.toList_injective
  have gone : oldest.toList.dropWhile (· != '_') = [] :=
    List.dropWhile_eq_nil_iff.mpr (bne_of_notMem single)
  simp [dropOldestChars_append plain, dropOldestChars_cons, gone]

/-- Younger siblings stay. -/
theorem dropOldest_several (plain : '_' ∉ header.toList) (single : '_' ∉ oldest.toList)
    (younger : String) :
    dropOldest (header ++ "_" ++ oldest ++ "_" ++ younger) = header ++ "_" ++ younger := by
  apply String.toList_injective
  have gone : (oldest.toList ++ '_' :: younger.toList).dropWhile (· != '_') =
      '_' :: younger.toList := by
    rw [List.dropWhile_append_of_pos (bne_of_notMem single), List.dropWhile_cons]
    rfl
  simp [dropOldestChars_append plain, dropOldestChars_cons, gone]

/-- The coarse label of an intermediate label does not see its history, if it can be told
from the category. -/
theorem coarseLabel_dropOldest {category : String} (plain : '_' ∉ category.toList)
    (history : String) :
    coarseLabel (dropOldest (intermediateHeader category ++ history)) =
      coarseLabel (intermediateHeader category ++ history) := by
  have arrow : '>' ∈ (intermediateHeader category).toList := by
    simp [toList_intermediateHeader]
  rw [dropOldest_intermediateHeader_append plain]
  apply String.toList_injective
  simp only [toList_coarseLabel, String.toList_append, coarseChars_append arrow]

end Labels

/-! ## Nodes in their places -/

section Renaming

variable (relabel : String → String)

omit relabel in
/-- A preterminal is a node over a word. -/
theorem exists_eq_of_isPreterminal {tree : Tree String}
    (preterminal : tree.isPreterminal = true) :
    ∃ label word, tree = .node label [.leaf word] := by
  rcases tree with ⟨label, _ | ⟨⟨word, _ | _⟩, _ | _⟩⟩
  case cons.nil.nil => exact ⟨label, word, rfl⟩
  all_goals cases preterminal

mutual

/-- A renaming above the preterminals acts on every node where it stands. -/
theorem subtrees_relabelAbove :
    (tree : Tree String) →
      (relabelAbove relabel tree).subtrees = List.map (relabelAbove relabel) tree.subtrees
  | .node word [] => rfl
  | .node label (first :: rest) => by
      by_cases preterminal : (Tree.node label (first :: rest)).isPreterminal = true
      · obtain ⟨_, word, same⟩ := exists_eq_of_isPreterminal preterminal
        rw [same]
        rfl
      · have below := subtrees_relabelAllAbove (first :: rest)
        have here := relabelAbove_node relabel label (List.cons_ne_nil first rest)
        rw [if_neg preterminal] at here
        rw [here, Tree.subtrees, Tree.subtrees, List.map_cons, here, below]

theorem subtrees_relabelAllAbove :
    (forest : Forest String) →
      Forest.subtrees (relabelAllAbove relabel forest) =
        List.map (relabelAbove relabel) (Forest.subtrees forest)
  | [] => rfl
  | first :: rest => by
      rw [relabelAllAbove, Forest.subtrees, Forest.subtrees, subtrees_relabelAbove first,
        subtrees_relabelAllAbove rest, List.map_append]

end

mutual

theorem leaves_relabelAbove :
    (tree : Tree String) → (relabelAbove relabel tree).leaves = tree.leaves
  | .node word [] => rfl
  | .node label (first :: rest) => by
      rw [relabelAbove]
      split
      · rfl
      · rw [Tree.leaves, Tree.leaves, leaves_relabelAbove first, leaves_relabelAllAbove rest]

theorem leaves_relabelAllAbove :
    (forest : Forest String) →
      Forest.leaves (relabelAllAbove relabel forest) = Forest.leaves forest
  | [] => rfl
  | first :: rest => by
      rw [relabelAllAbove, Forest.leaves, Forest.leaves, leaves_relabelAbove first,
        leaves_relabelAllAbove rest]

end

theorem length_children_relabelAbove (tree : Tree String) :
    (relabelAbove relabel tree).children.length = tree.children.length := by
  rcases tree with ⟨label, _ | ⟨first, rest⟩⟩
  · rfl
  · rw [relabelAbove]
    split
    · rfl
    · simp [relabelAllAbove_eq_map]

theorem label_relabelAbove (tree : Tree String) :
    (relabelAbove relabel tree).label =
      if tree.isLeaf ∨ tree.isPreterminal then tree.label else relabel tree.label := by
  rcases tree with ⟨label, _ | ⟨first, rest⟩⟩
  · rfl
  · rw [relabelAbove]
    split
    · rename_i preterminal
      simp [preterminal]
    · rename_i above
      simp [above]

end Renaming

/-! ## One node of a collapsed forest -/

/-- What a collapse does to a node of a forest in which `counted` are the labels above the
preterminals. -/
structure CollapsesTo (counted : List String) (atLeast : Nat) (before after : Tree String) :
    Prop where
  arity : after.children.length = before.children.length
  words : after.leaves = before.leaves
  /-- Leaves and preterminals are left alone, and so are labels without `_` and labels that
  are not rare. -/
  kept : before.isLeaf = true ∨ before.isPreterminal = true ∨ '_' ∉ before.label.toList ∨
    atLeast ≤ counted.count before.label → after.label = before.label
  /-- Any other label loses its oldest sibling, and with it all of its history if there is
  only one. -/
  dropped : before.isLeaf = false → before.isPreterminal = false →
    counted.count before.label < atLeast →
    ∀ header oldest, '_' ∉ header.toList → '_' ∉ oldest.toList →
      (before.label = header ++ "_" ++ oldest → after.label = header) ∧
        ∀ younger, before.label = header ++ "_" ++ oldest ++ "_" ++ younger →
          after.label = header ++ "_" ++ younger
  /-- The coarse label stays as long as it can be told from the category. -/
  coarse : ∀ category history, '_' ∉ category.toList →
    before.label = intermediateHeader category ++ history →
      coarseLabel after.label = coarseLabel before.label

theorem collapsesTo_relabelAbove (counted : List String) (atLeast : Nat)
    (tree : Tree String) :
    CollapsesTo counted atLeast tree
      (relabelAbove (collapseLabel counted atLeast) tree) := by
  constructor
  case arity => exact length_children_relabelAbove _ tree
  case words => exact leaves_relabelAbove _ tree
  case kept =>
    intro reason
    rw [label_relabelAbove, collapseLabel_eq]
    rcases reason with leaf | preterminal | plain | frequent
    · simp [leaf]
    · simp [preterminal]
    · simp [dropOldest_of_notMem plain]
    · simp [Nat.not_lt_of_le frequent]
  case dropped =>
    intro inner above rare header oldest plain single
    rw [label_relabelAbove, collapseLabel_eq]
    simp only [inner, above, rare, or_self, Bool.false_eq_true, if_false, if_true]
    refine ⟨?_, ?_⟩
    · intro label
      rw [label, dropOldest_single plain single]
    · intro younger label
      rw [label, dropOldest_several plain single]
  case coarse =>
    intro category history plain label
    rw [label_relabelAbove, collapseLabel_eq, label]
    split
    · rfl
    · split
      · exact coarseLabel_dropOldest plain history
      · rfl

/-- A collapse leaves every node of a forest in its place, with its words.  It changes no
label but the rare ones above the preterminals, counted in the whole forest as it was, and
takes from each no more than its oldest sibling. -/
theorem collapseRare_node_by_node (atLeast : Nat) (forest : Forest String) :
    List.Forall₂ (CollapsesTo (countedLabels forest) atLeast) (Forest.subtrees forest)
      (Forest.subtrees (collapseRare atLeast forest)) := by
  rw [collapseRare, subtrees_relabelAllAbove, List.forall₂_map_right_iff, List.forall₂_same]
  exact fun tree _ => collapsesTo_relabelAbove (countedLabels forest) atLeast tree

/-- A rare label that is no intermediate one is cut at its `_` all the same, and so is an
intermediate one within its category, which changes its coarse label. -/
theorem collapseRare_cuts_categories :
    isIntermediate "A_B" = false ∧
    collapseRare 2 [.node "ROOT" [.node "A_B" [.node "C" [.leaf "c"]]]] =
      [.node "ROOT" [.node "A" [.node "C" [.leaf "c"]]]] ∧
    collapseRare 2 [.node "ROOT" [.node (intermediateHeader "X_Y" ++ "_C")
        [.node "D" [.leaf "d"]]]] =
      [.node "ROOT" [.node "@X_C" [.node "D" [.leaf "d"]]]] ∧
    coarseLabel (intermediateHeader "X_Y" ++ "_C") = intermediateHeader "X_Y" ∧
    coarseLabel "@X_C" = "@X_C" := by
  decide +kernel

end ChartParsing.Refinement
