import ChartParsing.Proofs.Tree.Aligned
import ChartParsing.Refinement.Rare
import Mathlib.Data.List.Forall2

/-!
# What collapsing keeps

One collapse renames every label above the preterminals to itself or to the label
without its oldest sibling (`collapseLabel_eq_or`).  So a relation of labels that does
not see the oldest sibling (`IgnoresOldest`) relates the labels of two aligned trees
also after one of them is collapsed.

`forall₂_collapseEach` carries this over to any number of collapses of a whole
treebank, whatever the numbers of occurrences they ask for.
-/

namespace ChartParsing.Refinement

variable {Root Related : String → String → Prop} {relabel : String → String}

/-- Collapse a forest once for each number of occurrences asked for, in turn. -/
def collapseEach (thresholds : List Nat) (forest : Forest String) : Forest String :=
  thresholds.foldl (fun forest atLeast => collapseRare atLeast forest) forest

/-- A relation that a label without its oldest sibling is in where the label is. -/
def IgnoresOldest (Related : String → String → Prop) : Prop :=
  ∀ label other, Related label other → Related label (dropOldest other)

theorem collapseLabel_eq_or (counted : List String) (atLeast : Nat) (label : String) :
    collapseLabel counted atLeast label = label ∨
      collapseLabel counted atLeast label = dropOldest label := by
  rw [collapseLabel_eq]
  split
  · exact .inr rfl
  · exact .inl rfl

theorem IgnoresOldest.related_collapseLabel (ignores : IgnoresOldest Related)
    (counted : List String) (atLeast : Nat) {label other : String} (related : Related label other) :
    Related label (collapseLabel counted atLeast other) := by
  rcases collapseLabel_eq_or counted atLeast other with same | dropped
  · rwa [same]
  · rw [dropped]
    exact ignores label other related

theorem relabelAbove_node {children : Forest String} (relabel : String → String)
    (label : String) (nonempty : children ≠ []) :
    relabelAbove relabel (.node label children) =
      if (Tree.node label children).isPreterminal then .node label children
      else .node (relabel label) (relabelAllAbove relabel children) := by
  cases children with
  | nil => contradiction
  | cons first rest => rw [relabelAbove, relabelAllAbove]

/-! ## One collapse -/

/-- A renaming that keeps labels related keeps forests aligned. -/
theorem aligned_relabelAllAbove
    (kept : ∀ label other, Related label other → Related label (relabel other))
    {forest others : Forest String} (aligned : Forest.Aligned Related forest others) :
    Forest.Aligned Related forest (relabelAllAbove relabel others) := by
  induction aligned with
  | nil => exact .nil
  | word word later laterKept => exact .word word laterKept
  | inner related nonempty inside later insideKept laterKept =>
      rw [relabelAllAbove, relabelAbove_node _ _ (inside.ne_nil nonempty)]
      -- A preterminal is left as it is, with its word.
      split
      · exact .inner related nonempty inside laterKept
      · exact .inner (kept _ _ related) nonempty insideKept laterKept

/-- A renaming that keeps labels related keeps trees aligned. -/
theorem aligned_relabelAbove
    (rootKept : ∀ label other, Root label other → Root label (relabel other))
    (kept : ∀ label other, Related label other → Related label (relabel other))
    {tree other : Tree String} (aligned : Tree.Aligned Root Related tree other) :
    Tree.Aligned Root Related tree (relabelAbove relabel other) := by
  cases aligned with
  | word word => exact .word word
  | inner related nonempty inside =>
      rw [relabelAbove_node _ _ (inside.ne_nil nonempty)]
      split
      · exact .inner related nonempty inside
      · exact .inner (rootKept _ _ related) nonempty (aligned_relabelAllAbove kept inside)

/-! ## Any number of collapses -/

/-- One collapse of a treebank keeps its trees aligned. -/
theorem forall₂_collapseRare (rootIgnores : IgnoresOldest Root)
    (ignores : IgnoresOldest Related) (atLeast : Nat) {trees forest : Forest String}
    (aligned : List.Forall₂ (Tree.Aligned Root Related) trees forest) :
    List.Forall₂ (Tree.Aligned Root Related) trees (collapseRare atLeast forest) := by
  rw [collapseRare, relabelAllAbove_eq_map, List.forall₂_map_right_iff]
  exact aligned.imp fun tree other pair =>
    aligned_relabelAbove (fun _ _ => rootIgnores.related_collapseLabel _ atLeast)
      (fun _ _ => ignores.related_collapseLabel _ atLeast) pair

/-- Any number of collapses of a treebank keep its trees aligned. -/
theorem forall₂_collapseEach (rootIgnores : IgnoresOldest Root)
    (ignores : IgnoresOldest Related) (thresholds : List Nat) {trees forest : Forest String}
    (aligned : List.Forall₂ (Tree.Aligned Root Related) trees forest) :
    List.Forall₂ (Tree.Aligned Root Related) trees (collapseEach thresholds forest) := by
  induction thresholds generalizing forest with
  | nil => exact aligned
  | cons atLeast rest inductionHypothesis =>
      exact inductionHypothesis (forall₂_collapseRare rootIgnores ignores atLeast aligned)

end ChartParsing.Refinement
