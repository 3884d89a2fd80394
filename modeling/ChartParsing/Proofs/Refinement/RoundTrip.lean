import ChartParsing.Proofs.Refinement.Fine

/-!
# Fine annotation is undone

Removing annotations sees a label below the root through two questions only: is it an
intermediate one, and if not, what is its base (`SplicesAlike`).  A fine label answers
both like the coarse label it refines, so fine trees come to the same as the coarse ones
when annotations are removed, and coarse annotation is not seen at all
(`unannotate_collapseEach_annotateFine`).  The labels must not start with `^`, at which
the marks below a root are cut off, nor a root label with `-`, at which its unary mark
is.
-/

namespace ChartParsing.Refinement

/-! ## What removing annotations sees -/

/-- Two labels below a root that come to the same when annotations are removed. -/
def SplicesAlike (label other : String) : Prop :=
  isIntermediate other = isIntermediate label ∧
    (isIntermediate label = false → baseLabel other = baseLabel label)

section Aligned

variable {Root Related : String → String → Prop}

/-- Forests whose labels splice alike are spliced to the same trees. -/
theorem splicedAll_of_aligned
    (alike : ∀ label other, Related label other → SplicesAlike label other)
    {forest others : Forest String} (aligned : Forest.Aligned Related forest others) :
    splicedAll others = splicedAll forest := by
  induction aligned with
  | nil => rfl
  | word word later laterSame => rw [splicedAll, splicedAll, laterSame]
  | inner related nonempty inside later insideSame laterSame =>
      rcases alike _ _ related with ⟨parts, bases⟩
      rw [splicedAll, splicedAll, laterSame, spliced_node _ (inside.ne_nil nonempty),
        spliced_node _ nonempty, parts, insideSame]
      split
      · rfl
      · rename_i constituent
        rw [bases (Bool.eq_false_iff.mpr constituent)]

theorem unannotate_of_aligned
    (rootAlike : ∀ label other, Root label other → baseLabel other = baseLabel label)
    (alike : ∀ label other, Related label other → SplicesAlike label other)
    {tree other : Tree String} (aligned : Tree.Aligned Root Related tree other) :
    unannotate other = unannotate tree := by
  cases aligned with
  | word => rfl
  | inner related nonempty inside =>
      rw [unannotate_node_splicedAll _ (inside.ne_nil nonempty),
        unannotate_node_splicedAll _ nonempty, rootAlike _ _ related,
        splicedAll_of_aligned alike inside]

end Aligned

/-! ## Trees without annotation -/

/-- A tree without intermediate nodes below its root and without marks in its labels. -/
structure IsUnmarked (tree : Tree String) : Prop where
  constituents : ∀ child ∈ tree.children, ∀ label ∈ child.nodeLabels,
    isIntermediate label = false
  bases : ∀ label ∈ tree.nodeLabels, baseLabel label = label

mutual

theorem spliced_eq_self :
    (tree : Tree String) →
      (∀ label ∈ tree.nodeLabels, isIntermediate label = false ∧ baseLabel label = label) →
      spliced tree = [tree]
  | .node word [], _ => rfl
  | .node label (first :: rest), unmarked => by
      have nonempty : first :: rest ≠ [] := List.cons_ne_nil first rest
      rw [Tree.forall_mem_nodeLabels_node nonempty] at unmarked
      rcases unmarked with ⟨⟨plain, base⟩, below⟩
      rw [spliced_node label nonempty, plain, base, splicedAll_eq_self (first :: rest) below]
      rfl

theorem splicedAll_eq_self :
    (forest : Forest String) →
      (∀ tree ∈ forest, ∀ label ∈ tree.nodeLabels,
        isIntermediate label = false ∧ baseLabel label = label) →
      splicedAll forest = forest
  | [], _ => rfl
  | first :: rest, unmarked => by
      rcases List.forall_mem_cons.mp unmarked with ⟨here, later⟩
      rw [splicedAll, spliced_eq_self first here, splicedAll_eq_self rest later,
        List.singleton_append]

end

/-- There is nothing to remove from an unmarked tree. -/
theorem IsUnmarked.unannotate_eq_self {tree : Tree String} (unmarked : IsUnmarked tree) :
    unannotate tree = tree := by
  rcases tree with ⟨label, children⟩
  cases children with
  | nil => rfl
  | cons first rest =>
      have nonempty : first :: rest ≠ [] := List.cons_ne_nil first rest
      rcases (Tree.forall_mem_nodeLabels_node nonempty).mp unmarked.bases with ⟨base, below⟩
      rw [unannotate_node_splicedAll label nonempty, base, splicedAll_eq_self]
      exact fun child member inner known =>
        ⟨unmarked.constituents child member inner known, below child member inner known⟩

/-! ## Labels whose marks come off again -/

/-- A label from which the marks below a root can be cut off again, and in which a
history cannot be mistaken. -/
structure TakesMarks (label : String) : Prop where
  nonempty : label ≠ ""
  noCaret : label.toList.head? ≠ some '^'
  noHistory : '_' ∉ label.toList

/-- A root label from which the unary mark can be cut off again. -/
structure TakesUnaryMark (label : String) : Prop extends TakesMarks label where
  noDash : label.toList.head? ≠ some '-'

theorem baseLabel_append {label marks : String} (nonempty : label ≠ "")
    (cuts : ∀ c ∈ marks.toList.head?, isCut c = true ∧ label.toList.head? ≠ some c) :
    baseLabel (label ++ marks) = baseLabel label := by
  rw [baseLabel, baseLabel, String.toList_append,
    baseChars_append (mt String.toList_eq_nil_iff.mp nonempty) cuts]

/-- Below a root a fine label comes to the same as the coarse one. -/
theorem splicesAlike_of_refines :
    ∀ label other, Refines TakesMarks label other → SplicesAlike label other := by
  rintro _ _ (⟨takes, starts, -⟩ | ⟨-, history⟩)
  · refine ⟨isIntermediate_append takes.nonempty _, fun _ => ?_⟩
    refine baseLabel_append takes.nonempty ?_
    rw [starts]
    rintro c ⟨⟩
    exact ⟨rfl, takes.noCaret⟩
  · refine ⟨?_, fun constituent => ?_⟩
    · rw [isIntermediate_intermediateHeader_append, isIntermediate_intermediateHeader]
    · rw [isIntermediate_intermediateHeader] at constituent
      contradiction

theorem baseLabel_of_refinesRoot :
    ∀ label other, RefinesRoot TakesUnaryMark label other →
      baseLabel other = baseLabel label := by
  rintro _ _ (- | ⟨takes, -⟩)
  · rfl
  · refine baseLabel_append takes.nonempty ?_
    rintro c ⟨⟩
    exact ⟨rfl, takes.noDash⟩

/-! ## Annotating, collapsing and restoring -/

/-- The trees that fine annotation can be taken off again, also after collapsing. -/
structure IsReversible (tree : Tree String) : Prop where
  nonempty : ∀ label ∈ tree.nodeLabels, label ≠ ""
  noCaret : ∀ label ∈ tree.nodeLabels, label.toList.head? ≠ some '^'
  noHistory : ∀ label ∈ tree.nodeLabels, '_' ∉ label.toList
  root : tree.isLeaf = false → tree.label.toList.head? ≠ some '-'

theorem IsReversible.takesMarks {tree : Tree String} (reversible : IsReversible tree) :
    ∀ label ∈ tree.nodeLabels, TakesMarks label :=
  fun label member => ⟨reversible.nonempty label member, reversible.noCaret label member,
    reversible.noHistory label member⟩

theorem IsReversible.takesUnaryMark {tree : Tree String} (reversible : IsReversible tree)
    (inner : tree.isLeaf = false) : TakesUnaryMark tree.label :=
  ⟨reversible.takesMarks _ (Tree.label_mem_nodeLabels inner), reversible.root inner⟩

/-- Removing annotations undoes fine annotation with any collapses after it: each tree
comes back as if its own marks had been removed, so an unmarked tree comes back as
itself. -/
theorem unannotate_collapseEach_annotateFine {forest : Forest String}
    (reversible : ∀ tree ∈ forest, IsReversible tree) (thresholds : List Nat) :
    List.Forall₂
      (fun collapsed tree => unannotate collapsed = unannotate tree ∧
        (IsUnmarked tree → unannotate collapsed = tree))
      (collapseEach thresholds (List.map annotateFine forest)) forest := by
  have aligned := forall₂_collapseEach_annotateFine
    (fun _ takes => TakesMarks.nonempty takes) (fun _ takes => TakesMarks.noHistory takes)
    (fun _ takes => takes.noHistory)
    (fun tree member => (reversible tree member).takesMarks)
    (fun tree member => (reversible tree member).takesUnaryMark) thresholds
  rw [List.forall₂_map_left_iff] at aligned
  refine (aligned.imp ?_).flip
  intro tree collapsed pair
  have restored : unannotate collapsed = unannotate tree := by
    rw [unannotate_of_aligned baseLabel_of_refinesRoot splicesAlike_of_refines pair,
      unannotate_annotateCoarse]
  exact ⟨restored, fun unmarked => restored.trans unmarked.unannotate_eq_self⟩

/-- The history of this tree holds a word that looks like an annotated label, and is
collapsed twice. -/
theorem unannotate_collapseEach_annotateFine_oddWord :
    ∃ collapsed,
      collapseEach [2, 3] (List.map annotateFine
        [.node "ROOT" [.node "S" [.node "-NONE-" [.leaf "*"], .leaf "@_^",
          .node "VP" [.node "RB" [.leaf "now"]]]]]) = [collapsed] ∧
      unannotate collapsed =
        .node "ROOT" [.node "S" [.node "-NONE-" [.leaf "*"], .leaf "@_^",
          .node "VP" [.node "RB" [.leaf "now"]]]] := by
  have reversible : IsReversible
      (.node "ROOT" [.node "S" [.node "-NONE-" [.leaf "*"], .leaf "@_^",
        .node "VP" [.node "RB" [.leaf "now"]]]]) :=
    ⟨by decide, by decide, by decide, by decide⟩
  have pairs := unannotate_collapseEach_annotateFine
    (List.forall_mem_singleton.mpr reversible) [2, 3]
  obtain ⟨collapsed, others, pair, none, single⟩ := List.forall₂_cons_right_iff.mp pairs
  rw [List.forall₂_nil_right_iff.mp none] at single
  exact ⟨collapsed, single, pair.2 ⟨by decide, by decide⟩⟩

end ChartParsing.Refinement
