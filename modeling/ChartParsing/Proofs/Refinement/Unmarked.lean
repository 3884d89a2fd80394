import ChartParsing.Proofs.Refinement.Restore
import ChartParsing.Proofs.Refinement.RoundTrip

/-!
# Nothing is left to remove

Removing annotations leaves an unmarked tree: no intermediate node below its root, and no
label that could still be cut (`isUnmarked_unannotate`).  As there is nothing to remove
from an unmarked tree, removing annotations twice is removing them once, and the trees
that stay as they are are the unmarked ones.

A label can be cut if one of the characters that cut occurs in it for the first time after
its start (`IsCuttable`), which is what `baseLabel_eq_self_iff` says of its base.
-/

namespace ChartParsing.Refinement

/-! ## Labels -/

/-- One of the characters that cut occurs for the first time after the start of a label. -/
def IsCuttable (label : String) : Prop :=
  ∃ mark ∈ ['^', '-', '='], ∃ position > 0, label.toList.idxOf? mark = some position

theorem isCut_iff {c : Char} : isCut c = true ↔ c ∈ ['^', '-', '='] := by
  simp [isCut, or_assoc]

/-- A character first occurs after the start if it is there and not the one at the start. -/
theorem exists_pos_idxOf?_cons_iff {first c : Char} {rest : List Char} :
    (∃ position > 0, (first :: rest).idxOf? c = some position) ↔ c ∈ rest ∧ c ≠ first := by
  rw [List.idxOf?_cons]
  by_cases same : first = c
  · simp [same]
  · have differs : (first == c) = false := beq_false_of_ne same
    rw [differs, ← List.isSome_idxOf?, Option.isSome_iff_exists]
    simp [Ne.symm same]

theorem baseChars_eq_self_iff {first : Char} {rest : List Char} :
    baseChars (first :: rest) = first :: rest ↔
      ∀ c ∈ rest, isCut c = true → c = first := by
  rw [baseChars, List.cons.injEq, List.takeWhile_eq_self_iff]
  simp [Classical.or_iff_not_imp_left]

/-- A label is its own base if nothing can be cut off it. -/
theorem baseLabel_eq_self_iff {label : String} :
    baseLabel label = label ↔ ¬IsCuttable label := by
  rw [← String.toList_inj, toList_baseLabel]
  unfold IsCuttable
  cases label.toList with
  | nil => simp [baseChars]
  | cons first rest =>
      simp only [exists_pos_idxOf?_cons_iff, ← isCut_iff, baseChars_eq_self_iff]
      constructor
      · rintro keeps ⟨c, cuts, member, different⟩
        exact different (keeps c member cuts)
      · intro none c member cuts
        by_contra different
        exact none ⟨c, cuts, member, different⟩

/-- Nothing more can be cut off a base. -/
theorem baseLabel_baseLabel (label : String) : baseLabel (baseLabel label) = baseLabel label := by
  rw [← String.toList_inj, toList_baseLabel, toList_baseLabel]
  cases label.toList with
  | nil => rfl
  | cons first rest => rw [baseChars, baseChars, List.takeWhile_idem]

/-- The first character of a label is never cut off. -/
theorem isIntermediate_baseLabel (label : String) :
    isIntermediate (baseLabel label) = isIntermediate label := by
  unfold isIntermediate
  rw [toList_baseLabel]
  cases label.toList with
  | nil => rfl
  | cons first rest => rfl

/-! ## Trees -/

/-- Something takes the place of every child, since its words are kept. -/
theorem splicedAll_ne_nil {children : Forest String} (nonempty : children ≠ []) :
    splicedAll children ≠ [] := by
  obtain ⟨first, rest, rfl⟩ := List.exists_cons_of_ne_nil nonempty
  intro none
  have words := flatMap_leaves_splicedAll (first :: rest)
  rw [none, Forest.leaves] at words
  exact List.append_ne_nil_of_left_ne_nil (Tree.leaves_ne_nil first) _ words.symm

mutual

/-- What takes the place of a child has neither intermediate nodes nor cuttable labels. -/
theorem unmarked_of_mem_spliced :
    (tree : Tree String) → ∀ other ∈ spliced tree, ∀ label ∈ other.nodeLabels,
      isIntermediate label = false ∧ baseLabel label = label
  | .node word [], other, member => by
      obtain rfl := List.mem_singleton.mp member
      exact fun _ inner => nomatch inner
  | .node label (first :: rest), other, member => by
      have nonempty : first :: rest ≠ [] := List.cons_ne_nil first rest
      have below := unmarked_of_mem_splicedAll (first :: rest)
      rw [spliced_node label nonempty] at member
      split at member
      · exact below other member
      · rename_i constituent
        obtain rfl := List.mem_singleton.mp member
        rw [Tree.forall_mem_nodeLabels_node (splicedAll_ne_nil nonempty),
          isIntermediate_baseLabel, baseLabel_baseLabel]
        exact ⟨⟨Bool.eq_false_iff.mpr constituent, rfl⟩, below⟩

theorem unmarked_of_mem_splicedAll :
    (forest : Forest String) → ∀ other ∈ splicedAll forest, ∀ label ∈ other.nodeLabels,
      isIntermediate label = false ∧ baseLabel label = label
  | [], other, member => nomatch member
  | first :: rest, other, member => by
      rcases List.mem_append.mp member with here | later
      · exact unmarked_of_mem_spliced first other here
      · exact unmarked_of_mem_splicedAll rest other later

end

/-- A tree without its annotations is unmarked. -/
theorem isUnmarked_unannotate (tree : Tree String) : IsUnmarked (unannotate tree) := by
  rcases tree with ⟨label, _ | ⟨first, rest⟩⟩
  · exact ⟨fun _ member => (nomatch member), fun _ member => (nomatch member)⟩
  · have nonempty : first :: rest ≠ [] := List.cons_ne_nil first rest
    have below := unmarked_of_mem_splicedAll (first :: rest)
    rw [unannotate_node_splicedAll label nonempty]
    constructor
    case constituents => exact fun child member inner known => (below child member inner known).1
    case bases =>
      rw [Tree.forall_mem_nodeLabels_node (splicedAll_ne_nil nonempty)]
      exact ⟨baseLabel_baseLabel label,
        fun child member inner known => (below child member inner known).2⟩

/-- The trees from which nothing is removed are the unmarked ones. -/
theorem unannotate_eq_self_iff {tree : Tree String} :
    unannotate tree = tree ↔ IsUnmarked tree := by
  constructor
  · intro same
    have unmarked := isUnmarked_unannotate tree
    rwa [same] at unmarked
  · exact IsUnmarked.unannotate_eq_self

theorem isUnmarked_iff {tree : Tree String} :
    IsUnmarked tree ↔
      (∀ child ∈ tree.children, ∀ label ∈ child.nodeLabels, isIntermediate label = false) ∧
        ∀ label ∈ tree.nodeLabels, ¬IsCuttable label := by
  simp only [← baseLabel_eq_self_iff]
  exact ⟨fun unmarked => ⟨unmarked.constituents, unmarked.bases⟩,
    fun ⟨constituents, bases⟩ => ⟨constituents, bases⟩⟩

/-- Removing annotations is a projection onto the trees without intermediate nodes below
the root and without cuttable labels, and it keeps the words. -/
theorem unannotate_projection (tree : Tree String) :
    (unannotate tree).leaves = tree.leaves ∧
      unannotate (unannotate tree) = unannotate tree ∧
      (∀ child ∈ (unannotate tree).children, ∀ label ∈ child.nodeLabels,
        isIntermediate label = false) ∧
      (unannotate tree = tree ↔
        (∀ child ∈ tree.children, ∀ label ∈ child.nodeLabels,
          isIntermediate label = false) ∧
          ∀ label ∈ tree.nodeLabels, ¬IsCuttable label) :=
  ⟨leaves_unannotate tree, (isUnmarked_unannotate tree).unannotate_eq_self,
    (isUnmarked_unannotate tree).constituents, unannotate_eq_self_iff.trans isUnmarked_iff⟩

end ChartParsing.Refinement
