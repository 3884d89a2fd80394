import ChartParsing.Proofs.Refinement.Coarse
import ChartParsing.Proofs.Refinement.Label
import ChartParsing.Proofs.Refinement.Rare

/-!
# Fine trees refine coarse ones

`fineTree_node` takes an annotated inner node apart: its label is the old one followed
by `fineMarks`, and its children are `fineChildren`, which do not depend on the
grandparent.  Nothing goes into the marks but labels of the tree and the mark letters
(`isDrawnFrom_fineMarks`).

Fine and coarse annotation make trees of one shape, and each fine label `Refines` the
coarse one in its place (`aligned_annotateFine`).  If none of the old labels holds a
`_`, this stays so when the fine trees are collapsed
(`forall₂_collapseEach_annotateFine`).
-/

namespace ChartParsing.Refinement

/-! ## Marks and children of a node -/

/-- The unary mark of a node with the children given, if it takes one. -/
def unaryMarkOf (label : String) : Forest String → String
  | [child] => if !child.isLeaf && label != rootCategory then unaryMark else ""
  | _ => ""

/-- What fine annotation appends to the label of an inner node. -/
def fineMarks (parent grandparent label : String) (children : Forest String) : String :=
  String.ofList (markChars '^' [parent, grandparent]) ++ unaryMarkOf label children

/-- What fine annotation makes of the children of a node. -/
def fineChildren (label parent : String) : Forest String → Forest String
  | [child] => [fineTree label (parent ++ loneMark child.label) child]
  | children => fineChain (intermediateHeader label) "" label parent children

theorem fineTree_node {children : Forest String} (parent grandparent label : String)
    (nonempty : children ≠ []) :
    fineTree parent grandparent (.node label children) =
      .node (label ++ fineMarks parent grandparent label children)
        (fineChildren label parent children) := by
  match children with
  | [] => contradiction
  | [child] =>
      rw [fineTree, fineChildren, fineMarks, unaryMarkOf, ancestorLabel, withMarks_eq]
      split <;> simp [String.append_assoc]
  | first :: second :: rest =>
      simp [fineTree, fineChildren, fineMarks, unaryMarkOf, ancestorLabel, withMarks_eq]

/-- Below a parent the marks start with its mark. -/
theorem head?_fineMarks {parent : String} (below : parent ≠ "")
    (grandparent label : String) (children : Forest String) :
    (fineMarks parent grandparent label children).toList.head? = some '^' := by
  simp [fineMarks, markChars, below]

/-- A root has no marks but the unary one. -/
theorem fineMarks_root (label : String) (children : Forest String) :
    fineMarks "" "" label children = unaryMarkOf label children := by
  simp [fineMarks, markChars]

theorem unaryMarkOf_eq (label : String) (children : Forest String) :
    unaryMarkOf label children = "" ∨
      label ≠ rootCategory ∧ unaryMarkOf label children = unaryMark := by
  unfold unaryMarkOf
  split
  · split
    · rename_i marked
      rw [Bool.and_eq_true, bne_iff_ne] at marked
      exact .inr ⟨marked.2, rfl⟩
    · exact .inl rfl
  · exact .inl rfl

/-! ## What marks are made of -/

/-- The characters that annotation itself writes into marks. -/
def markLetters : List Char :=
  ['^', '-', 'U']

/-- Only the known labels and the mark letters went into a text. -/
def IsDrawnFrom (Known : String → Prop) (text : String) : Prop :=
  ∀ c ∈ text.toList, c ∈ markLetters ∨ ∃ label, Known label ∧ c ∈ label.toList

section Drawn

variable {Known : String → Prop} {text more : String}

theorem isDrawnFrom_empty : IsDrawnFrom Known "" := by
  rintro c ⟨⟩

theorem isDrawnFrom_of_known (known : Known text) : IsDrawnFrom Known text :=
  fun _ member => .inr ⟨text, known, member⟩

theorem IsDrawnFrom.append (drawn : IsDrawnFrom Known text)
    (moreDrawn : IsDrawnFrom Known more) : IsDrawnFrom Known (text ++ more) := by
  intro c member
  rw [String.toList_append, List.mem_append] at member
  exact member.elim (drawn c) (moreDrawn c)

/-- A character that is in none of the labels and is no mark letter is not in a text
drawn from them. -/
theorem IsDrawnFrom.notMem {c : Char} (drawn : IsDrawnFrom Known text)
    (noLetter : c ∉ markLetters) (absent : ∀ label, Known label → c ∉ label.toList) :
    c ∉ text.toList := by
  intro member
  rcases drawn c member with letter | ⟨label, known, inside⟩
  · exact noLetter letter
  · exact absent label known inside

theorem isDrawnFrom_of_letters (letters : ∀ c ∈ text.toList, c ∈ markLetters) :
    IsDrawnFrom Known text :=
  fun c member => .inl (letters c member)

theorem isDrawnFrom_loneMark (category : String) :
    IsDrawnFrom Known (loneMark category) := by
  unfold loneMark
  split
  · exact isDrawnFrom_of_letters (by simp [markLetters])
  · exact isDrawnFrom_empty

theorem isDrawnFrom_unaryMarkOf (label : String) (children : Forest String) :
    IsDrawnFrom Known (unaryMarkOf label children) := by
  rcases unaryMarkOf_eq label children with none | ⟨-, marked⟩
  · rw [none]
    exact isDrawnFrom_empty
  · rw [marked]
    exact isDrawnFrom_of_letters (by simp [unaryMark, markLetters])

theorem isDrawnFrom_fineMarks {parent grandparent : String}
    (above : IsDrawnFrom Known parent) (further : IsDrawnFrom Known grandparent)
    (label : String) (children : Forest String) :
    IsDrawnFrom Known (fineMarks parent grandparent label children) := by
  refine IsDrawnFrom.append ?_ (isDrawnFrom_unaryMarkOf label children)
  intro c member
  rw [String.toList_ofList] at member
  rcases mem_markChars member with rfl | ⟨part, either, inside⟩
  · exact .inl List.mem_cons_self
  · rw [List.mem_pair] at either
    rcases either with rfl | rfl
    · exact above c inside
    · exact further c inside

end Drawn

/-! ## How fine labels refine coarse ones -/

/-- The fine label of a node below the root: a known label and marks, or the header of
a known label and siblings. -/
inductive Refines (Known : String → Prop) : String → String → Prop
  | constituent {label marks : String} (known : Known label)
      (starts : marks.toList.head? = some '^') (drawn : IsDrawnFrom Known marks) :
      Refines Known label (label ++ marks)
  | part {category : String} (known : Known category) (history : String) :
      Refines Known (intermediateHeader category) (intermediateHeader category ++ history)

/-- The fine label of a root: its own one, with the unary mark or without; the root
category is never marked. -/
inductive RefinesRoot (Top : String → Prop) : String → String → Prop
  | plain {label : String} (top : Top label) : RefinesRoot Top label label
  | unary {label : String} (top : Top label) (marked : label ≠ rootCategory) :
      RefinesRoot Top label (label ++ unaryMark)

section Refines

variable {Known Top : String → Prop}

/-- Siblings stand behind headers only, whatever they look like themselves. -/
theorem ignoresOldest_refines (plain : ∀ label, Known label → '_' ∉ label.toList) :
    IgnoresOldest (Refines Known) := by
  rintro _ _ (⟨known, starts, drawn⟩ | ⟨known, history⟩)
  · rw [dropOldest_of_notMem]
    · exact .constituent known starts drawn
    · rw [String.toList_append, List.mem_append, not_or]
      exact ⟨plain _ known, drawn.notMem (by decide) plain⟩
  · rw [dropOldest_intermediateHeader_append (plain _ known)]
    exact .part known _

theorem ignoresOldest_refinesRoot (plain : ∀ label, Top label → '_' ∉ label.toList) :
    IgnoresOldest (RefinesRoot Top) := by
  rintro _ _ (top | ⟨top, marked⟩)
  · rw [dropOldest_of_notMem (plain _ top)]
    exact .plain top
  · rw [dropOldest_of_notMem]
    · exact .unary top marked
    · rw [String.toList_append, List.mem_append, not_or]
      exact ⟨plain _ top, by decide⟩

end Refines

/-! ## Fine and coarse trees -/

section Aligned

variable {Known Top : String → Prop}

theorem aligned_fineTree (named : ∀ label, Known label → label ≠ "")
    {tree : Tree String} {parent grandparent : String}
    (known : ∀ label ∈ tree.nodeLabels, Known label) (above : Known parent)
    (further : IsDrawnFrom Known grandparent)
    (inside : Forest.Aligned (Refines Known)
      (coarseChain (intermediateHeader tree.label) tree.children)
      (fineChildren tree.label parent tree.children))
    {rest others : Forest String} (later : Forest.Aligned (Refines Known) rest others) :
    Forest.Aligned (Refines Known) (annotateCoarse tree :: rest)
      (fineTree parent grandparent tree :: others) := by
  rcases tree with ⟨label, _ | ⟨first, more⟩⟩
  · rw [fineTree, annotateCoarse]
    exact .word label later
  · have nonempty : first :: more ≠ [] := List.cons_ne_nil first more
    have own := ((Tree.forall_mem_nodeLabels_node nonempty).mp known).1
    rw [fineTree_node parent grandparent label nonempty, annotateCoarse]
    refine .inner (.constituent own ?_ ?_) (coarseChain_ne_nil nonempty) inside later
    · exact head?_fineMarks (named parent above) grandparent label _
    · exact isDrawnFrom_fineMarks (isDrawnFrom_of_known above) further label _

mutual

/-- The children of a node line up in the two annotations. -/
theorem aligned_fineChildren (named : ∀ label, Known label → label ≠ "") :
    (tree : Tree String) → (parent : String) → IsDrawnFrom Known parent →
      (∀ label ∈ tree.nodeLabels, Known label) →
      Forest.Aligned (Refines Known)
        (coarseChain (intermediateHeader tree.label) tree.children)
        (fineChildren tree.label parent tree.children)
  | .node word [], _, _, _ => .nil
  | .node label [child], parent, above, known => by
      rw [Tree.forall_mem_nodeLabels_node (List.cons_ne_nil child [])] at known
      rcases known with ⟨own, below⟩
      have childKnown := below child List.mem_cons_self
      rw [Tree.label_node, Tree.children_node, coarseChain, fineChildren]
      exact aligned_fineTree named childKnown own
        (above.append (isDrawnFrom_loneMark child.label))
        (aligned_fineChildren named child label (isDrawnFrom_of_known own) childKnown) .nil
  | .node label (first :: second :: rest), parent, above, known => by
      rw [Tree.forall_mem_nodeLabels_node (List.cons_ne_nil first (second :: rest))] at known
      rcases known with ⟨own, below⟩
      exact aligned_fineChain named (first :: second :: rest) label "" label parent own own
        above below

theorem aligned_fineChain (named : ∀ label, Known label → label ≠ "") :
    (forest : Forest String) → (category previous parent grandparent : String) →
      Known category → Known parent → IsDrawnFrom Known grandparent →
      (∀ tree ∈ forest, ∀ label ∈ tree.nodeLabels, Known label) →
      Forest.Aligned (Refines Known) (coarseChain (intermediateHeader category) forest)
        (fineChain (intermediateHeader category) previous parent grandparent forest)
  | [], _, _, _, _, _, _, _, _ => .nil
  | [last], category, previous, parent, grandparent, _, above, further, known => by
      have lastKnown := known last List.mem_cons_self
      rw [coarseChain, fineChain]
      exact aligned_fineTree named lastKnown above further
        (aligned_fineChildren named last parent (isDrawnFrom_of_known above) lastKnown) .nil
  | first :: second :: rest, category, previous, parent, grandparent, header, above, further,
      known => by
      rcases List.forall_mem_cons.mp known with ⟨here, later⟩
      have chain := aligned_fineChain named (second :: rest) category first.label parent
        grandparent header above further later
      rw [coarseChain, fineChain, withMarks_eq]
      exact aligned_fineTree named here above further
        (aligned_fineChildren named first parent (isDrawnFrom_of_known above) here)
        (.inner (.part header _) (coarseChain_ne_nil (List.cons_ne_nil second rest)) chain .nil)

end

/-- The fine tree is aligned with the coarse one. -/
theorem aligned_annotateFine (named : ∀ label, Known label → label ≠ "")
    {tree : Tree String} (known : ∀ label ∈ tree.nodeLabels, Known label)
    (top : tree.isLeaf = false → Top tree.label) :
    Tree.Aligned (RefinesRoot Top) (Refines Known) (annotateCoarse tree)
      (annotateFine tree) := by
  have inside := aligned_fineChildren named tree "" isDrawnFrom_empty known
  rcases tree with ⟨label, _ | ⟨first, rest⟩⟩
  · rw [annotateFine, fineTree, annotateCoarse]
    exact .word label
  · have nonempty : first :: rest ≠ [] := List.cons_ne_nil first rest
    rw [annotateFine, fineTree_node "" "" label nonempty, fineMarks_root, annotateCoarse]
    refine .inner ?_ (coarseChain_ne_nil nonempty) inside
    rcases unaryMarkOf_eq label (first :: rest) with none | ⟨other, marked⟩
    · rw [none, String.append_empty]
      exact .plain (top rfl)
    · rw [marked]
      exact .unary (top rfl) other

/-- The fine trees of a treebank stay aligned with its coarse trees when they are
collapsed. -/
theorem forall₂_collapseEach_annotateFine (named : ∀ label, Known label → label ≠ "")
    (plain : ∀ label, Known label → '_' ∉ label.toList)
    (topPlain : ∀ label, Top label → '_' ∉ label.toList) {forest : Forest String}
    (known : ∀ tree ∈ forest, ∀ label ∈ tree.nodeLabels, Known label)
    (top : ∀ tree ∈ forest, tree.isLeaf = false → Top tree.label)
    (thresholds : List Nat) :
    List.Forall₂ (Tree.Aligned (RefinesRoot Top) (Refines Known))
      (List.map annotateCoarse forest)
      (collapseEach thresholds (List.map annotateFine forest)) := by
  refine forall₂_collapseEach (ignoresOldest_refinesRoot topPlain)
    (ignoresOldest_refines plain) thresholds ?_
  rw [List.forall₂_map_left_iff, List.forall₂_map_right_iff, List.forall₂_same]
  exact fun tree member => aligned_annotateFine named (known tree member) (top tree member)

end Aligned

end ChartParsing.Refinement
