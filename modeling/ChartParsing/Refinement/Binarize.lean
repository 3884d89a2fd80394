import ChartParsing.Refinement.Label
import ChartParsing.Tree.Basic

/-!
# Binarized annotation of trees

A node with several children becomes a chain that branches to the right: its
first child, and an intermediate node over the others.  The coarse annotation
stops there.  The fine annotation also marks each label with its parent and
grandparent, marks nodes with a single inner child, and writes the last two
siblings into the label of each intermediate node.
-/

namespace ChartParsing.Refinement

/-! ## Coarse annotation -/

mutual

/-- Binarize a tree and leave its labels alone; all the intermediate nodes below
a constituent share its header. -/
def annotateCoarse : Tree String → Tree String
  | .node label children =>
      .node label (coarseChain (intermediateHeader label) children)

/-- The children of a constituent as a chain of intermediate nodes labelled
`header`. -/
def coarseChain (header : String) : Forest String → Forest String
  | [] => []
  | [last] => [annotateCoarse last]
  | first :: second :: rest =>
      [annotateCoarse first, .node header (coarseChain header (second :: rest))]

end

/-! ## Fine annotation -/

/-- The root category, which takes no unary mark. -/
def rootCategory : String := "ROOT"

/-- The mark of a label whose only child is not a word. -/
def unaryMark : String := "-U"

/-- The mark that the only child hands down to its own children, if its category
is one of those that behave differently when they stand alone. -/
def loneMark (category : String) : String :=
  if category = "RB" ∨ category = "DT" then "^U" else ""

/-- The fine label of a node whose children are not a single inner node. -/
def ancestorLabel (label parent grandparent : String) : String :=
  withMarks '^' label [parent, grandparent]

mutual

/-- Annotate a tree below `parent` and `grandparent`, which are empty above the
root. -/
def fineTree (parent grandparent : String) : Tree String → Tree String
  | .node label [] => .node label []
  | .node label [child] =>
      let marked := ancestorLabel label parent grandparent
      let marked :=
        if !child.isLeaf && label != rootCategory then marked ++ unaryMark
        else marked
      .node marked [fineTree label (parent ++ loneMark child.label) child]
  | .node label (first :: second :: rest) =>
      .node (ancestorLabel label parent grandparent)
        (fineChain (intermediateHeader label) "" label parent
          (first :: second :: rest))

/-- The children of a constituent `parent` as a chain of intermediate nodes.  The
label of a node holds the last two siblings before it; `previous` is the one
before the first of the children given. -/
def fineChain (header previous parent grandparent : String) :
    Forest String → Forest String
  | [] => []
  | [last] => [fineTree parent grandparent last]
  | first :: second :: rest =>
      [fineTree parent grandparent first,
        .node (withMarks '_' header [previous, first.label])
          (fineChain header first.label parent grandparent (second :: rest))]

end

/-- Binarize a tree with its vertical and horizontal context in the labels. -/
def annotateFine (tree : Tree String) : Tree String :=
  fineTree "" "" tree

/-! ## Equations -/

@[simp]
theorem annotateCoarse_leaf (word : String) :
    annotateCoarse (.leaf word) = .leaf word := by
  simp [Tree.leaf, annotateCoarse, coarseChain]

@[simp]
theorem label_annotateCoarse (tree : Tree String) :
    (annotateCoarse tree).label = tree.label := by
  cases tree
  simp [annotateCoarse]

@[simp]
theorem annotateFine_leaf (word : String) :
    annotateFine (.leaf word) = .leaf word := by
  simp [Tree.leaf, annotateFine, fineTree]

end ChartParsing.Refinement
