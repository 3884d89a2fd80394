import Mathlib.Data.List.Induction
import ChartParsing.Proofs.Refinement.Fine
import ChartParsing.Proofs.Tree.Path

/-!
# Where the marks of a fine label come from

Binarization moves the nodes of a tree, but each of them can be found again: to the child
at a place one goes down as many intermediate nodes (`binarizedPath`).  There stands its
fine tree, below the labels of its parent and its grandparent (`subtreeAt?_annotateFine`).

So a fine label is the old one with the marks of the nodes above it, and with the unary mark
where the node has a single child that is not a word and is not labelled like a root
(`annotateFine_marks_unary`).  Only the label tells a root from other nodes: a root of
another name takes the mark, and an inner node of that name does not
(`annotateFine_marks_by_name`).
-/

namespace ChartParsing.Refinement

/-! ## Where nodes go -/

/-- The path in a binarized tree to the node at a path of the tree. -/
def binarizedPath (path : List Nat) : List Nat :=
  path.flatMap fun place => List.replicate place 1 ++ [0]

theorem binarizedPath_concat (path : List Nat) (place : Nat) :
    binarizedPath (path ++ [place]) =
      binarizedPath path ++ (List.replicate place 1 ++ [0]) := by
  simp [binarizedPath]

/-- The mark of a node that stands alone below its parent, if its category takes one. -/
def loneMarkAt (tree : Tree String) (path : List Nat) (category : String) : String :=
  if (tree.parentAt? path).any (·.children.length == 1) then loneMark category else ""

/-- The label of the node above the one at a path, empty above the top. -/
def parentLabel (tree : Tree String) (path : List Nat) : String :=
  ((tree.parentAt? path).map Tree.label).getD ""

/-- What the label of a node takes over from the nodes above it: the label of its parent,
and that of its grandparent with the mark of a node that stands alone. -/
def ancestorParts (tree : Tree String) (path : List Nat) (category : String) : List String :=
  [parentLabel tree path, parentLabel tree path.dropLast ++ loneMarkAt tree path category]

theorem parentLabel_concat {tree parent : Tree String} {path : List Nat}
    (found : tree.subtreeAt? path = some parent) (place : Nat) :
    parentLabel tree (path ++ [place]) = parent.label := by
  simp [parentLabel, found]

theorem loneMarkAt_concat {tree parent : Tree String} {path : List Nat}
    (found : tree.subtreeAt? path = some parent) (place : Nat) (category : String) :
    loneMarkAt tree (path ++ [place]) category =
      if parent.children.length = 1 then loneMark category else "" := by
  simp [loneMarkAt, found]

/-! ## Fine trees in their places -/

/-- The child at a place is the first child of the last intermediate node on the way. -/
theorem subtreeAt?_fineChain {forest : Forest String} {place : Nat} {child : Tree String}
    (found : forest[place]? = some child)
    (label header previous parent grandparent : String) :
    (Tree.node label (fineChain header previous parent grandparent forest)).subtreeAt?
        (List.replicate place 1 ++ [0]) =
      some (fineTree parent grandparent child) := by
  induction place generalizing forest label previous with
  | zero =>
      rcases forest with _ | ⟨first, _ | ⟨second, rest⟩⟩
      · cases found
      · obtain rfl := Option.some.inj found
        rw [fineChain]
        rfl
      · obtain rfl := Option.some.inj found
        rw [fineChain]
        rfl
  | succ place inductionHypothesis =>
      rcases forest with _ | ⟨first, _ | ⟨second, rest⟩⟩
      · cases found
      · cases found
      · have later : (second :: rest)[place]? = some child := found
        rw [fineChain]
        exact inductionHypothesis later _ _

theorem subtreeAt?_fineTree {node child : Tree String} {place : Nat}
    (found : node.children[place]? = some child) (parent grandparent : String) :
    (fineTree parent grandparent node).subtreeAt? (List.replicate place 1 ++ [0]) =
      some (fineTree node.label
        (parent ++ if node.children.length = 1 then loneMark child.label else "") child) := by
  rcases node with ⟨label, children⟩
  have nonempty : children ≠ [] := by
    rintro rfl
    cases found
  rw [fineTree_node parent grandparent label nonempty]
  rcases children with _ | ⟨first, _ | ⟨second, rest⟩⟩
  · contradiction
  · cases place with
    | zero =>
        obtain rfl := Option.some.inj found
        rfl
    | succ place => cases found
  · have chain := subtreeAt?_fineChain found
      (label ++ fineMarks parent grandparent label (first :: second :: rest))
      (intermediateHeader label) "" label parent
    rw [if_neg (by simp), String.append_empty]
    exact chain

/-- Where a node has gone its fine tree stands, below the labels of the nodes above it. -/
theorem subtreeAt?_annotateFine {tree node : Tree String} {path : List Nat}
    (found : tree.subtreeAt? path = some node) :
    (annotateFine tree).subtreeAt? (binarizedPath path) =
      some (fineTree (parentLabel tree path)
        (parentLabel tree path.dropLast ++ loneMarkAt tree path node.label) node) := by
  induction path using List.reverseRecOn generalizing node with
  | nil =>
      obtain rfl := Option.some.inj found
      rfl
  | append_singleton path place inductionHypothesis =>
      obtain ⟨parent, above, below⟩ := Tree.subtreeAt?_concat_eq_some_iff.mp found
      rw [binarizedPath_concat, Tree.subtreeAt?_append, inductionHypothesis above,
        Option.bind_some, subtreeAt?_fineTree below, parentLabel_concat above,
        loneMarkAt_concat above, List.dropLast_concat]

/-! ## Fine labels -/

/-- A label without marks and arrow is its own coarse label. -/
theorem coarseLabel_of_bare {label : String} (noArrow : '>' ∉ label.toList)
    (noCaret : '^' ∉ label.toList) : coarseLabel label = label := by
  apply String.toList_injective
  rw [toList_coarseLabel, coarseChars, if_neg noArrow]
  exact List.takeWhile_eq_self_iff.mpr (bne_of_notMem noCaret)

theorem unaryMarkOf_children (node : Tree String) :
    unaryMarkOf node.label node.children =
      if node.isUnaryStep = true ∧ node.label ≠ rootCategory then unaryMark else "" := by
  rcases node with ⟨label, _ | ⟨first, _ | ⟨second, rest⟩⟩⟩
  · rfl
  · simp [unaryMarkOf, Tree.isUnaryStep]
  · rfl

theorem label_fineTree {node : Tree String} (inner : node.isLeaf = false)
    (parent grandparent : String) :
    (fineTree parent grandparent node).label =
      withMarks '^' node.label [parent, grandparent] ++
        unaryMarkOf node.label node.children := by
  rcases node with ⟨label, children⟩
  have nonempty : children ≠ [] := by
    rintro rfl
    cases inner
  rw [fineTree_node parent grandparent label nonempty, withMarks_eq, fineMarks,
    String.append_assoc]
  rfl

/-- A fine label is the old one with the marks of the nodes above it, and with the unary
mark exactly where the node has a single child that is not a word and is not labelled as a
root.  Where this label tells whether a node is the root, the marked ones are all but the
root.  A root that is not marked keeps its label, which is its coarse label too. -/
theorem annotateFine_marks_unary {tree node : Tree String} {path : List Nat}
    (found : tree.subtreeAt? path = some node) (inner : node.isLeaf = false) :
    ∃ fine mark, (annotateFine tree).subtreeAt? (binarizedPath path) = some fine ∧
      fine.label = withMarks '^' node.label (ancestorParts tree path node.label) ++ mark ∧
      mark = (if node.isUnaryStep = true ∧ node.label ≠ rootCategory then unaryMark else "") ∧
      ((node.label = rootCategory ↔ path = []) →
        (mark = unaryMark ↔ path ≠ [] ∧ node.isUnaryStep = true)) ∧
      (path = [] → node.label = rootCategory ∨ node.isUnaryStep = false →
        fine.label = node.label ∧
          ('^' ∉ node.label.toList → '>' ∉ node.label.toList →
            coarseLabel fine.label = node.label)) := by
  have marked_iff : (if node.isUnaryStep = true ∧ node.label ≠ rootCategory then unaryMark
      else "") = unaryMark ↔ node.isUnaryStep = true ∧ node.label ≠ rootCategory := by
    have different : "" ≠ unaryMark := by decide
    split
    · rename_i marked
      exact iff_of_true rfl marked
    · rename_i unmarked
      exact iff_of_false different unmarked
  have label := label_fineTree inner (parentLabel tree path)
    (parentLabel tree path.dropLast ++ loneMarkAt tree path node.label)
  rw [unaryMarkOf_children] at label
  refine ⟨_, _, subtreeAt?_annotateFine found, label, rfl, ?named, ?root⟩
  case named =>
    intro named
    rw [marked_iff, Ne, named, and_comm]
  case root =>
    rintro rfl plain
    have unmarked : ¬(node.isUnaryStep = true ∧ node.label ≠ rootCategory) := by
      rintro ⟨step, other⟩
      rcases plain with named | single
      · exact other named
      · exact Bool.false_ne_true (single.symm.trans step)
    have same : (fineTree (parentLabel tree []) (parentLabel tree [].dropLast ++
        loneMarkAt tree [] node.label) node).label = node.label := by
      rw [label, if_neg unmarked]
      simp [parentLabel, loneMarkAt, withMarks]
    refine ⟨same, fun noCaret noArrow => ?_⟩
    rw [same]
    exact coarseLabel_of_bare noArrow noCaret

/-- The verb phrase is the second child, so it is found below an intermediate node. -/
theorem annotateFine_marks_unary_verbPhrase :
    ∃ fine, (annotateFine (.node "ROOT" [.node "S" [.node "ADVP" [.node "RB" [.leaf "now"]],
        .node "VP" [.node "VB" [.leaf "go"]]]])).subtreeAt? [0, 1, 0] = some fine ∧
      fine.label = "VP^S^ROOT-U" := by
  have found : (Tree.node "ROOT" [.node "S" [.node "ADVP" [.node "RB" [.leaf "now"]],
      .node "VP" [.node "VB" [.leaf "go"]]]]).subtreeAt? [0, 1] =
        some (.node "VP" [.node "VB" [.leaf "go"]]) := rfl
  obtain ⟨fine, mark, fineFound, label, marked, -⟩ := annotateFine_marks_unary found rfl
  refine ⟨fine, fineFound, ?_⟩
  rw [label, marked]
  decide +kernel

/-- A root that is named differently takes the unary mark, which no coarse label takes off
again, and below the root a node named like one takes none. -/
theorem annotateFine_marks_by_name :
    annotateFine (.node "TOP" [.node "S" [.node "NN" [.leaf "a"]]]) =
      .node "TOP-U" [.node "S^TOP-U" [.node "NN^S^TOP" [.leaf "a"]]] ∧
    coarseLabel "TOP-U" = "TOP-U" ∧
    annotateFine (.node "ROOT" [.node "S" [.node "ROOT" [.node "NN" [.leaf "a"]]]]) =
      .node "ROOT" [.node "S^ROOT-U" [.node "ROOT^S^ROOT" [.node "NN^ROOT^S" [.leaf "a"]]]] := by
  decide +kernel

end ChartParsing.Refinement
