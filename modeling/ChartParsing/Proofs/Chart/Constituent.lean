import ChartParsing.Chart.Inside
import ChartParsing.Proofs.Derivation
import ChartParsing.Proofs.Tree.Placed
import ChartParsing.Proofs.Unary.Closure

/-!
# Constituents

`Pass.Admits` says which constituents a pass admits into the cells of its chart: a
word under a label, a binary rule over two closed constituents, or a chain of unary
rules of any length on top of a built one, as long as the cell of the result is not
pruned.  The relation mentions neither the chart nor the closure.

Every constituent is a derivation of its label over the words of its span
(`Pass.Admits.derives`, `Pass.Admits.words_eq`), and a derivation is a constituent
as soon as the pass keeps the cells of all its nodes (`Pass.admits_of_derives`).
-/

namespace ChartParsing

variable {pass : Pass ExactScore} {label : LabelId} {start stop : Nat}
  {tree : Tree String} {score : ExactScore}

namespace Pass

/-- The constituents of a pass at a stage, with their labels, spans and scores. -/
inductive Admits (pass : Pass ExactScore) :
    Stage → LabelId → (start stop : Nat) → Tree String → ExactScore → Prop
  | word {label : LabelId} {start : Nat} {word : String} :
      label < pass.model.grammar.labels.size → pass.words[start]? = some word →
      pass.pruned .built label start (start + 1) = false →
      Admits pass .built label start (start + 1)
        (.node (pass.model.grammar.labels.name label) [.leaf word])
        (pass.model.tagScore word (pass.model.grammar.labels.name label))
  | split {rule : BinaryRule ExactScore} {start middle stop : Nat}
      {left right : Tree String} {leftScore rightScore : ExactScore} :
      rule ∈ pass.model.grammar.binary →
      pass.pruned .built rule.parent start stop = false →
      Admits pass .closed rule.left start middle left leftScore →
      Admits pass .closed rule.right middle stop right rightScore →
      Admits pass .built rule.parent start stop
        (.node (pass.model.grammar.labels.name rule.parent) [left, right])
        (rule.score + leftScore + rightScore)
  | close {label base : LabelId} {start stop : Nat} {path : List LabelId}
      {tree : Tree String} {chain score : ExactScore} :
      label < pass.model.grammar.labels.size →
      pass.pruned .closed label start stop = false →
      UnaryRule.Leads pass.model.grammar.unary label base path chain →
      Admits pass .built base start stop tree score →
      Admits pass .closed label start stop
        (Tree.under (path.dropLast.map pass.model.grammar.labels.name) tree)
        (chain + score)

namespace Admits

variable {stage : Stage}

theorem known (wellFormed : pass.model.grammar.WellFormed)
    (admits : pass.Admits stage label start stop tree score) :
    label < pass.model.grammar.labels.size := by
  cases admits with
  | word known => exact known
  | split member => exact (wellFormed.binaryKnown _ member).1
  | close known => exact known

/-- The span of a constituent is not empty and lies in the sentence. -/
theorem bounds (admits : pass.Admits stage label start stop tree score) :
    start < stop ∧ stop ≤ pass.length := by
  induction admits with
  | word _ found =>
      rcases List.getElem?_eq_some_iff.mp found with ⟨inside, -⟩
      exact ⟨Nat.lt_succ_self _, inside⟩
  | split _ _ _ _ left right => exact ⟨left.1.trans right.1, right.2⟩
  | close _ _ _ _ inductionHypothesis => exact inductionHypothesis

/-- The words of a constituent are those of its span. -/
theorem words_eq (admits : pass.Admits stage label start stop tree score) :
    pass.words.drop start = tree.leaves ++ pass.words.drop stop := by
  induction admits with
  | word _ found =>
      rcases List.getElem?_eq_some_iff.mp found with ⟨inside, rfl⟩
      rw [Tree.leaves_single, Tree.leaves_leaf, List.singleton_append,
        List.getElem_cons_drop]
  | split _ _ _ _ left right =>
      rw [Tree.leaves_pair, left, right, List.append_assoc]
  | close _ _ _ _ inductionHypothesis => rw [Tree.leaves_under, inductionHypothesis]

/-- A constituent has as many words as its span. -/
theorem start_add_length (admits : pass.Admits stage label start stop tree score) :
    start + tree.leaves.length = stop := by
  induction admits with
  | word => rfl
  | split _ _ _ _ left right =>
      rw [Tree.leaves_pair, List.length_append, ← Nat.add_assoc, left, right]
  | close _ _ _ _ inductionHypothesis => rw [Tree.leaves_under, inductionHypothesis]

/-- What a chain puts on top of a derivation is a derivation. -/
theorem derives_under {model : Model ExactScore} {source target : LabelId}
    {path : List LabelId} {chain : ExactScore}
    (leads : UnaryRule.Leads model.grammar.unary source target path chain)
    (derives : model.Derives target tree score) :
    model.Derives source (Tree.under (path.dropLast.map model.grammar.labels.name) tree)
      (chain + score) := by
  induction leads with
  | stay label =>
      rw [zero_add]
      exact derives
  | step member rest inductionHypothesis =>
      rw [List.dropLast_cons_of_ne_nil rest.path_ne_nil, List.map_cons, Tree.under_cons,
        add_assoc]
      exact .unary member (inductionHypothesis derives)

/-- A constituent is a derivation of its label. -/
theorem derives (admits : pass.Admits stage label start stop tree score) :
    pass.model.Derives label tree score := by
  induction admits with
  | word known => exact .word _ known
  | split member _ _ _ left right => exact .binary member left right
  | close _ _ leads _ inductionHypothesis => exact derives_under leads inductionHypothesis

/-- A built constituent has a word or two constituents below its label. -/
theorem isUnaryStep (admits : pass.Admits .built label start stop tree score) :
    tree.isUnaryStep = false := by
  cases admits <;> rfl

/-- A built constituent is closed by no step where the closed cell is kept. -/
theorem asBuilt (admits : pass.Admits .built label start stop tree score)
    (known : label < pass.model.grammar.labels.size)
    (kept : pass.pruned .closed label start stop = false) :
    pass.Admits .closed label start stop tree score := by
  have closed := Admits.close known kept (.stay label) admits
  rw [zero_add] at closed
  exact closed

/-- A unary rule may be put on top of a closed constituent. -/
theorem step {rule : UnaryRule ExactScore}
    (admits : pass.Admits .closed rule.child start stop tree score)
    (known : rule.parent < pass.model.grammar.labels.size)
    (member : rule ∈ pass.model.grammar.unary)
    (kept : pass.pruned .closed rule.parent start stop = false) :
    pass.Admits .closed rule.parent start stop
      (.node (pass.model.grammar.labels.name rule.parent) [tree])
      (rule.score + score) := by
  cases admits with
  | close _ _ leads below =>
      have closed := Admits.close known kept (leads.step member) below
      rw [List.dropLast_cons_of_ne_nil leads.path_ne_nil, List.map_cons,
        Tree.under_cons, add_assoc] at closed
      exact closed

end Admits

/-! ## Derivations as constituents -/

/-- The cells of all nodes of a tree are kept, where `start` is its place. -/
def Keeps (pass : Pass ExactScore) (start : Nat) (tree : Tree String) : Prop :=
  ∀ place node, (place, node) ∈ tree.placed start → node.isLeaf = false →
    ∀ label < pass.model.grammar.labels.size,
      pass.model.grammar.labels.name label = node.label →
      pass.pruned .closed label place (place + node.leaves.length) = false ∧
        (node.isUnaryStep = false →
          pass.pruned .built label place (place + node.leaves.length) = false)

/-- A pass that prunes nothing keeps every tree. -/
theorem keeps_of_nothing (unpruned : pass.pruned = .nothing) (start : Nat)
    (tree : Tree String) : pass.Keeps start tree := by
  intro place node _ _ label _ _
  rw [unpruned]
  exact ⟨rfl, fun _ => rfl⟩

/-- A derivation over the words of a span is a constituent if its cells are
kept. -/
theorem admits_of_derives (wellFormed : pass.model.grammar.WellFormed)
    (derives : pass.model.Derives label tree score)
    (words : pass.words.drop start =
      tree.leaves ++ pass.words.drop (start + tree.leaves.length))
    (keeps : pass.Keeps start tree) :
    pass.Admits .closed label start (start + tree.leaves.length) tree score := by
  have ownCells {label : LabelId} {start : Nat} {tree : Tree String}
      {score : ExactScore} (derives : pass.model.Derives label tree score)
      (keeps : pass.Keeps start tree) :=
    keeps start tree (Tree.self_mem_placed start tree) derives.isLeaf label
      (derives.known wellFormed) derives.label_eq.symm
  induction derives generalizing start with
  | @word label word known =>
      rcases ownCells (.word word known) keeps with ⟨closed, built⟩
      refine Admits.asBuilt (.word known ?_ (built rfl)) known closed
      rw [← List.head?_drop, words]
      rfl
  | @unary rule child score member below inductionHypothesis =>
      rcases ownCells (.unary member below) keeps with ⟨closed, -⟩
      rw [Tree.leaves_single] at words closed ⊢
      refine Admits.step (inductionHypothesis words ?_)
        (wellFormed.unaryKnown rule member).1 member closed
      intro place node inside
      exact keeps place node (Tree.mem_placed_single.mpr (Or.inr inside))
  | @binary rule left right leftScore rightScore member leftDerives rightDerives
      leftHypothesis rightHypothesis =>
      obtain ⟨closed, built⟩ := ownCells (.binary member leftDerives rightDerives) keeps
      have place : start + (left.leaves ++ right.leaves).length =
          start + left.leaves.length + right.leaves.length := by
        rw [List.length_append, Nat.add_assoc]
      rw [Tree.leaves_pair, place] at words closed built ⊢
      have after : pass.words.drop (start + left.leaves.length) = right.leaves ++
          pass.words.drop (start + left.leaves.length + right.leaves.length) := by
        rw [← List.drop_drop, words, List.append_assoc, List.drop_left]
      have before : pass.words.drop start =
          left.leaves ++ pass.words.drop (start + left.leaves.length) := by
        rw [after, ← List.append_assoc]
        exact words
      have leftAdmits := leftHypothesis before fun place node inside =>
        keeps place node (Tree.mem_placed_pair.mpr (Or.inr (Or.inl inside)))
      have rightAdmits := rightHypothesis after fun place node inside =>
        keeps place node (Tree.mem_placed_pair.mpr (Or.inr (Or.inr inside)))
      exact Admits.asBuilt (.split member (built rfl) leftAdmits rightAdmits)
        (wellFormed.binaryKnown rule member).1 closed

/-- A constituent of the whole sentence under the root is a parse. -/
theorem Admits.isParse (wellFormed : pass.model.grammar.WellFormed)
    (admits : pass.Admits .closed pass.model.grammar.root 0 pass.length tree score) :
    pass.model.IsParse pass.words tree score := by
  have words := admits.words_eq
  rw [List.drop_zero, length, List.drop_length, List.append_nil] at words
  exact (Model.isParse_iff_derives wellFormed).mpr ⟨admits.derives, words.symm⟩

/-- A parse is a constituent of the whole sentence if its cells are kept. -/
theorem admits_of_isParse (wellFormed : pass.model.grammar.WellFormed)
    (parse : pass.model.IsParse pass.words tree score) (keeps : pass.Keeps 0 tree) :
    pass.Admits .closed pass.model.grammar.root 0 pass.length tree score := by
  rcases (Model.isParse_iff_derives wellFormed).mp parse with ⟨derives, leaves⟩
  have words : pass.words.drop 0 =
      tree.leaves ++ pass.words.drop (0 + tree.leaves.length) := by
    rw [leaves, Nat.zero_add, List.drop_length, List.append_nil, List.drop_zero]
  have admits := admits_of_derives wellFormed derives words keeps
  rw [leaves, Nat.zero_add] at admits
  exact admits

/-- The parses of a sentence are the constituents of a pass that prunes nothing. -/
theorem admits_root_iff_isParse (wellFormed : pass.model.grammar.WellFormed)
    (unpruned : pass.pruned = .nothing) :
    pass.Admits .closed pass.model.grammar.root 0 pass.length tree score ↔
      pass.model.IsParse pass.words tree score := by
  constructor
  · exact fun admits => admits.isParse wellFormed
  · exact fun parse => admits_of_isParse wellFormed parse (keeps_of_nothing unpruned 0 tree)

end Pass

end ChartParsing
