import ChartParsing.Proofs.Chart.Constituent

/-!
# What surrounds a constituent

`Pass.Surrounds` says how the rest of a derivation of the whole sentence may look
around a constituent of a label over a span, and what it scores.  A closed
constituent is the whole sentence under the root or is joined with a sibling by a
binary rule; a built one may first be closed by a chain of unary rules.

Where nothing is pruned, a constituent and its surroundings make up a parse
(`Pass.Surrounds.exists_whole`), and around each of its inner nodes a parse comes
apart in this way (`Pass.Surrounds.splits_of_mem_placed`).
-/

namespace ChartParsing.Pass

variable {pass : Pass ExactScore}

/-- The scores of the rest of a derivation of the sentence around a constituent at a
stage. -/
inductive Surrounds (pass : Pass ExactScore) :
    Stage → LabelId → (start stop : Nat) → ExactScore → Prop
  | whole : 0 < pass.length →
      Surrounds pass .closed pass.model.grammar.root 0 pass.length 0
  | left {rule : BinaryRule ExactScore} {start middle stop : Nat} {tree : Tree String}
      {outer score : ExactScore} :
      rule ∈ pass.model.grammar.binary → start < middle →
      Surrounds pass .built rule.parent start stop outer →
      pass.Admits .closed rule.right middle stop tree score →
      Surrounds pass .closed rule.left start middle (rule.score + outer + score)
  | right {rule : BinaryRule ExactScore} {start middle stop : Nat} {tree : Tree String}
      {outer score : ExactScore} :
      rule ∈ pass.model.grammar.binary → middle < stop →
      Surrounds pass .built rule.parent start stop outer →
      pass.Admits .closed rule.left start middle tree score →
      Surrounds pass .closed rule.right middle stop (rule.score + outer + score)
  | under {label top : LabelId} {start stop : Nat} {path : List LabelId}
      {chain outer : ExactScore} :
      label < pass.model.grammar.labels.size →
      UnaryRule.Leads pass.model.grammar.unary top label path chain →
      Surrounds pass .closed top start stop outer →
      Surrounds pass .built label start stop (chain + outer)

variable {stage inner : Stage} {label : LabelId} {start stop : Nat} {tree : Tree String}
  {outer score : ExactScore}

/-- Chains of unary rules may be put on top of closed constituents. -/
theorem Admits.under (wellFormed : pass.model.grammar.WellFormed)
    (unpruned : pass.pruned = .nothing) {top : LabelId} {path : List LabelId}
    {chain : ExactScore}
    (leads : UnaryRule.Leads pass.model.grammar.unary top label path chain)
    (admits : pass.Admits .closed label start stop tree score) :
    pass.Admits .closed top start stop
      (Tree.under (path.dropLast.map pass.model.grammar.labels.name) tree)
      (chain + score) := by
  induction leads with
  | stay label =>
      rw [zero_add]
      exact admits
  | @step rule target path chain member rest inductionHypothesis =>
      rw [List.dropLast_cons_of_ne_nil rest.path_ne_nil, List.map_cons, Tree.under_cons,
        add_assoc]
      exact (inductionHypothesis admits).step (wellFormed.unaryKnown rule member).1 member
        (by rw [unpruned]; rfl)

/-- Where nothing is pruned, what is built is closed too. -/
theorem Admits.closed (wellFormed : pass.model.grammar.WellFormed)
    (unpruned : pass.pruned = .nothing)
    (admits : pass.Admits inner label start stop tree score) :
    pass.Admits .closed label start stop tree score := by
  cases inner with
  | built => exact admits.asBuilt (admits.known wellFormed) (by rw [unpruned]; rfl)
  | closed => exact admits

namespace Surrounds

theorem known (wellFormed : pass.model.grammar.WellFormed)
    (surrounds : pass.Surrounds stage label start stop outer) :
    label < pass.model.grammar.labels.size := by
  cases surrounds with
  | whole => exact wellFormed.rooted
  | left member => exact (wellFormed.binaryKnown _ member).2.1
  | right member => exact (wellFormed.binaryKnown _ member).2.2
  | under known => exact known

theorem bounds (surrounds : pass.Surrounds stage label start stop outer) :
    start < stop ∧ stop ≤ pass.length := by
  induction surrounds with
  | whole nonempty => exact ⟨nonempty, Nat.le_refl _⟩
  | left _ after _ sibling =>
      exact ⟨after, sibling.bounds.1.le.trans sibling.bounds.2⟩
  | right _ before _ _ inductionHypothesis => exact ⟨before, inductionHypothesis.2⟩
  | under _ _ _ inductionHypothesis => exact inductionHypothesis

/-- Below a label and one of its unary rules lies the child of the rule. -/
theorem step {rule : UnaryRule ExactScore}
    (surrounds : pass.Surrounds .built rule.parent start stop outer)
    (known : rule.child < pass.model.grammar.labels.size)
    (member : rule ∈ pass.model.grammar.unary) :
    pass.Surrounds .built rule.child start stop (rule.score + outer) := by
  cases surrounds with
  | under _ leads closed =>
      rw [← add_assoc, add_comm rule.score]
      exact .under known (leads.snoc member) closed

/-- What surrounds a closed constituent surrounds a built one as well. -/
theorem asBuilt (wellFormed : pass.model.grammar.WellFormed)
    (surrounds : pass.Surrounds .closed label start stop outer) :
    pass.Surrounds .built label start stop outer := by
  have closed := under (surrounds.known wellFormed) (.stay label) surrounds
  rw [zero_add] at closed
  exact closed

/-- A constituent and its surroundings make up a parse that has the nodes of the
constituent in their places. -/
theorem exists_whole (wellFormed : pass.model.grammar.WellFormed)
    (unpruned : pass.pruned = .nothing)
    (surrounds : pass.Surrounds stage label start stop outer)
    (admits : pass.Admits inner label start stop tree score) :
    ∃ whole,
      pass.Admits .closed pass.model.grammar.root 0 pass.length whole (outer + score) ∧
        tree.placed start ⊆ whole.placed 0 := by
  have closed := admits.closed wellFormed unpruned
  clear admits
  induction surrounds generalizing tree score with
  | whole _ =>
      rw [zero_add]
      exact ⟨tree, closed, List.Subset.refl _⟩
  | @left rule start middle stop sibling outer siblingScore member after around beside
      inductionHypothesis =>
      have built := Admits.split member (by rw [unpruned]; rfl) closed beside
      obtain ⟨whole, admits, included⟩ :=
        inductionHypothesis (built.closed wellFormed unpruned)
      have sum : rule.score + outer + siblingScore + score =
          outer + (rule.score + score + siblingScore) := by ac_rfl
      rw [sum]
      exact ⟨whole, admits, fun node inside =>
        included (Tree.mem_placed_pair.mpr (Or.inr (Or.inl inside)))⟩
  | @right rule start middle stop sibling outer siblingScore member before around beside
      inductionHypothesis =>
      have built := Admits.split member (by rw [unpruned]; rfl) beside closed
      obtain ⟨whole, admits, included⟩ :=
        inductionHypothesis (built.closed wellFormed unpruned)
      have sum : rule.score + outer + siblingScore + score =
          outer + (rule.score + siblingScore + score) := by ac_rfl
      have placed : tree.placed middle ⊆ whole.placed 0 := by
        intro node inside
        rw [← beside.start_add_length] at inside
        exact included (Tree.mem_placed_pair.mpr (Or.inr (Or.inr inside)))
      rw [sum]
      exact ⟨whole, admits, placed⟩
  | @under label top start stop path chain outer known leads around inductionHypothesis =>
      obtain ⟨whole, admits, included⟩ :=
        inductionHypothesis (closed.under wellFormed unpruned leads)
      rw [add_comm chain, add_assoc]
      exact ⟨whole, admits, fun node inside => included (Tree.mem_placed_under inside)⟩

/-- A node of a constituent as a constituent of its own, together with what surrounds
it: `total` is the score of both. -/
def Splits (pass : Pass ExactScore) (place : Nat) (node : Tree String)
    (total : ExactScore) : Prop :=
  ∃ label outer score,
    pass.Surrounds .built label place (place + node.leaves.length) outer ∧
      pass.Admits .closed label place (place + node.leaves.length) node score ∧
      (node.isUnaryStep = false →
        pass.Admits .built label place (place + node.leaves.length) node score) ∧
      outer + score = total

theorem splits_self (surrounds : pass.Surrounds .built label start stop outer)
    (admits : pass.Admits .closed label start stop tree score)
    (built : tree.isUnaryStep = false → pass.Admits .built label start stop tree score) :
    Splits pass start tree (outer + score) := by
  have span := admits.start_add_length
  refine ⟨label, outer, score, ?_, ?_, ?_, rfl⟩
  · rwa [span]
  · rwa [span]
  · rwa [span]

/-- If the nodes of a built constituent can be split off, so can those of the chains on
top of it. -/
theorem splits_of_mem_placed_under (wellFormed : pass.model.grammar.WellFormed)
    (unpruned : pass.pruned = .nothing) {base : LabelId} {path : List LabelId}
    {chain : ExactScore}
    (leads : UnaryRule.Leads pass.model.grammar.unary label base path chain)
    (admits : pass.Admits .built base start stop tree score)
    (inside : ∀ outer, pass.Surrounds .built base start stop outer →
      ∀ place node, (place, node) ∈ tree.placed start → node.isLeaf = false →
        Splits pass place node (outer + score))
    (surrounds : pass.Surrounds .built label start stop outer) {place : Nat}
    {node : Tree String}
    (member : (place, node) ∈
      (Tree.under (path.dropLast.map pass.model.grammar.labels.name) tree).placed start)
    (inner : node.isLeaf = false) : Splits pass place node (outer + (chain + score)) := by
  induction leads generalizing outer with
  | stay label =>
      rw [zero_add]
      exact inside outer surrounds place node member inner
  | @step rule target path chain ruleMember rest inductionHypothesis =>
      rcases wellFormed.unaryKnown rule ruleMember with ⟨parentKnown, childKnown⟩
      have whole := Admits.close parentKnown (by rw [unpruned]; rfl)
        (rest.step ruleMember) admits
      rw [List.dropLast_cons_of_ne_nil rest.path_ne_nil, List.map_cons,
        Tree.under_cons] at member whole
      rcases Tree.mem_placed_single.mp member with same | lower
      · rcases Prod.mk.inj same with ⟨rfl, rfl⟩
        have unary : (Tree.node (pass.model.grammar.labels.name rule.parent)
            [Tree.under (path.dropLast.map pass.model.grammar.labels.name) tree]).isUnaryStep
              = true :=
          congrArg not (Tree.isLeaf_under admits.derives.isLeaf)
        exact splits_self surrounds whole fun notUnary =>
          absurd (unary.symm.trans notUnary) (by decide)
      · have split := inductionHypothesis admits inside
          (surrounds.step childKnown ruleMember) lower
        have sum : outer + (rule.score + chain + score) =
            rule.score + outer + (chain + score) := by ac_rfl
        rw [sum]
        exact split

/-- Every inner node of a constituent can be split off from what surrounds it. -/
theorem splits_of_mem_placed (wellFormed : pass.model.grammar.WellFormed)
    (unpruned : pass.pruned = .nothing)
    (admits : pass.Admits stage label start stop tree score)
    (surrounds : pass.Surrounds stage label start stop outer) {place : Nat}
    {node : Tree String} (member : (place, node) ∈ tree.placed start)
    (inner : node.isLeaf = false) : Splits pass place node (outer + score) := by
  have closedSelf {label : LabelId} {start stop : Nat} {tree : Tree String}
      {score outer : ExactScore} (built : pass.Admits .built label start stop tree score)
      (surrounds : pass.Surrounds .built label start stop outer) :
      Splits pass start tree (outer + score) :=
    splits_self surrounds (built.closed wellFormed unpruned) fun _ => built
  induction admits generalizing outer place node with
  | word known found kept =>
      rcases Tree.mem_placed_single.mp member with same | leaf
      · rcases Prod.mk.inj same with ⟨rfl, rfl⟩
        exact closedSelf (.word known found kept) surrounds
      · rcases Prod.mk.inj (Tree.mem_placed_leaf.mp leaf) with ⟨rfl, rfl⟩
        cases inner
  | @split rule start middle stop left right leftScore rightScore ruleMember kept leftAdmits
      rightAdmits leftHypothesis rightHypothesis =>
      rcases Tree.mem_placed_pair.mp member with same | inLeft | inRight
      · rcases Prod.mk.inj same with ⟨rfl, rfl⟩
        exact closedSelf (.split ruleMember kept leftAdmits rightAdmits) surrounds
      · have split := leftHypothesis
          (.left ruleMember leftAdmits.bounds.1 surrounds rightAdmits) inLeft inner
        have sum : outer + (rule.score + leftScore + rightScore) =
            rule.score + outer + rightScore + leftScore := by ac_rfl
        rw [sum]
        exact split
      · rw [leftAdmits.start_add_length] at inRight
        have split := rightHypothesis
          (.right ruleMember rightAdmits.bounds.1 surrounds leftAdmits) inRight inner
        have sum : outer + (rule.score + leftScore + rightScore) =
            rule.score + outer + leftScore + rightScore := by ac_rfl
        rw [sum]
        exact split
  | close known kept leads below inductionHypothesis =>
      exact splits_of_mem_placed_under wellFormed unpruned leads below
        (fun outer surrounds place node member inner =>
          inductionHypothesis surrounds member inner)
        (surrounds.asBuilt wellFormed) member inner

end Surrounds

end ChartParsing.Pass
