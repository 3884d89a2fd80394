import ChartParsing.Best
import ChartParsing.Grammar.Basic

/-!
# What a label reaches by unary rules

From one source label, the best score of every label that chains of unary rules
lead to is found by relaxation: each rule in turn is followed from what is known
so far, in rounds, until no rule improves anything.  Beside the score of a label
its predecessor is kept, the label before it on a best chain, so that the chain
can be walked back to the source.

The order in which rules are followed decides which of several equally good
chains is kept, and is therefore fixed.
-/

namespace ChartParsing

namespace UnaryRule

variable {σ : Type}

/-- A rule that expands a label into itself. -/
def isLoop (rule : UnaryRule σ) : Bool :=
  rule.parent == rule.child

/-- The rules of a round, without loops: by parent, where parents are ordered by
their first mention in any rule, and the later rules of a parent before the
earlier ones. -/
def roundOrder (rules : List (UnaryRule σ)) : List (UnaryRule σ) :=
  let proper := rules.filter (!·.isLoop)
  let mentions := proper.flatMap fun rule => [rule.parent, rule.child]
  mentions.eraseDups.flatMap fun label =>
    (proper.filter fun rule => rule.parent == label).reverse

end UnaryRule

/-- For each label the best score at which it has been reached, and the label
before it. -/
abbrev Reach (σ : Type) :=
  Array (Best σ LabelId)

namespace Reach

variable {σ : Type} [Score σ]

/-- Of `count` labels only the source has been reached. -/
def start (count : Nat) (source : LabelId) : Reach σ :=
  (Array.replicate count Best.empty).setIfInBounds source ⟨0, none⟩

/-- The best score of a label so far. -/
def score (reach : Reach σ) (label : LabelId) : σ :=
  (reach.getD label Best.empty).score

/-- The label before a label on the best chain to it so far. -/
def predecessor? (reach : Reach σ) (label : LabelId) : Option LabelId :=
  (reach.getD label Best.empty).choice

/-- The score of a rule's child when it is reached by the rule. -/
def scoreBy (reach : Reach σ) (rule : UnaryRule σ) : σ :=
  reach.score rule.parent + rule.score

/-- Follow a rule, and keep the result if it is strictly better. -/
def follow (reach : Reach σ) (rule : UnaryRule σ) : Reach σ :=
  reach.modify rule.child (·.offer (reach.scoreBy rule) rule.parent)

/-- Follow each of a list of rules in turn. -/
def followAll (reach : Reach σ) (rules : List (UnaryRule σ)) : Reach σ :=
  rules.foldl follow reach

/-- Whether no rule improves the score of its child. -/
def isSettled (reach : Reach σ) (rules : List (UnaryRule σ)) : Bool :=
  rules.all fun rule => !decide (reach.score rule.child < reach.scoreBy rule)

/-- Follow all rules again and again until nothing improves, in at most the given
number of rounds. -/
def settle (rules : List (UnaryRule σ)) : Nat → Reach σ → Reach σ
  | 0, reach => reach
  | rounds + 1, reach =>
      if reach.isSettled rules then reach
      else settle rules rounds (reach.followAll rules)

/-- What the source reaches among `count` labels.  A best chain visits no label
twice, so there is no need for more rounds than labels. -/
def best (rules : List (UnaryRule σ)) (count : Nat) (source : LabelId) : Reach σ :=
  settle rules count (start count source)

/-- Walk back from `label` to the source, before the labels of `tail`, in at most
the given number of steps. -/
def walkBack (reach : Reach σ) (source : LabelId) :
    Nat → LabelId → List LabelId → Option (List LabelId)
  | steps, label, tail =>
      if label = source then some (label :: tail)
      else
        match steps, reach.predecessor? label with
        | steps + 1, some previous =>
            reach.walkBack source steps previous (label :: tail)
        | _, _ => none

/-- The labels on the best chain from the source to `label`, both included. -/
def path? (reach : Reach σ) (source label : LabelId) : Option (List LabelId) :=
  reach.walkBack source reach.size label []

end Reach

end ChartParsing
