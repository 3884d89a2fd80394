import ChartParsing.LabelIndex
import ChartParsing.Score.Basic
import ChartParsing.ScoreTable

/-!
# Grammars

A grammar expands a label into two labels by a binary rule or into one by a unary
rule, each at a score.  Its root is the label number zero.  The parser asks for
the binary rules of a given parent, left child or right child, so these
selections are kept beside the rules.
-/

namespace ChartParsing

/-- A chart refers to a rule by a number of 32 bits.  The two greatest numbers mark cells
without a rule, so that those of rules are less than this one. -/
def ruleLimit : Nat :=
  4294967294

/-- A rule that expands `parent` into `left` and `right`. -/
structure BinaryRule (σ : Type) where
  parent : LabelId
  left : LabelId
  right : LabelId
  score : σ

/-- A rule that expands `parent` into `child`. -/
structure UnaryRule (σ : Type) where
  parent : LabelId
  child : LabelId
  score : σ

/-- For each label in order, some of the rules of a grammar. -/
abbrev RuleIndex (σ : Type) :=
  LabelIndex (BinaryRule σ)

namespace RuleIndex

variable {σ : Type}

/-- Select for each of the first `count` labels the rules whose `key` it is. -/
def select (count : Nat) (key : BinaryRule σ → LabelId)
    (rules : List (BinaryRule σ)) : RuleIndex σ :=
  (LabelIndex.empty count).insertAll key rules

/-- The rules selected for a label. -/
@[inline]
def rules (index : RuleIndex σ) (label : LabelId) : List (BinaryRule σ) :=
  index.entries label

@[simp]
theorem size_select (count : Nat) (key : BinaryRule σ → LabelId)
    (rules : List (BinaryRule σ)) : (select count key rules).size = count := by
  rw [select, LabelIndex.size_insertAll, LabelIndex.size_empty]

/-- A selection keeps the order of the rules. -/
theorem rules_select {count : Nat} (key : BinaryRule σ → LabelId)
    (rules : List (BinaryRule σ)) {label : LabelId} (bounded : label < count) :
    (select count key rules).rules label =
      rules.filter fun rule => key rule == label := by
  rw [RuleIndex.rules, select, LabelIndex.entries_insertAll key _ rules (by simpa using bounded),
    LabelIndex.entries_empty, List.nil_append]

end RuleIndex

/-- Labels and scored rules.  The root is the label number zero. -/
structure Grammar (σ : Type) where
  labels : Vocabulary
  binary : List (BinaryRule σ)
  unary : List (UnaryRule σ)
  byParent : RuleIndex σ
  byLeft : RuleIndex σ
  byRight : RuleIndex σ

namespace Grammar

variable {σ : Type}

/-- The grammar of given labels and rules. -/
def ofRules (labels : Vocabulary) (binary : List (BinaryRule σ))
    (unary : List (UnaryRule σ)) : Grammar σ where
  labels := labels
  binary := binary
  unary := unary
  byParent := .select labels.size BinaryRule.parent binary
  byLeft := .select labels.size BinaryRule.left binary
  byRight := .select labels.size BinaryRule.right binary

/-- The number of the root. -/
def root (_ : Grammar σ) : LabelId :=
  0

/-- The label of the root. -/
def rootName (grammar : Grammar σ) : String :=
  grammar.labels.name grammar.root

/-- The score of the rule from `parent` to `left` and `right`. -/
def binaryScore? (grammar : Grammar σ) (parent left right : LabelId) :
    Option σ :=
  let rule? := grammar.binary.find? fun rule =>
    rule.parent == parent && rule.left == left && rule.right == right
  rule?.map BinaryRule.score

/-- The score of the rule from `parent` to `child`. -/
def unaryScore? (grammar : Grammar σ) (parent child : LabelId) : Option σ :=
  let rule? := grammar.unary.find? fun rule =>
    rule.parent == parent && rule.child == child
  rule?.map UnaryRule.score

end Grammar

end ChartParsing
