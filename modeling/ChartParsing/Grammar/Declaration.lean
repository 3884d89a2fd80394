import ChartParsing.Grammar.Basic
import ChartParsing.ModelError

/-!
# Declaring a grammar

A grammar is declared by naming its root and then labels and scored rules, in any
order.  Labels are numbered in the order of their first mention, the root first.
A rule that is declared several times is one rule at the place of its first
declaration and with the best of its scores.  Every score has to be a finite
log-probability, and there may be no more binary rules than a chart can refer to.
-/

namespace ChartParsing

/-- One step of declaring a grammar. -/
inductive Declaration (σ : Type) where
  /-- A label, which may occur in no rule. -/
  | label (name : String)
  /-- A rule with one child. -/
  | unary (parent child : String) (score : σ)
  /-- A rule with two children. -/
  | binary (parent left right : String) (score : σ)

namespace Declaration

variable {σ : Type}

/-- The labels that a declaration mentions, in order. -/
def mentions : Declaration σ → List String
  | .label name => [name]
  | .unary parent child _ => [parent, child]
  | .binary parent left right _ => [parent, left, right]

/-- The binary rule that a declaration gives, in the numbers of `labels`. -/
def binaryEntry? (labels : Vocabulary) :
    Declaration σ → Option ((LabelId × LabelId × LabelId) × σ)
  | .binary parent left right score =>
      let id := labels.names.idxOf
      some ((id parent, id left, id right), score)
  | _ => none

/-- The unary rule that a declaration gives, in the numbers of `labels`. -/
def unaryEntry? (labels : Vocabulary) :
    Declaration σ → Option ((LabelId × LabelId) × σ)
  | .unary parent child score =>
      let id := labels.names.idxOf
      some ((id parent, id child), score)
  | _ => none

variable [Score σ]

/-- What is wrong with a binary rule. -/
def binaryError? : Declaration σ → Option (ModelError σ)
  | .binary parent left right score =>
      if Score.isLogProbability score then none
      else some (.invalidScore parent [left, right] score)
  | _ => none

/-- What is wrong with a unary rule. -/
def unaryError? : Declaration σ → Option (ModelError σ)
  | .unary parent child score =>
      if Score.isLogProbability score then none
      else some (.invalidScore parent [child] score)
  | _ => none

end Declaration

namespace Grammar

variable {σ : Type} [Score σ]

/-- The first rule with a bad score, where the binary rules come before the unary
ones. -/
def declarationError? (declarations : List (Declaration σ)) :
    Option (ModelError σ) :=
  declarations.findSome? Declaration.binaryError? <|>
    declarations.findSome? Declaration.unaryError?

/-- The grammar of a list of declarations, whatever their scores. -/
def merge (root : String) (declarations : List (Declaration σ)) : Grammar σ :=
  let labels := Vocabulary.ofList (root :: declarations.flatMap Declaration.mentions)
  let binary := ScoreTable.ofList (declarations.filterMap (Declaration.binaryEntry? labels))
  let unary := ScoreTable.ofList (declarations.filterMap (Declaration.unaryEntry? labels))
  .ofRules labels
    (binary.entries.map fun ((parent, left, right), score) => ⟨parent, left, right, score⟩)
    (unary.entries.map fun ((parent, child), score) => ⟨parent, child, score⟩)

/-- The grammar of a list of declarations, if every score is a finite
log-probability and the binary rules are not too many. -/
def declare (root : String) (declarations : List (Declaration σ)) :
    Except (ModelError σ) (Grammar σ) :=
  match declarationError? declarations with
  | some error => .error error
  | none =>
      let grammar := merge root declarations
      if ruleLimit < grammar.binary.length then
        .error (.tooManyRules grammar.binary.length)
      else .ok grammar

end Grammar

end ChartParsing
