import ChartParsing.Lexicon.Basic
import ChartParsing.Tree.Basic
import ChartParsing.Unary.Closure

/-!
# Models

A model is a grammar with the closure of its unary rules and a lexicon.  It
scores derivations: trees over the labels of the grammar, in which every node has
one word, one constituent or two constituents below it.
-/

namespace ChartParsing

/-- A grammar, the closure of its unary rules, and a lexicon. -/
structure Model (σ : Type) where
  grammar : Grammar σ
  closure : UnaryClosure σ
  lexicon : Lexicon σ

namespace Model

variable {σ : Type} [Score σ]

/-- The model of a grammar and a lexicon. -/
def ofGrammar (grammar : Grammar σ) (lexicon : Lexicon σ) :
    Except (ModelError σ) (Model σ) := do
  let closure ← UnaryClosure.ofGrammar grammar
  return ⟨grammar, closure, lexicon⟩

/-- The model with the alternative of taking no unary step made explicit. -/
def withLoops (model : Model σ) : Except (ModelError σ) (Model σ) := do
  let closure ← model.closure.withLoops
  return { model with closure := closure }

/-- What a model with loops is where there are numbers for all chains. -/
def reflexive (model : Model σ) : Model σ :=
  { model with closure := model.closure.reflexive }

/-- The score of a word under a label, where no value counts as impossible. -/
def tagScore (model : Model σ) (word : String) (tag : String) : σ :=
  Score.orImpossible (model.lexicon word tag)

/-- The score of a derivation, from the rules it uses and the lexicon.  A tree
that uses an unknown label or a rule that the grammar lacks has none. -/
def scoreDerivation? (model : Model σ) : Tree String → Option σ
  | .node tag [.node word []] => do
      let _ ← model.grammar.labels.id? tag
      return model.tagScore word tag
  | .node label [child] => do
      let parentId ← model.grammar.labels.id? label
      let childId ← model.grammar.labels.id? child.label
      let rule ← model.grammar.unaryScore? parentId childId
      let below ← model.scoreDerivation? child
      return rule + below
  | .node label [left, right] => do
      let parentId ← model.grammar.labels.id? label
      let leftId ← model.grammar.labels.id? left.label
      let rightId ← model.grammar.labels.id? right.label
      let rule ← model.grammar.binaryScore? parentId leftId rightId
      let below ← model.scoreDerivation? left
      let beside ← model.scoreDerivation? right
      return rule + below + beside
  | _ => none

end Model

end ChartParsing
