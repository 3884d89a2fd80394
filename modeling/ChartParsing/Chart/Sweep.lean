import ChartParsing.Chart.Inside
import ChartParsing.Chart.Table
import ChartParsing.Parser.Config

/-!
# Filling an inside chart in place

The cells of an inside chart lie in flat tables that are filled in place, the
narrowest spans first.  Every rule is charged to the sentence when it is about to
be examined, and a lexicon that scores a word above zero is found out when the
cell of the word is filled.  What a cell has chosen is kept as numbers: the
position of a rule among those of its parent, the place of a split, and the
number of a chain.  Two numbers that no rule has mark the cells without a choice
and those closed without a unary step.
-/

namespace ChartParsing

/-- In place of a choice where none has been made. -/
def unset : Nat :=
  ruleLimit + 1

/-- In place of the number of a chain where no unary step is taken. -/
def noUnary : Nat :=
  ruleLimit

/-- A position as it is kept in a cell, which it has to fit in. -/
def backpointer {σ : Type} (value : Nat) : Except (ParseError σ) Nat :=
  if value < ruleLimit then .ok value else .error (.backpointerOverflow value)

/-- The construction that a position among the rules of a label and the place of a
split stand for. -/
def constructionOf? {σ : Type} (grammar : Grammar σ) (label : LabelId)
    (ordinal middle : Nat) : Option (Construction σ) :=
  if ordinal = unset ∨ middle = unset then none
  else (grammar.byParent.rules label)[ordinal]?.map (.split · middle)

/-- The closing that a number stands for. -/
def closingOf? {σ : Type} (closure : UnaryClosure σ) (number : Nat) :
    Option (Closing σ) :=
  if number = noUnary then some .asBuilt
  else if number = unset then none
  else closure.chains[number]?.map .byChain

/-- The choices of the cells of an inside chart: of a built cell the position of
its rule among those of the label and the place of its split, and of a closed
cell the number of its chain. -/
structure Backpointers (shape : ChartShape) where
  rule : Table shape Nat
  split : Table shape Nat
  chain : Table shape Nat

namespace Backpointers

variable {shape : ChartShape}

/-- Nothing has been chosen. -/
def empty (shape : ChartShape) : Backpointers shape where
  rule := .filled shape unset
  split := .filled shape unset
  chain := .filled shape unset

/-- Keep the position of a rule and the place of a split. -/
def putSplit (numbers : Backpointers shape) (label : LabelId)
    (start right ordinal middle : Nat) : Backpointers shape :=
  { numbers with
    rule := numbers.rule.set label start right ordinal
    split := numbers.split.set label start right middle }

/-- Keep the number of a chain. -/
def putChain (numbers : Backpointers shape) (label : LabelId)
    (start right number : Nat) : Backpointers shape :=
  { numbers with chain := numbers.chain.set label start right number }

/-- How the constituent of a label over a span of several words is built. -/
def construction? {σ : Type} (numbers : Backpointers shape) (grammar : Grammar σ)
    (label : LabelId) (start right : Nat) : Option (Construction σ) :=
  constructionOf? grammar label (numbers.rule.getD label start right unset)
    (numbers.split.getD label start right unset)

/-- How the constituent of a label over a span is closed. -/
def closing? {σ : Type} (numbers : Backpointers shape) (closure : UnaryClosure σ)
    (label : LabelId) (start right : Nat) : Option (Closing σ) :=
  closingOf? closure (numbers.chain.getD label start right unset)

end Backpointers

/-- The scores of an inside chart, and the choices if they are kept. -/
structure InsideTables (shape : ChartShape) (σ : Type) where
  built : Table shape σ
  closed : Table shape σ
  backpointers? : Option (Backpointers shape)

namespace InsideTables

variable {shape : ChartShape} {σ : Type} [Score σ]

/-- Nothing is possible. -/
def empty (shape : ChartShape) (keepsChoices : Bool) : InsideTables shape σ where
  built := .filled shape impossible
  closed := .filled shape impossible
  backpointers? := if keepsChoices then some (.empty shape) else none

/-- The best score of a label over a span at a stage. -/
def score (tables : InsideTables shape σ) :
    Stage → (label : LabelId) → (start right : Nat) → σ
  | .built, label, start, right => tables.built.getD label start right impossible
  | .closed, label, start, right => tables.closed.getD label start right impossible

/-- Offer what the rule at a position builds over a span, for each place to split
it. -/
@[specialize]
def offerSplits (tables : InsideTables shape σ) (start right : Nat)
    (best : Best σ (Nat × Nat)) (rule : BinaryRule σ) (ordinal : Nat) :
    Best σ (Nat × Nat) :=
  (middles start (shape.length - right)).foldl
    (fun best middle =>
      let half := rule.score + tables.score .closed rule.left start (shape.length - middle)
      if half ≤ best.score then best
      else
        best.offer (half + tables.score .closed rule.right middle right)
          (ordinal, middle))
    best

/-- The best chain to close a label over a span, by its number. -/
@[specialize]
def bestClosing (tables : InsideTables shape σ) (closure : UnaryClosure σ)
    (label : LabelId) (start right : Nat) : Best σ Nat :=
  let chains := closure.byParent.chains label
  let best : Best σ Nat :=
    chains.foldl
      (fun best (number, chain) =>
        best.offer (chain.score + tables.score .built chain.child start right) number)
      Best.empty
  if chains.any (·.2.isReflexive) then best
  else best.offer (tables.score .built label start right) noUnary

/-- Fill a built cell with a score. -/
def putWord (tables : InsideTables shape σ) (label : LabelId) (start right : Nat)
    (score : σ) : InsideTables shape σ :=
  { tables with built := tables.built.set label start right score }

/-- Fill a built cell with the best of the splits. -/
def putSplit (tables : InsideTables shape σ) (label : LabelId) (start right : Nat)
    (best : Best σ (Nat × Nat)) : Except (ParseError σ) (InsideTables shape σ) := do
  let tables := { tables with built := tables.built.set label start right best.score }
  match tables.backpointers?, best.choice with
  | some numbers, some (ordinal, middle) =>
      let ordinal ← backpointer ordinal
      let middle ← backpointer middle
      let numbers := numbers.putSplit label start right ordinal middle
      return { tables with backpointers? := some numbers }
  | _, _ => return tables

/-- Fill a closed cell with the best of the chains. -/
def putClosing (tables : InsideTables shape σ) (label : LabelId) (start right : Nat)
    (best : Best σ Nat) : InsideTables shape σ :=
  { tables with
    closed := tables.closed.set label start right best.score
    backpointers? := tables.backpointers?.map
      (·.putChain label start right (best.choice.getD unset)) }

end InsideTables

/-- One sweep over a sentence: the model that fills the tables, the limits on the
work and the layout of the tables, the cells that are passed over, and whether
choices are kept. -/
structure Sweep (σ : Type) where
  model : Model σ
  words : List String
  config : Config σ
  layout : ChartLayout
  skips : Stage → (label : LabelId) → (start right : Nat) → Bool
  keepsChoices : Bool

namespace Sweep

variable {σ : Type} [Score σ] (sweep : Sweep σ)

/-- The shape of the tables. -/
abbrev shape {σ : Type} (sweep : Sweep σ) : ChartShape :=
  ⟨sweep.layout, sweep.model.grammar.labels.size, sweep.words.length⟩

/-- The score of the word at a position under a label, where no value counts as
impossible.  It may not be above zero. -/
def taggingScore (label : LabelId) (position : Nat) : Except (ParseError σ) σ :=
  let word := sweep.words.getD position ""
  let tag := sweep.model.grammar.labels.name label
  let score := sweep.model.lexicon word tag
  if Score.isUndefined score then .ok impossible
  else if 0 < score then .error (.positiveTaggingScore position word tag score)
  else .ok score

/-- The best way to build a label over a span of several words, each rule charged
before it is examined. -/
@[specialize]
def bestSplit (tables : InsideTables sweep.shape σ) (label : LabelId)
    (start right spent : Nat) : Except (ParseError σ) (Nat × Best σ (Nat × Nat)) :=
  (sweep.model.grammar.byParent.rules label).zipIdx.foldlM
    (fun (spent, best) (rule, ordinal) => do
      let spent ← sweep.config.charge spent (sweep.words.length - right - start - 1)
      return (spent, tables.offerSplits start right best rule ordinal))
    (spent, Best.empty)

/-- Fill the built cell of a label over a span. -/
@[specialize]
def buildCell (start right : Nat) (work : Nat × InsideTables sweep.shape σ)
    (label : LabelId) : Except (ParseError σ) (Nat × InsideTables sweep.shape σ) := do
  let (spent, tables) := work
  if sweep.skips .built label start right then
    return work
  else if start + right = sweep.words.length - 1 then
    let score ← sweep.taggingScore label start
    return (spent, tables.putWord label start right score)
  else
    let (spent, best) ← sweep.bestSplit tables label start right spent
    let tables ← tables.putSplit label start right best
    return (spent, tables)

/-- Fill the closed cell of a label over a span. -/
@[specialize]
def closeCell (start right : Nat) (tables : InsideTables sweep.shape σ)
    (label : LabelId) : InsideTables sweep.shape σ :=
  if sweep.skips .closed label start right then tables
  else
    tables.putClosing label start right
      (tables.bestClosing sweep.model.closure label start right)

/-- Fill the cells of a span, the built ones first. -/
@[specialize]
def fillSpan (work : Nat × InsideTables sweep.shape σ) (span : Nat × Nat) :
    Except (ParseError σ) (Nat × InsideTables sweep.shape σ) := do
  let labels := List.range sweep.model.grammar.labels.size
  let (spent, tables) ← labels.foldlM (sweep.buildCell span.1 span.2) work
  return (spent, labels.foldl (sweep.closeCell span.1 span.2) tables)

/-- Fill the inside tables of a sentence on which `spent` edges have been spent,
those of the narrowest spans first. -/
@[specialize]
def inside (spent : Nat) :
    Except (ParseError σ) (Nat × InsideTables sweep.shape σ) :=
  (List.range sweep.words.length).reverse.foldlM
    (fun work missing => (spansLeavingOut missing).foldlM sweep.fillSpan work)
    (spent, .empty sweep.shape sweep.keepsChoices)

end Sweep

end ChartParsing
