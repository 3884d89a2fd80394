import ChartParsing.Best
import ChartParsing.Chart.Rows
import ChartParsing.Model

/-!
# Inside charts

A span of a sentence holds the words from `start` to before `stop`.  For every
span and label a chart has two cells.  The *built* cell holds the best
constituent with that label over a single word or put together from two
constituents by a binary rule; the *closed* cell holds the best one after at most
one chain of unary rules on top of a built one.  Each cell keeps the score of its
constituent and the choice that made it the best.

Wider spans are filled from narrower ones.  Cells may be pruned, which leaves
them without a constituent.
-/

namespace ChartParsing

/-- The two kinds of cells of a span. -/
inductive Stage where
  | built
  | closed
  deriving DecidableEq, Repr

/-- Which cells of a chart are left empty: those of a stage and a label, over the
words from `start` to before `stop`. -/
abbrev Pruned :=
  (stage : Stage) → (label : LabelId) → (start stop : Nat) → Bool

/-- No cell is left empty. -/
def Pruned.nothing : Pruned :=
  fun _ _ _ _ => false

/-- How a constituent is built. -/
inductive Construction (σ : Type) where
  /-- Over a single word. -/
  | word
  /-- By a rule, from two constituents that meet before the word `middle`. -/
  | split (rule : BinaryRule σ) (middle : Nat)

/-- How a built constituent is closed. -/
inductive Closing (σ : Type) where
  /-- By no unary step. -/
  | asBuilt
  /-- By a chain of unary rules. -/
  | byChain (chain : UnaryChain σ)

/-- The cells of one span, by label. -/
structure SpanCells (σ : Type) where
  built : Array (Best σ (Construction σ))
  closed : Array (Best σ (Closing σ))

/-- The cells of the spans of a sentence.  The spans of `width` words form the
row `width - 1`, ordered by their start. -/
structure InsideChart (σ : Type) where
  cells : Rows (SpanCells σ)

/-- The places at which a span can be split in two. -/
def middles (start stop : Nat) : List Nat :=
  List.range' (start + 1) (stop - (start + 1))

namespace InsideChart

variable {σ : Type} [Score σ]

/-- The cells of a span. -/
@[inline]
def span (chart : InsideChart σ) (start stop : Nat) : SpanCells σ :=
  chart.cells.getD (stop - start - 1) start ⟨#[], #[]⟩

/-- The built cell of a label over a span. -/
@[inline]
def built (chart : InsideChart σ) (label : LabelId) (start stop : Nat) :
    Best σ (Construction σ) :=
  (chart.span start stop).built.getD label Best.empty

/-- The closed cell of a label over a span. -/
@[inline]
def closed (chart : InsideChart σ) (label : LabelId) (start stop : Nat) :
    Best σ (Closing σ) :=
  (chart.span start stop).closed.getD label Best.empty

/-- The best score of a label over a span at a stage. -/
def score (chart : InsideChart σ) :
    Stage → (label : LabelId) → (start stop : Nat) → σ
  | .built, label, start, stop => (chart.built label start stop).score
  | .closed, label, start, stop => (chart.closed label start stop).score

/-- Offer what a rule builds over a span, for each place to split it.  A left
part that scores no better than the best so far cannot lead to a better whole and
is passed over. -/
@[specialize]
def offerSplits (chart : InsideChart σ) (start stop : Nat)
    (best : Best σ (Construction σ)) (rule : BinaryRule σ) :
    Best σ (Construction σ) :=
  (middles start stop).foldl
    (fun best middle =>
      let half := rule.score + (chart.closed rule.left start middle).score
      if half ≤ best.score then best
      else
        best.offer (half + (chart.closed rule.right middle stop).score)
          (.split rule middle))
    best

/-- The best way to build a label over a span of several words, by the first of
the best rules at the first of its best splits. -/
@[specialize]
def bestSplit (chart : InsideChart σ) (grammar : Grammar σ) (label : LabelId)
    (start stop : Nat) : Best σ (Construction σ) :=
  (grammar.byParent.rules label).foldl (chart.offerSplits start stop) Best.empty

/-- The best way to close a label over a span whose built cells are given: by the
first of the best chains, or as built if no chain is as good. -/
@[specialize]
def bestClosing (closure : UnaryClosure σ)
    (built : Array (Best σ (Construction σ))) (label : LabelId) :
    Best σ (Closing σ) :=
  let chains := closure.byParent.chains label
  let best : Best σ (Closing σ) :=
    chains.foldl
      (fun best (_, chain) =>
        best.offer (chain.score + (built.getD chain.child Best.empty).score)
          (.byChain chain))
      Best.empty
  if chains.any (·.2.isReflexive) then best
  else best.offer (built.getD label Best.empty).score .asBuilt

end InsideChart

/-- One pass over a sentence: the model that fills the chart and the cells that
stay empty. -/
structure Pass (σ : Type) where
  model : Model σ
  words : List String
  pruned : Pruned

namespace Pass

variable {σ : Type} [Score σ]

/-- How many words the sentence has. -/
def length (pass : Pass σ) : Nat :=
  pass.words.length

/-- The built cell of a label over a span, given the chart of narrower spans. -/
@[specialize]
def builtCell (pass : Pass σ) (chart : InsideChart σ) (label : LabelId)
    (start stop : Nat) : Best σ (Construction σ) :=
  if pass.pruned .built label start stop then Best.empty
  else if stop = start + 1 then
    let word := pass.words.getD start ""
    let tag := pass.model.grammar.labels.name label
    Best.empty.offer (pass.model.tagScore word tag) .word
  else
    chart.bestSplit pass.model.grammar label start stop

/-- The closed cell of a label over a span, given the built cells of the span. -/
@[specialize]
def closedCell (pass : Pass σ) (built : Array (Best σ (Construction σ)))
    (label : LabelId) (start stop : Nat) : Best σ (Closing σ) :=
  if pass.pruned .closed label start stop then Best.empty
  else InsideChart.bestClosing pass.model.closure built label

/-- The cells of a span, given the chart of narrower spans. -/
@[specialize]
def spanCells (pass : Pass σ) (chart : InsideChart σ) (start stop : Nat) :
    SpanCells σ :=
  let labelCount := pass.model.grammar.labels.size
  let built := Array.ofFn fun label : Fin labelCount =>
    pass.builtCell chart label start stop
  { built
    closed := Array.ofFn fun label : Fin labelCount =>
      pass.closedCell built label start stop }

/-- The chart of a sentence. -/
@[specialize]
def inside (pass : Pass σ) : InsideChart σ :=
  ⟨Rows.fill (fun row => pass.length - row)
    (fun narrower row start =>
      pass.spanCells ⟨narrower⟩ start (start + row + 1))
    pass.length⟩

end Pass

end ChartParsing
