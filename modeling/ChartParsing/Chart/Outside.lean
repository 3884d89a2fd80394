import ChartParsing.Chart.Inside

/-!
# Outside charts

The outside score of a label over a span is the best score of the rest of a
derivation of the whole sentence around such a constituent.  There is one for
each stage: for a closed constituent, on which only binary rules can still act
before it becomes part of another one, and for a built constituent, which a chain
of unary rules may close first.

Narrower spans are filled from wider ones, down from the whole sentence.
-/

namespace ChartParsing

/-- The outside scores of one span, by label. -/
structure ContextCells (σ : Type) where
  closed : Array σ
  built : Array σ

/-- The outside scores of the spans of a sentence of `length` words.  The spans
that leave out `missing` words form the row `missing`, ordered by their start. -/
structure OutsideChart (σ : Type) where
  length : Nat
  cells : Rows (ContextCells σ)

/-- The ends of the wider spans with the same start in a sentence of `length`
words, the widest of them first. -/
def widerStops (length stop : Nat) : List Nat :=
  (List.range (length - stop)).map (length - ·)

/-- The outside score of a label at a stage. -/
@[inline]
def ContextCells.score {σ : Type} [Score σ] (cells : ContextCells σ) :
    Stage → LabelId → σ
  | .built, label => cells.built.getD label impossible
  | .closed, label => cells.closed.getD label impossible

namespace OutsideChart

variable {σ : Type} [Score σ]

/-- The outside scores of a span. -/
@[inline]
def span (chart : OutsideChart σ) (start stop : Nat) : ContextCells σ :=
  chart.cells.getD (chart.length - (stop - start)) start ⟨#[], #[]⟩

/-- The best score of the rest of a derivation around a constituent at a
stage. -/
@[inline]
def score (chart : OutsideChart σ) (stage : Stage) (label : LabelId)
    (start stop : Nat) : σ :=
  (chart.span start stop).score stage label

/-- The best context of a closed constituent as the right or the left child of a
binary rule, given the chart of wider spans. -/
@[specialize]
def bestContext (chart : OutsideChart σ) (grammar : Grammar σ)
    (inside : InsideChart σ) (label : LabelId) (start stop : Nat) : σ :=
  let asRight :=
    (grammar.byRight.rules label).foldl
      (fun best rule =>
        (List.range start).foldl
          (fun best left =>
            Score.better best
              (rule.score + chart.score .built rule.parent left stop +
                (inside.closed rule.left left start).score))
          best)
      impossible
  (grammar.byLeft.rules label).foldl
    (fun best rule =>
      (widerStops chart.length stop).foldl
        (fun best right =>
          Score.better best
            (rule.score + chart.score .built rule.parent start right +
              (inside.closed rule.right stop right).score))
        best)
    asRight

/-- The best context of a built constituent, given those of the closed
constituents of the same span. -/
@[specialize]
def bestOpening (closure : UnaryClosure σ) (closed : Array σ) (label : LabelId) :
    σ :=
  let chains := closure.byChild.chains label
  let best :=
    chains.foldl
      (fun best (_, chain) =>
        Score.better best (chain.score + closed.getD chain.parent impossible))
      impossible
  if chains.any (·.2.isReflexive) then best
  else Score.better best (closed.getD label impossible)

/-- The outside scores of a span, given the chart of wider spans. -/
@[specialize]
def contextCells (chart : OutsideChart σ) (model : Model σ)
    (inside : InsideChart σ) (start stop : Nat) : ContextCells σ :=
  let labelCount := model.grammar.labels.size
  let closed := Array.ofFn fun label : Fin labelCount =>
    if stop - start = chart.length then
      if label.val = model.grammar.root then 0 else impossible
    else chart.bestContext model.grammar inside label start stop
  { closed
    built := Array.ofFn fun label : Fin labelCount =>
      bestOpening model.closure closed label }

end OutsideChart

/-- The outside chart of a sentence of `length` words with a given inside
chart. -/
@[specialize]
def Model.outside {σ : Type} [Score σ] (model : Model σ) (length : Nat)
    (inside : InsideChart σ) : OutsideChart σ where
  length := length
  cells :=
    Rows.fill (fun missing => missing + 1)
      (fun wider missing start =>
        OutsideChart.contextCells ⟨length, wider⟩ model inside start
          (start + (length - missing)))
      length

end ChartParsing
