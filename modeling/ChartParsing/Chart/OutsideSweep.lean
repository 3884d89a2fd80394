import ChartParsing.Chart.Sweep

/-!
# Filling an outside chart in place

The outside scores lie in flat tables as well, which are filled from the whole
sentence down.  Around a constituent every rule is charged with the siblings that
it may have.
-/

namespace ChartParsing

/-- The scores of an outside chart. -/
structure OutsideTables (shape : ChartShape) (σ : Type) where
  closed : Table shape σ
  built : Table shape σ

namespace OutsideTables

variable {shape : ChartShape} {σ : Type} [Score σ]

/-- Nothing surrounds the root over the whole sentence, and all else is
impossible. -/
def start (shape : ChartShape) (root : LabelId) : OutsideTables shape σ where
  closed := (Table.filled shape impossible).set root 0 0 0
  built := .filled shape impossible

/-- The best score of the rest of a derivation around a constituent. -/
def score (tables : OutsideTables shape σ) :
    Stage → (label : LabelId) → (start right : Nat) → σ
  | .built, label, start, right => tables.built.getD label start right impossible
  | .closed, label, start, right => tables.closed.getD label start right impossible

/-- Better the context of a right child by a rule, for each start of a sibling. -/
@[specialize]
def betterAsRight (tables : OutsideTables shape σ) (inside : InsideTables shape σ)
    (start right : Nat) (best : σ) (rule : BinaryRule σ) : σ :=
  (List.range start).foldl
    (fun best left =>
      Score.better best
        (rule.score + tables.score .built rule.parent left right +
          inside.score .closed rule.left left (shape.length - start)))
    best

/-- Better the context of a left child by a rule, for each end of a sibling. -/
@[specialize]
def betterAsLeft (tables : OutsideTables shape σ) (inside : InsideTables shape σ)
    (start right : Nat) (best : σ) (rule : BinaryRule σ) : σ :=
  (List.range right).foldl
    (fun best beyond =>
      Score.better best
        (rule.score + tables.score .built rule.parent start beyond +
          inside.score .closed rule.right (shape.length - right) beyond))
    best

/-- The best context of a built constituent, given those of the closed
constituents of the same span. -/
@[specialize]
def bestOpening (tables : OutsideTables shape σ) (closure : UnaryClosure σ)
    (label : LabelId) (start right : Nat) : σ :=
  let chains := closure.byChild.chains label
  let best :=
    chains.foldl
      (fun best (_, chain) =>
        Score.better best (chain.score + tables.score .closed chain.parent start right))
      impossible
  if chains.any (·.2.isReflexive) then best
  else Score.better best (tables.score .closed label start right)

end OutsideTables

namespace Sweep

variable {σ : Type} [Score σ] (sweep : Sweep σ) (inside : InsideTables sweep.shape σ)

/-- The best context of a closed constituent, each rule charged before it is
examined. -/
@[specialize]
def bestContext (tables : OutsideTables sweep.shape σ) (label : LabelId)
    (start right spent : Nat) : Except (ParseError σ) (Nat × σ) := do
  let grammar := sweep.model.grammar
  let asRight ← (grammar.byRight.rules label).foldlM
    (fun (spent, best) rule => do
      let spent ← sweep.config.charge spent start
      return (spent, tables.betterAsRight inside start right best rule))
    (spent, impossible)
  (grammar.byLeft.rules label).foldlM
    (fun (spent, best) rule => do
      let spent ← sweep.config.charge spent right
      return (spent, tables.betterAsLeft inside start right best rule))
    asRight

/-- Fill the cell of a closed constituent. -/
@[specialize]
def surroundClosed (start right : Nat) (work : Nat × OutsideTables sweep.shape σ)
    (label : LabelId) : Except (ParseError σ) (Nat × OutsideTables sweep.shape σ) := do
  let (spent, tables) := work
  let (spent, best) ← sweep.bestContext inside tables label start right spent
  return (spent, { tables with closed := tables.closed.set label start right best })

/-- Fill the cell of a built constituent. -/
@[specialize]
def surroundBuilt (start right : Nat) (tables : OutsideTables sweep.shape σ)
    (label : LabelId) : OutsideTables sweep.shape σ :=
  let best := tables.bestOpening sweep.model.closure label start right
  { tables with built := tables.built.set label start right best }

/-- Fill the cells of the closed constituents of a span.  Over the whole sentence
they have been filled. -/
@[specialize]
def surroundAllClosed (start right : Nat) (work : Nat × OutsideTables sweep.shape σ) :
    Except (ParseError σ) (Nat × OutsideTables sweep.shape σ) :=
  if 0 < start + right then
    (List.range sweep.model.grammar.labels.size).foldlM
      (sweep.surroundClosed inside start right) work
  else .ok work

/-- Fill the cells of a span, those of the closed constituents first. -/
@[specialize]
def surroundSpan (work : Nat × OutsideTables sweep.shape σ) (span : Nat × Nat) :
    Except (ParseError σ) (Nat × OutsideTables sweep.shape σ) := do
  let (spent, tables) ← sweep.surroundAllClosed inside span.1 span.2 work
  return (spent,
    (List.range sweep.model.grammar.labels.size).foldl
      (sweep.surroundBuilt span.1 span.2) tables)

/-- Fill the outside tables of a sentence on which `spent` edges have been spent,
those of the widest spans first. -/
@[specialize]
def outside (spent : Nat) :
    Except (ParseError σ) (Nat × OutsideTables sweep.shape σ) :=
  (List.range sweep.words.length).foldlM
    (fun work missing =>
      (spansLeavingOut missing).foldlM (sweep.surroundSpan inside) work)
    (spent, .start sweep.shape sweep.model.grammar.root)

end Sweep

end ChartParsing
