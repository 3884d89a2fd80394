import ChartParsing.Chart.OutsideSweep
import ChartParsing.Parser.Basic

/-!
# Parsing with tables filled in place

The parser works on flat tables: it sweeps over a sentence with the coarse model
and then with the fine one, passes over the fine cells whose coarse counterparts
the tables show to be unlikely, and rebuilds the best derivation from the numbers
that the fine tables keep.
-/

namespace ChartParsing

/-- The tables of a sentence under the coarse model, and the score of its best
coarse derivation. -/
structure TablePosterior (shape : ChartShape) (σ : Type) where
  inside : InsideTables shape σ
  outside : OutsideTables shape σ
  total : σ

namespace TablePosterior

variable {shape : ChartShape} {σ : Type} [Score σ]

/-- The score of the best derivation through a coarse constituent at a stage,
relative to the best derivation of all. -/
def marginal (posterior : TablePosterior shape σ) (stage : Stage) (label : LabelId)
    (start right : Nat) : σ :=
  -posterior.total + posterior.outside.score .built label start right +
    posterior.inside.score stage label start right

/-- The fine cells to pass over: those whose coarse counterpart has a posterior
below the threshold. -/
def skipsBelow (posterior : TablePosterior shape σ) (threshold : σ)
    (toCoarse : Array LabelId) (stage : Stage) (label : LabelId)
    (start right : Nat) : Bool :=
  decide
    (posterior.marginal stage (toCoarse.getD label 0) start right < threshold)

end TablePosterior

namespace Sweep

variable {σ : Type} [Score σ] (sweep : Sweep σ)

/-- The error about a cell that should hold a constituent. -/
def missing {σ : Type} (sweep : Sweep σ) (label : LabelId) (start right : Nat) :
    ParseError σ :=
  .missingConstituent (sweep.model.grammar.labels.name label) start right

mutual

/-- The best constituent of a label over a span, its unary step included. -/
def closedTree (numbers : Backpointers sweep.shape) (label : LabelId)
    (start right : Nat) : Except (ParseError σ) (Tree String) :=
  match numbers.closing? sweep.model.closure label start right with
  | none => .error (sweep.missing label start right)
  | some closing => do
      let tree ← builtTree numbers (closing.base label) start right
      return Tree.under (closing.above.map sweep.model.grammar.labels.name) tree
termination_by (sweep.words.length - start - right, 1)

/-- The best constituent of a label over a span that is built by a binary rule,
or the word itself.  A split lies within the span. -/
def builtTree (numbers : Backpointers sweep.shape) (label : LabelId)
    (start right : Nat) : Except (ParseError σ) (Tree String) :=
  let name := sweep.model.grammar.labels.name label
  let length := sweep.words.length
  if start + right = length - 1 then
    .ok (.node name [.leaf (sweep.words.getD start "")])
  else
    match numbers.construction? sweep.model.grammar label start right with
    | some (.split rule middle) =>
        if _inside : start < middle ∧ middle < length - right then do
          let left ← closedTree numbers rule.left start (length - middle)
          let right ← closedTree numbers rule.right middle right
          return .node name [left, right]
        else .error (sweep.missing label start right)
    | _ => .error (sweep.missing label start right)
termination_by (sweep.words.length - start - right, 0)

end

end Sweep

namespace Parser

variable {σ : Type} [Score σ] (parser : Parser σ) (layout : ChartLayout)
  (words : List String)

/-- The sweep with the coarse model, which fills all cells and keeps no
choices. -/
abbrev coarseSweep {σ : Type} (parser : Parser σ) (layout : ChartLayout)
    (words : List String) : Sweep σ :=
  ⟨parser.coarse, words, parser.config, layout, fun _ _ _ _ => false, false⟩

/-- The sweep with the fine model. -/
abbrev fineSweep {σ : Type} (parser : Parser σ) (layout : ChartLayout)
    (words : List String)
    (skips : Stage → (label : LabelId) → (start right : Nat) → Bool) : Sweep σ :=
  ⟨parser.fine, words, parser.config, layout, skips, true⟩

/-- The coarse tables of a sentence, if it has a coarse parse, and the edges spent
on them. -/
def sweepCoarse : Except (ParseError σ)
    (Option (TablePosterior (parser.coarseSweep layout words).shape σ) × Nat) := do
  let sweep := parser.coarseSweep layout words
  let (spent, inside) ← sweep.inside 0
  let total := inside.score .closed parser.coarse.grammar.root 0 0
  if Score.isImpossible total then
    return (none, spent)
  else
    let (spent, outside) ← sweep.outside inside spent
    return (some ⟨inside, outside, total⟩, spent)

/-- The best parse by the fine tables, after `spent` edges have been spent on the
sentence. -/
def sweepFine (skips : Stage → (label : LabelId) → (start right : Nat) → Bool)
    (spent : Nat) : Except (ParseError σ) (Option (ScoredParse σ)) := do
  let sweep := parser.fineSweep layout words skips
  let (_, tables) ← sweep.inside spent
  let root := parser.fine.grammar.root
  let score := tables.score .closed root 0 0
  if Score.isImpossible score then
    return none
  else
    match tables.backpointers? with
    | none => throw (sweep.missing root 0 0)
    | some numbers =>
        let derivation ← sweep.closedTree numbers root 0 0
        return some
          { tree := Refinement.unannotate derivation
            derivation, score, usedFallback := false }

/-- The best parse of a sentence with nothing passed over or spent before. -/
def sweepExhaustively : Except (ParseError σ) (Option (ScoredParse σ)) :=
  parser.sweepFine layout words (fun _ _ _ _ => false) 0

/-- The best parse of a sentence by what the coarse tables leave of the fine
ones.  A sentence that loses every parse is parsed again, its edges counted
anew. -/
def sweepPruned (threshold : σ) : Except (ParseError σ) (Option (ScoredParse σ)) := do
  match ← parser.sweepCoarse layout words with
  | (none, spent) => parser.sweepFine layout words (fun _ _ _ _ => false) spent
  | (some posterior, spent) =>
      match ← parser.sweepFine layout words
          (posterior.skipsBelow threshold parser.toCoarse) spent with
      | some parse => return some parse
      | none =>
          let parse? ← parser.sweepExhaustively layout words
          return parse?.map ({ · with usedFallback := true })

/-- The best parse of a sentence by tables with a layout, if it has any. -/
def sweep : Except (ParseError σ) (Option (ScoredParse σ)) := do
  if words.isEmpty then return none
  parser.config.checkLength words.length
  match parser.config.pruning with
  | .below threshold => parser.sweepPruned layout words threshold
  | .disabled => parser.sweepExhaustively layout words

end Parser

end ChartParsing
