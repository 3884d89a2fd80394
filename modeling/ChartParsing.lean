import ChartParsing.Best
import ChartParsing.Chart.Cost
import ChartParsing.Chart.Derivation
import ChartParsing.Chart.Inside
import ChartParsing.Chart.Outside
import ChartParsing.Chart.OutsideSweep
import ChartParsing.Chart.Posterior
import ChartParsing.Chart.Recurrence
import ChartParsing.Chart.Rows
import ChartParsing.Chart.Sweep
import ChartParsing.Chart.Table
import ChartParsing.Decimal.Shortest
import ChartParsing.Grammar.Basic
import ChartParsing.Grammar.Declaration
import ChartParsing.Grammar.Projection
import ChartParsing.LabelIndex
import ChartParsing.Lexicon.Basic
import ChartParsing.Lexicon.Table
import ChartParsing.Model
import ChartParsing.ModelError
import ChartParsing.Parser.Basic
import ChartParsing.Parser.Config
import ChartParsing.Parser.Error
import ChartParsing.Parser.Sweeping
import ChartParsing.Proofs.Chart.Alike
import ChartParsing.Proofs.Chart.Candidates
import ChartParsing.Proofs.Chart.Constituent
import ChartParsing.Proofs.Chart.Cost
import ChartParsing.Proofs.Chart.Covering
import ChartParsing.Proofs.Chart.Extraction
import ChartParsing.Proofs.Chart.InsideBest
import ChartParsing.Proofs.Chart.Marginal
import ChartParsing.Proofs.Chart.OutsideBest
import ChartParsing.Proofs.Chart.OutsideSweep
import ChartParsing.Proofs.Chart.Pruning
import ChartParsing.Proofs.Chart.Skipping
import ChartParsing.Proofs.Chart.Spending
import ChartParsing.Proofs.Chart.Surroundings
import ChartParsing.Proofs.Chart.Sweep
import ChartParsing.Proofs.Chart.SweepCells
import ChartParsing.Proofs.Chart.SweepCost
import ChartParsing.Proofs.Chart.Table
import ChartParsing.Proofs.Computation
import ChartParsing.Proofs.Derivation
import ChartParsing.Proofs.Grammar.Declaration
import ChartParsing.Proofs.Grammar.Projection
import ChartParsing.Proofs.Grammar.WellFormed
import ChartParsing.Proofs.Lexicon.Projection
import ChartParsing.Proofs.Lexicon.Table
import ChartParsing.Proofs.Parser.Admissible
import ChartParsing.Proofs.Parser.Budget
import ChartParsing.Proofs.Parser.Cost
import ChartParsing.Proofs.Parser.Exhaustion
import ChartParsing.Proofs.Parser.Genuine
import ChartParsing.Proofs.Parser.Marginal
import ChartParsing.Proofs.Parser.Optimal
import ChartParsing.Proofs.Parser.Outcome
import ChartParsing.Proofs.Parser.Projection
import ChartParsing.Proofs.Parser.PrunedScore
import ChartParsing.Proofs.Parser.Reflexive
import ChartParsing.Proofs.Parser.Reordering
import ChartParsing.Proofs.Parser.Sweeping
import ChartParsing.Proofs.Parser.Tagging
import ChartParsing.Proofs.Parser.Threshold
import ChartParsing.Proofs.Parser.Unlimited
import ChartParsing.Proofs.Projection
import ChartParsing.Proofs.Refinement.Alignment
import ChartParsing.Proofs.Refinement.Collapse
import ChartParsing.Proofs.Refinement.Fine
import ChartParsing.Proofs.Refinement.Label
import ChartParsing.Proofs.Refinement.Marks
import ChartParsing.Proofs.Refinement.Rare
import ChartParsing.Proofs.Refinement.Restore
import ChartParsing.Proofs.Refinement.RoundTrip
import ChartParsing.Proofs.Refinement.Unmarked
import ChartParsing.Proofs.Reordering
import ChartParsing.Proofs.Score.Congruence
import ChartParsing.Proofs.Score.ExactLaws
import ChartParsing.Proofs.Score.FirstBest
import ChartParsing.Proofs.Score.Laws
import ChartParsing.Proofs.ScoreTable
import ChartParsing.Proofs.Text.Combinator
import ChartParsing.Proofs.Tree.Children
import ChartParsing.Proofs.Tree.Composed
import ChartParsing.Proofs.Tree.Layout
import ChartParsing.Proofs.Tree.Path
import ChartParsing.Proofs.Tree.Placed
import ChartParsing.Proofs.Tree.Reading
import ChartParsing.Proofs.Tree.Rejection
import ChartParsing.Proofs.Tree.Relabel
import ChartParsing.Proofs.Unary.BestChains
import ChartParsing.Proofs.Unary.Chain
import ChartParsing.Proofs.Unary.Closure
import ChartParsing.Proofs.Unary.Convergence
import ChartParsing.Proofs.Unary.Pushing
import ChartParsing.Proofs.Unary.Reflexive
import ChartParsing.Proofs.Unary.Relaxation
import ChartParsing.Proofs.Unary.Selections
import ChartParsing.Refinement.Binarize
import ChartParsing.Refinement.Label
import ChartParsing.Refinement.Rare
import ChartParsing.Refinement.Restore
import ChartParsing.Sample
import ChartParsing.Score.Basic
import ChartParsing.Score.Binary64
import ChartParsing.Score.Exact
import ChartParsing.ScoreTable
import ChartParsing.Text.Blank
import ChartParsing.Text.Combinator
import ChartParsing.Tree.Basic
import ChartParsing.Tree.Composed
import ChartParsing.Tree.Printer
import ChartParsing.Tree.Reader
import ChartParsing.Unary.Closure
import ChartParsing.Unary.Reach
import ChartParsing.Vocabulary
