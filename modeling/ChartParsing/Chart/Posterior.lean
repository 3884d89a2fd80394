import ChartParsing.Chart.Outside

/-!
# Posteriors

The posterior of a coarse constituent compares the best derivation of the
sentence that goes through it with the best derivation of all.  A fine chart is
pruned by leaving empty the cells whose coarse counterparts have a posterior
below a threshold.
-/

namespace ChartParsing

/-- The charts of a sentence under the coarse model, and the score of its best
coarse derivation. -/
structure Posterior (σ : Type) where
  inside : InsideChart σ
  outside : OutsideChart σ
  total : σ

namespace Posterior

variable {σ : Type} [Score σ]

/-- The score of the best derivation through a coarse constituent at a stage,
relative to the best derivation of all.  A constituent that has been closed is
seen from the outside as a built one. -/
def marginal (posterior : Posterior σ) (stage : Stage) (label : LabelId)
    (start stop : Nat) : σ :=
  -posterior.total + posterior.outside.score .built label start stop +
    posterior.inside.score stage label start stop

/-- The fine cells to leave empty: those whose coarse counterpart has a posterior
below the threshold. -/
def prunedBelow (posterior : Posterior σ) (threshold : σ)
    (toCoarse : Array LabelId) : Pruned :=
  fun stage label start stop =>
    decide
      (posterior.marginal stage (toCoarse.getD label 0) start stop < threshold)

end Posterior

end ChartParsing
