/-!
# Scores

A score is a log-probability: what is certain scores `0`, the score of a
combination is the sum of the scores of its parts, and what cannot happen has a
score below all others.  Parsing only adds and compares scores, so it is written
for any type that supplies these operations.  A type may also hold values that
are no log-probabilities, such as positive numbers and the undefined result of
an operation; the predicates here tell them apart.
-/

namespace ChartParsing

/-- The operations on scores that parsing needs. -/
class Score (σ : Type) extends Zero σ, Add σ, Neg σ, LE σ, LT σ where
  /-- The score of what cannot happen. -/
  impossible : σ
  /-- Whether a score is a number, neither infinite nor undefined. -/
  isFinite : σ → Bool
  /-- Whether a score is no value at all. -/
  isUndefined : σ → Bool
  /-- The order is decidable. -/
  decideLe : (a b : σ) → Decidable (a ≤ b)
  /-- The strict order is decidable. -/
  decideLt : (a b : σ) → Decidable (a < b)

export Score (impossible)

variable {σ : Type} [Score σ]

instance decidableLe (a b : σ) : Decidable (a ≤ b) :=
  Score.decideLe a b

instance decidableLt (a b : σ) : Decidable (a < b) :=
  Score.decideLt a b

namespace Score

/-- The better of two scores; the first if neither is. -/
@[inline]
def better (a b : σ) : σ :=
  if a < b then b else a

/-- A finite score that is not positive. -/
def isLogProbability (score : σ) : Bool :=
  isFinite score && decide (score ≤ 0)

/-- Whether a score is that of something impossible. -/
def isImpossible (score : σ) : Bool :=
  decide (score ≤ impossible)

/-- The score itself, where no value counts as impossible. -/
def orImpossible (score : σ) : σ :=
  if isUndefined score then impossible else score

end Score

end ChartParsing
