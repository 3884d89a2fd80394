import ChartParsing.Score.Basic

/-!
# The best of several candidates

A maximum is sought together with the candidate that attains it.  Candidates are
offered one after the other, and only a strictly better one takes the place of
the one before, so that the first of several equally good candidates is kept.
Before any offer there is no candidate and the score is that of something
impossible; a candidate that scores no better is never taken.
-/

namespace ChartParsing

/-- The best score so far and the candidate that attains it, if any. -/
structure Best (σ : Type) (α : Type) where
  score : σ
  choice : Option α

namespace Best

variable {σ α : Type} [Score σ]

/-- No candidate has been offered. -/
@[inline]
def empty : Best σ α :=
  ⟨impossible, none⟩

instance : Inhabited (Best σ α) :=
  ⟨empty⟩

/-- Take a candidate if it is strictly better. -/
@[inline]
def offer (best : Best σ α) (score : σ) (candidate : α) : Best σ α :=
  if best.score < score then ⟨score, some candidate⟩ else best

/-- The best of a list of scored candidates, the first of them if several are
equally good. -/
def ofList (candidates : List (σ × α)) : Best σ α :=
  candidates.foldl (fun best candidate => best.offer candidate.1 candidate.2)
    empty

@[simp]
theorem score_empty : (empty : Best σ α).score = impossible :=
  rfl

@[simp]
theorem choice_empty : (empty : Best σ α).choice = none :=
  rfl

/-- Offers change the score as `Score.better` does. -/
@[simp]
theorem score_offer (best : Best σ α) (score : σ) (candidate : α) :
    (best.offer score candidate).score = Score.better best.score score := by
  unfold offer Score.better
  split <;> rfl

end Best

end ChartParsing
