import ChartParsing.Vocabulary

/-!
# Why a sentence is not parsed

A sentence can exceed a limit of the parser's configuration.  The other errors
are violations of what the parser takes for granted: they tell of a broken
lexicon or of a broken chart.
-/

namespace ChartParsing

/-- Why the parse of a sentence is given up. -/
inductive ParseError (σ : Type) where
  /-- The lexicon scores a word above zero. -/
  | positiveTaggingScore (position : Nat) (word label : String) (score : σ)
  /-- The sentence is longer than allowed. -/
  | sentenceTooLong (length max : Nat)
  /-- The sentence takes more edges than allowed. -/
  | budgetExhausted (max : Nat)
  /-- The cell of a label, over the words from `start` up to the last `right`
  ones, has a score but no constituent. -/
  | missingConstituent (label : String) (start right : Nat)
  /-- A position is too great for a chart to refer to. -/
  | backpointerOverflow (value : Nat)
  deriving DecidableEq, Repr

namespace ParseError

variable {σ : Type}

/-- Errors that no limit in the configuration can bring about. -/
def isInvariantViolation : ParseError σ → Bool
  | .positiveTaggingScore .. | .missingConstituent .. => true
  | .sentenceTooLong .. | .budgetExhausted .. | .backpointerOverflow .. => false

/-- The description of an error, given the text of a score. -/
def message (text : σ → String) : ParseError σ → String
  | .positiveTaggingScore position word label score =>
      "word " ++ toString position ++ " (" ++ word ++ ") scored " ++ text score ++
        " as " ++ label ++ "; it must not be positive"
  | .sentenceTooLong length max =>
      "sentence has " ++ toString length ++ " words but at most " ++
        toString max ++ " are allowed"
  | .budgetExhausted max =>
      "gave up after examining more than " ++ toString max ++ " edges"
  | .missingConstituent label start right =>
      label ++ " has a finite score over (" ++ toString start ++ ", " ++
        toString right ++ ") but no backpointer"
  | .backpointerOverflow value =>
      toString value ++ " does not fit in a chart backpointer"

end ParseError

end ChartParsing
