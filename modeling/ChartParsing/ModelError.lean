/-!
# Why a model is refused

The reasons for which a grammar, a lexicon or a pair of models cannot be used.
-/

namespace ChartParsing

/-- Why a grammar, a lexicon or a pair of models is refused. -/
inductive ModelError (σ : Type) where
  /-- A rule's score is not a finite log-probability. -/
  | invalidScore (parent : String) (children : List String) (score : σ)
  /-- The score of a word under a tag is not a finite log-probability. -/
  | invalidTaggingScore (word tag : String) (score : σ)
  /-- The image of a fine label is not a label of the coarse grammar. -/
  | unmappedLabel (label : String)
  /-- The image of the fine root is not the coarse root. -/
  | rootMismatch (fine coarse : String)
  /-- A cycle of unary rules adds to the score of what it passes through. -/
  | positiveCycle
  /-- There are more rules than a chart can refer to. -/
  | tooManyRules (count : Nat)
  deriving DecidableEq, Repr

namespace ModelError

variable {σ : Type}

/-- The description of an error, given the text of a score. -/
def message (text : σ → String) : ModelError σ → String
  | .invalidScore parent children score =>
      parent ++ " -> " ++ " ".intercalate children ++ " has score " ++
        text score ++ "; rule scores must be finite log-probabilities"
  | .invalidTaggingScore word tag score =>
      word ++ "/" ++ tag ++ " has score " ++ text score ++
        "; tagging scores must be finite log-probabilities"
  | .unmappedLabel label =>
      "fine label " ++ label ++ " has no counterpart in the coarse grammar"
  | .rootMismatch fine coarse =>
      "fine root " ++ fine ++ " does not map onto coarse root " ++ coarse
  | .positiveCycle => "the unary rules contain a cycle with a positive score"
  | .tooManyRules count =>
      toString count ++ " rules cannot be addressed by a chart backpointer"

end ModelError

end ChartParsing
