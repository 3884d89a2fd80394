/-!
# Lexicons

A lexicon scores a word under a tag, which is the label directly above it.
Nothing is asked of the scores: a lexicon may answer with an undefined score,
which the parser takes to mean that the tagging is impossible, or with a positive
one, which it refuses.
-/

namespace ChartParsing

/-- The score of a word under a tag. -/
abbrev Lexicon (σ : Type) :=
  (word tag : String) → σ

end ChartParsing
