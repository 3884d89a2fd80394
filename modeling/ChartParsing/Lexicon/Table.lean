import ChartParsing.Lexicon.Basic
import ChartParsing.ModelError
import ChartParsing.ScoreTable

/-!
# Lexicons given by a table

The table lists scored pairs of a word and a tag.  A word that occurs in no pair
is unknown and is scored by its tag alone.  Every score entered has to be a
finite log-probability.
-/

namespace ChartParsing

/-- Scores of words under tags, and of tags for the words that have none. -/
structure TableLexicon (σ : Type) where
  known : ScoreTable (String × String) σ
  unknown : ScoreTable String σ

namespace TableLexicon

variable {σ : Type} [Score σ]

/-- The lexicon that knows no word. -/
def empty : TableLexicon σ :=
  ⟨.empty, .empty⟩

instance : Inhabited (TableLexicon σ) :=
  ⟨empty⟩

/-- What stands for the word in an error about unknown words. -/
def unknownWord : String := "<unknown>"

/-- The first entry whose score is not a finite log-probability. -/
def entryError? (entries : List ((String × String) × σ)) :
    Option (ModelError σ) :=
  entries.findSome? fun ((word, tag), score) =>
    if Score.isLogProbability score then none
    else some (.invalidTaggingScore word tag score)

/-- The lexicon of a list of entries; repeated ones keep their best score. -/
def ofEntries (entries : List ((String × String) × σ)) :
    Except (ModelError σ) (TableLexicon σ) :=
  match entryError? entries with
  | some error => .error error
  | none => .ok ⟨.ofList entries, .empty⟩

/-- Enter the scores of tags for unknown words; of repeated ones the last
counts. -/
def withUnknownWords (lexicon : TableLexicon σ) (scores : List (String × σ)) :
    Except (ModelError σ) (TableLexicon σ) :=
  match entryError? (scores.map fun (tag, score) => ((unknownWord, tag), score)) with
  | some error => .error error
  | none =>
      .ok { lexicon with
        unknown := scores.foldl (fun table (tag, score) => table.set tag score)
          lexicon.unknown }

/-- Whether a word occurs in the table. -/
def knows (lexicon : TableLexicon σ) (word : String) : Bool :=
  lexicon.known.entries.any fun entry => entry.1.1 == word

/-- The score of a word under a tag: that of the pair for a known word, and that
of the tag for an unknown one. -/
def score (lexicon : TableLexicon σ) : Lexicon σ :=
  fun word tag =>
    let entry? :=
      if lexicon.knows word then lexicon.known.find? (word, tag)
      else lexicon.unknown.find? tag
    entry?.getD impossible

/-- Rename every tag; tags that become one keep the best of their scores. -/
def project (lexicon : TableLexicon σ) (rename : String → String) :
    TableLexicon σ where
  known := .ofList (lexicon.known.entries.map fun ((word, tag), score) =>
    ((word, rename tag), score))
  unknown := .ofList (lexicon.unknown.entries.map fun (tag, score) =>
    (rename tag, score))

/-- The order of entries by word, then by tag. -/
def entryBefore (first second : (String × String) × σ) : Bool :=
  decide (first.1.1 < second.1.1 ∨
    first.1.1 = second.1.1 ∧ first.1.2 ≤ second.1.2)

/-- The entries of the table, ordered by word and then by tag. -/
def sortedEntries (lexicon : TableLexicon σ) : List ((String × String) × σ) :=
  lexicon.known.entries.mergeSort entryBefore

end TableLexicon

end ChartParsing
