import ChartParsing.Chart.Cost
import ChartParsing.Chart.Derivation
import ChartParsing.Chart.Posterior
import ChartParsing.Parser.Config
import ChartParsing.Parser.Error
import ChartParsing.Refinement.Restore

/-!
# Coarse-to-fine parsing

A parser pairs a coarse model with a fine one, whose labels refine the coarse
labels.  It parses a sentence with the coarse model first, leaves out of the fine
chart what is unlikely in the light of the coarse charts, and reads the best
derivation off the rest.  Where pruning loses every derivation the sentence is
parsed again without it.

Before a chart is filled, the taggings that it needs are checked and its cost is
charged to the sentence, so that an error is found without any work.  A sweep over
tables that are filled in place (`Parser.sweep`) does both as it goes, with the
same answers.
-/

namespace ChartParsing

/-- The best parse of a sentence. -/
structure ScoredParse (σ : Type) where
  /-- The parse in the categories of a treebank. -/
  tree : Tree String
  /-- The parse as derived by the fine grammar. -/
  derivation : Tree String
  /-- The score of the derivation under the fine model. -/
  score : σ
  /-- Whether pruning lost every parse, so that the sentence was parsed again
  without it. -/
  usedFallback : Bool

/-- A coarse and a fine model.  `toCoarse` gives each fine label its coarse
label. -/
structure Parser (σ : Type) where
  coarse : Model σ
  fine : Model σ
  toCoarse : Array LabelId
  config : Config σ

namespace Pass

variable {σ : Type} [Score σ]

/-- The first word and label in a cell to be filled that the lexicon scores above
zero. -/
def taggingError? (pass : Pass σ) : Option (ParseError σ) :=
  pass.words.zipIdx.findSome? fun (word, position) =>
    pass.model.grammar.labels.ids.findSome? fun label =>
      let tag := pass.model.grammar.labels.name label
      let score := pass.model.tagScore word tag
      if pass.pruned .built label position (position + 1) then none
      else if 0 < score then some (.positiveTaggingScore position word tag score)
      else none

/-- Refuse a pass whose lexicon scores a word above zero. -/
def checkTaggings (pass : Pass σ) : Except (ParseError σ) Unit :=
  match pass.taggingError? with
  | some error => .error error
  | none => .ok ()

end Pass

namespace Parser

variable {σ : Type} [Score σ]

/-! ## Pairing two models -/

/-- The coarse labels of fine labels under a label map. -/
def mapLabels (coarse : Vocabulary) (rename : String → String) :
    List String → Except (ModelError σ) (List LabelId)
  | [] => .ok []
  | label :: rest =>
      match coarse.id? (rename label) with
      | none => .error (.unmappedLabel label)
      | some id => do
          let ids ← mapLabels coarse rename rest
          return id :: ids

/-- The parser of two models.  Every fine label has to be renamed to a coarse
one, and the fine root to the coarse root. -/
def ofModels (coarse fine : Model σ) (rename : String → String)
    (config : Config σ) : Except (ModelError σ) (Parser σ) := do
  let ids ← mapLabels coarse.grammar.labels rename fine.grammar.labels.names
  let toCoarse := ids.toArray
  if toCoarse.getD fine.grammar.root 0 = coarse.grammar.root then
    return { coarse, fine, toCoarse, config }
  else
    throw (.rootMismatch fine.grammar.rootName coarse.grammar.rootName)

/-! ## Parsing -/

/-- The tree that stands for a sentence without a parse. -/
def failureTree (parser : Parser σ) : Tree String :=
  Refinement.failureTree parser.fine.grammar.rootName

/-- The posterior of a sentence under the coarse model, if it has a coarse parse,
and the edges spent on it. -/
def coarsePass (parser : Parser σ) (words : List String) :
    Except (ParseError σ) (Option (Posterior σ) × Nat) := do
  let pass : Pass σ := ⟨parser.coarse, words, .nothing⟩
  pass.checkTaggings
  let spent ← parser.config.charge 0 pass.cost
  let inside := pass.inside
  let total := inside.score .closed parser.coarse.grammar.root 0 words.length
  if Score.isImpossible total then
    return (none, spent)
  else
    let spent ←
      parser.config.charge spent (parser.coarse.grammar.outsideCost words.length)
    let outside := parser.coarse.outside words.length inside
    return (some ⟨inside, outside, total⟩, spent)

/-- The best parse by the fine cells that are not pruned, after `spent` edges
have been spent on the sentence. -/
def finePass (parser : Parser σ) (words : List String) (pruned : Pruned)
    (spent : Nat) : Except (ParseError σ) (Option (ScoredParse σ)) := do
  let pass : Pass σ := ⟨parser.fine, words, pruned⟩
  pass.checkTaggings
  let _ ← parser.config.charge spent pass.cost
  let chart := pass.inside
  let root := parser.fine.grammar.root
  let score := chart.score .closed root 0 words.length
  if Score.isImpossible score then
    return none
  else
    match pass.derivation? chart root 0 words.length with
    | none =>
        throw (.missingConstituent parser.fine.grammar.rootName 0 0)
    | some derivation =>
        return some
          { tree := Refinement.unannotate derivation
            derivation, score, usedFallback := false }

/-- The best parse of a sentence by the whole fine chart, with nothing spent on
the sentence before. -/
def parseExhaustively (parser : Parser σ) (words : List String) :
    Except (ParseError σ) (Option (ScoredParse σ)) :=
  parser.finePass words .nothing 0

/-- The best parse of a sentence by the fine chart pruned below a threshold.  A
sentence without a coarse parse is not pruned, and one that loses every parse is
parsed again exhaustively. -/
def parsePruned (parser : Parser σ) (words : List String) (threshold : σ) :
    Except (ParseError σ) (Option (ScoredParse σ)) := do
  match ← parser.coarsePass words with
  | (none, spent) => parser.finePass words .nothing spent
  | (some posterior, spent) =>
      let pruned := posterior.prunedBelow threshold parser.toCoarse
      match ← parser.finePass words pruned spent with
      | some parse => return some parse
      | none =>
          let parse? ← parser.parseExhaustively words
          return parse?.map ({ · with usedFallback := true })

/-- The best parse of a sentence, if it has any.  The empty sentence has none. -/
def parse (parser : Parser σ) (words : List String) :
    Except (ParseError σ) (Option (ScoredParse σ)) := do
  if words.isEmpty then return none
  parser.config.checkLength words.length
  match parser.config.pruning with
  | .below threshold => parser.parsePruned words threshold
  | .disabled => parser.parseExhaustively words

/-- The tree of the best parse, or the failure tree where there is none or a
limit has been exceeded.  Violations of what the parser takes for granted remain
errors. -/
def bestTree (parser : Parser σ) (words : List String) :
    Except (ParseError σ) (Tree String) :=
  match parser.parse words with
  | .ok (some parse) => .ok parse.tree
  | .ok none => .ok parser.failureTree
  | .error error =>
      if error.isInvariantViolation then .error error else .ok parser.failureTree

end Parser

end ChartParsing
