import ChartParsing.Proofs.Parser.Genuine

/-!
# Exhaustive parsing is optimal

Without pruning and without limits, the parse that is returned scores best among all
parses of the sentence, chains of unary rules of any length and rules that expand a
label into itself included, and there is none only where no parse exists.

`Model.Accepts` collects what this takes: a sound model, a sentence that is not empty,
and taggings that are accepted.
-/

namespace ChartParsing

namespace Model

/-- The score of the best parse of a sentence, as found in the whole chart. -/
def bestScore {σ : Type} [Score σ] (model : Model σ) (words : List String) : σ :=
  (model.pass words .nothing).total

/-- A sound model that accepts the taggings of a sentence, whatever is pruned. -/
structure Accepts (model : Model ExactScore) (words : List String) : Prop where
  sound : model.Sound
  nonempty : words ≠ []
  taggings : ∀ pruned, (model.pass words pruned).taggingError? = none

/-- A model of a declared grammar accepts every sentence that is not empty, if its
lexicon scores nothing above zero. -/
theorem accepts_of_isModelOf {grammar : Grammar ExactScore} {lexicon : Lexicon ExactScore}
    {model : Model ExactScore} {words : List String} (declared : grammar.IsDeclared)
    (isModel : IsModelOf grammar lexicon model) (nonpositive : lexicon.Nonpositive)
    (nonempty : words ≠ []) : model.Accepts words where
  sound := isModel.sound declared
  nonempty := nonempty
  taggings _ := Pass.taggingError?_of_nonpositive (isModel.lexicon_eq ▸ nonpositive)

namespace Accepts

variable {model : Model ExactScore} {words : List String} (accepts : model.Accepts words)

include accepts

theorem length_pos (pruned : Pruned) : 0 < (model.pass words pruned).length :=
  List.length_pos_of_ne_nil accepts.nonempty

theorem nonpositive (pruned : Pruned) : (model.pass words pruned).Nonpositive :=
  Pass.nonpositive_of_accepted accepts.sound (accepts.taggings pruned)

/-- The root cell of a pass that prunes nothing scores as the best parses do. -/
theorem isBestOf_bestScore :
    Score.IsBestOf {score | ∃ tree, model.IsParse words tree score}
      (model.bestScore words) := by
  have same : {score | ∃ tree, model.IsParse words tree score} =
      {score | ∃ tree, (model.pass words .nothing).Admits .closed model.grammar.root 0
        words.length tree score} := by
    ext score
    constructor
    · rintro ⟨tree, parse⟩
      exact ⟨tree, (Pass.admits_root_iff_isParse accepts.sound.grammar rfl).mpr parse⟩
    · rintro ⟨tree, admits⟩
      exact ⟨tree, admits.isParse accepts.sound.grammar⟩
  rw [same]
  exact Pass.isBestOf_admits accepts.sound (accepts.nonpositive .nothing)
    (accepts.length_pos .nothing) (Nat.le_refl _) accepts.sound.grammar.rooted .closed

theorem isFinite_bestScore_iff :
    Score.isFinite (model.bestScore words) = true ↔ model.bestScore words ≠ impossible :=
  ExactScore.isFinite_iff_of_nonpos accepts.isBestOf_bestScore.nonpos

/-- A sentence has a parse of finite score if its root cell is not impossible. -/
theorem isGreatest_parseScores (possible : model.bestScore words ≠ impossible) :
    IsGreatest (model.parseScores words) (model.bestScore words) := by
  have best := accepts.isBestOf_bestScore
  constructor
  · exact ⟨accepts.isFinite_bestScore_iff.mpr possible, best.attained.resolve_left possible⟩
  · rintro score ⟨-, parse⟩
    exact best.bound score parse

theorem parseScores_eq_empty_iff :
    model.parseScores words = ∅ ↔ model.bestScore words = impossible := by
  have best := accepts.isBestOf_bestScore
  constructor
  · intro empty
    by_contra possible
    have greatest := accepts.isGreatest_parseScores possible
    rw [empty] at greatest
    exact greatest.1
  · intro impossibleRoot
    rw [Set.eq_empty_iff_forall_notMem]
    rintro score ⟨finite, parse⟩
    have finiteRoot := ExactScore.isFinite_of_le finite (best.bound score parse) best.nonpos
    exact accepts.isFinite_bestScore_iff.mp finiteRoot impossibleRoot

end Accepts

end Model

namespace Parser

variable {parser : Parser ExactScore} {words : List String}

/-- Without pruning and limits a parser returns a parse with the best score, or none
where nothing is possible. -/
theorem parse_cases (accepts : parser.fine.Accepts words)
    (config : parser.config = ⟨.disabled, none, none⟩) :
    (parser.fine.bestScore words = impossible ∧ parser.parse words = .ok none) ∨
      ∃ derivation, parser.fine.bestScore words ≠ impossible ∧
        parser.fine.IsParse words derivation (parser.fine.bestScore words) ∧
        parser.parse words = .ok (some
          ⟨Refinement.unannotate derivation, derivation, parser.fine.bestScore words,
            false⟩) := by
  rw [parse_eq_of_disabled config accepts.nonempty (accepts.taggings .nothing)]
  exact Pass.bestParse?_cases accepts.sound (accepts.taggings .nothing)

/-- The parser that makes one pass over all cells of a model. -/
abbrev exhaustive {σ : Type} (model : Model σ) : Parser σ :=
  ⟨model, model, Array.range model.grammar.labels.size, ⟨.disabled, none, none⟩⟩

theorem exhaustive_cases {model : Model ExactScore} (accepts : model.Accepts words) :
    (model.bestScore words = impossible ∧ (exhaustive model).parse words = .ok none) ∨
      ∃ derivation, model.bestScore words ≠ impossible ∧
        model.IsParse words derivation (model.bestScore words) ∧
        (exhaustive model).parse words = .ok (some
          ⟨Refinement.unannotate derivation, derivation, model.bestScore words, false⟩) :=
  @parse_cases (exhaustive model) words accepts rfl

variable {grammar : Grammar ExactScore} {lexicon : Lexicon ExactScore}

/-- The parse of a sentence without pruning and limits is a best one, and there is one
if the sentence has any. -/
theorem parse_optimal (declared : grammar.IsDeclared)
    (isModel : Model.IsModelOf grammar lexicon parser.fine)
    (nonpositive : lexicon.Nonpositive)
    (config : parser.config = ⟨.disabled, none, none⟩) (nonempty : words ≠ []) :
    (parser.parse words = .ok none ↔ parser.fine.parseScores words = ∅) ∧
      ((parser.fine.parseScores words).Nonempty →
        ∃ parse, parser.parse words = .ok (some parse) ∧
          IsGreatest (parser.fine.parseScores words) parse.score) := by
  have accepts := Model.accepts_of_isModelOf declared isModel nonpositive nonempty
  have emptyIff := accepts.parseScores_eq_empty_iff
  rcases parse_cases accepts config with ⟨same, none⟩ | ⟨derivation, possible, -, some⟩
  · have empty := emptyIff.mpr same
    constructor
    · exact iff_of_true none empty
    · exact fun inhabited => absurd empty inhabited.ne_empty
  · constructor
    · apply iff_of_false
      · rw [some]
        exact fun same => nomatch same
      · exact fun empty => possible (emptyIff.mp empty)
    · exact fun _ => ⟨_, some, accepts.isGreatest_parseScores possible⟩

theorem parse_optimal_dogs_bark :
    ∃ parse, (exhaustive Sample.Exact.fine).parse ["dogs", "bark"] = .ok (some parse) ∧
      IsGreatest (Sample.Exact.fine.parseScores ["dogs", "bark"]) parse.score := by
  have isModel : Model.IsModelOf Sample.Exact.grammar Sample.Exact.lexicon.score
      (exhaustive Sample.Exact.fine).fine := Model.IsModelOf.sample_fine
  obtain ⟨-, optimal⟩ := parse_optimal Grammar.isDeclared_sample isModel
    (TableLexicon.nonpositive_score
      (TableLexicon.wellFormed_of_isBuilt TableLexicon.isBuilt_sample))
    rfl (List.cons_ne_nil "dogs" ["bark"])
  apply optimal
  -- The chain above the noun goes round its cycle once.
  exact ⟨.finite (-119 / 24), rfl,
    .node "ROOT" [.node "S^ROOT"
      [.node "NP^S" [.node "N^NP" [.node "NP^S" [.node "N^NP" [.leaf "dogs"]]]],
        .node "VP^S" [.node "VP^VP" [.node "V^VP" [.leaf "bark"]]]]],
    by decide +kernel, rfl, by decide +kernel⟩

end Parser

end ChartParsing
