import ChartParsing.Proofs.Grammar.Projection
import ChartParsing.Proofs.Lexicon.Projection
import ChartParsing.Proofs.Parser.Admissible

/-!
# Parsers of a projection

Every declared grammar has a projection under every renaming, and the two make up a parser,
whatever the rest of their models is (`Parser.ofModels_of_project`).  Projections compose, for
grammars as for lexicons, so that a series of ever coarser grammars does not depend on the
steps in which it is made (`Parser.projection_functorial`).
-/

namespace ChartParsing.Parser

variable {σ : Type} [Score σ]

/-- A model of a projection is accepted as the coarse model of any model of the grammar that is
projected. -/
theorem ofModels_of_project [Score.Monotone σ] {grammar projected : Grammar σ}
    {rename : String → String} (declared : grammar.IsDeclared)
    (made : grammar.project rename = .ok projected) {coarse fine : Model σ}
    (isFine : fine.grammar = grammar) (isCoarse : coarse.grammar = projected)
    (config : Config σ) :
    ofModels coarse fine rename config = .ok ⟨coarse, fine,
      (grammar.labels.names.map fun name =>
        projected.labels.names.idxOf (rename name)).toArray, config⟩ := by
  have projectedDeclared : projected.IsDeclared := ⟨_, _, made⟩
  have wellFormed := Grammar.wellFormed_of_isDeclared declared
  have projectedWellFormed := Grammar.wellFormed_of_isDeclared projectedDeclared
  subst isFine isCoarse
  have mapped := mapLabels_eq_ok (σ := σ) projectedWellFormed.distinct fun _ =>
    (Grammar.covers_of_project made).mem_labels
  refine ofModels_eq_ok_iff.mpr ⟨_, mapped, ?_, rfl⟩
  obtain ⟨rest, names⟩ := Grammar.names_eq_root_cons wellFormed.rooted
  obtain ⟨others, projectedNames⟩ := Grammar.names_eq_root_cons projectedWellFormed.rooted
  rw [names, projectedNames, Grammar.rootName_of_project made]
  simp [Grammar.root]

/-- Every projection succeeds, and a projected rule has the greatest of the scores that come to
it.  Projecting twice is projecting once by the composed renaming: the labels have the same
numbers and the rules the same order, at scores that tie, and so do the entries of a lexicon
whatever the order in which they are taken.  Scores that tie are equal wherever the order tells
any two numbers apart; of the two floating-point zeros it does not, and merging keeps the first.
A renaming that changes nothing gives the grammar itself, and a grammar and its projection
always make up a parser. -/
theorem projection_functorial [Score.Monotone σ] {grammar : Grammar σ}
    {lexicon : TableLexicon σ} (declared : grammar.IsDeclared) (built : lexicon.IsBuilt)
    (rename outer : String → String) :
    ∃ once twice direct,
      grammar.project rename = .ok once ∧ once.project outer = .ok twice ∧
      grammar.project (outer ∘ rename) = .ok direct ∧ twice.Alike direct ∧
      ((∀ a b : σ, Score.Ties a b → a = b) → twice = direct) ∧
      grammar.project id = .ok grammar ∧
      (∀ rule ∈ once.binary, IsGreatest (grammar.binaryScoresOf once rename rule) rule.score) ∧
      (∀ rule ∈ once.unary, IsGreatest (grammar.unaryScoresOf once rename rule) rule.score) ∧
      (∀ onceLexicon twiceLexicon directLexicon, lexicon.ProjectsTo rename onceLexicon →
        onceLexicon.ProjectsTo outer twiceLexicon →
        lexicon.ProjectsTo (outer ∘ rename) directLexicon → twiceLexicon.Alike directLexicon) ∧
      ∀ coarse fine : Model σ, fine.grammar = grammar → coarse.grammar = once →
        ∀ config, ofModels coarse fine rename config = .ok ⟨coarse, fine,
          (grammar.labels.names.map fun name =>
            once.labels.names.idxOf (rename name)).toArray, config⟩ := by
  have wellFormed := Grammar.wellFormed_of_isDeclared declared
  obtain ⟨once, first⟩ := Grammar.exists_project wellFormed rename
  have onceWellFormed : once.WellFormed := Grammar.wellFormed_of_isDeclared ⟨_, _, first⟩
  obtain ⟨twice, second⟩ := Grammar.exists_project onceWellFormed outer
  obtain ⟨direct, atOnce⟩ := Grammar.exists_project wellFormed (outer ∘ rename)
  have alike := Grammar.alike_of_project_project declared first second atOnce
  refine ⟨once, twice, direct, first, second, atOnce, alike, ?_,
    Grammar.project_id_eq_ok declared, ?_, ?_, ?_, ?_⟩
  · exact alike.eq (Grammar.wellFormed_of_isDeclared ⟨_, _, second⟩)
      (Grammar.wellFormed_of_isDeclared ⟨_, _, atOnce⟩)
  · exact fun rule => Grammar.isGreatest_binaryScoresOf first
  · exact fun rule => Grammar.isGreatest_unaryScoresOf first
  · exact fun _ _ _ => TableLexicon.alike_of_projectsTo_projectsTo
      (TableLexicon.wellFormed_of_isBuilt built)
  · exact fun coarse fine isFine isCoarse => ofModels_of_project declared first isFine isCoarse

/-- A renaming that makes the category of sentences the root. -/
def sentenceToRoot (label : String) : String :=
  if label = "S" then "ROOT" else label

/-- Two labels of the sample become one, and then another one becomes the root. -/
theorem projection_functorial_dogs_bark :
    ∃ merged,
      Sample.Exact.grammar.project Refinement.coarseLabel = .ok Sample.Exact.coarseGrammar ∧
      Sample.Exact.coarseGrammar.project sentenceToRoot = .ok merged ∧
      Sample.Exact.grammar.project (sentenceToRoot ∘ Refinement.coarseLabel) = .ok merged ∧
      Sample.Exact.grammar.project id = .ok Sample.Exact.grammar ∧
      ((Sample.Exact.lexicon.project Refinement.coarseLabel).project sentenceToRoot).Alike
        (Sample.Exact.lexicon.project (sentenceToRoot ∘ Refinement.coarseLabel)) ∧
      ofModels Sample.Exact.coarse Sample.Exact.fine Refinement.coarseLabel
        ⟨.disabled, none, none⟩ = .ok (Sample.Exact.parser ⟨.disabled, none, none⟩) := by
  obtain ⟨once, twice, direct, first, second, atOnce, -, same, unchanged, -, -, lexicons,
      parsers⟩ :=
    projection_functorial Grammar.isDeclared_sample TableLexicon.isBuilt_sample
      Refinement.coarseLabel sentenceToRoot
  obtain rfl := Except.ok.inj (first.symm.trans Grammar.project_sample)
  obtain rfl := same fun _ _ ties => ExactScore.le_antisymm ties.1 ties.2
  have made := parsers Sample.Exact.coarse Sample.Exact.fine
    Model.IsModelOf.sample_fine.grammar_eq Model.IsModelOf.sample_coarse.grammar_eq
    ⟨.disabled, none, none⟩
  have numbers : (Sample.Exact.grammar.labels.names.map fun name =>
      Sample.Exact.coarseGrammar.labels.names.idxOf (Refinement.coarseLabel name)) =
        [0, 1, 2, 3, 4, 3, 5] := by
    decide +kernel
  rw [numbers] at made
  exact ⟨twice, first, second, atOnce, unchanged,
    lexicons _ _ _ (TableLexicon.projectsTo_project _ _) (TableLexicon.projectsTo_project _ _)
      (TableLexicon.projectsTo_project _ _), made⟩

end ChartParsing.Parser
