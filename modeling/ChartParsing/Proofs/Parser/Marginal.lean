import ChartParsing.Proofs.Chart.Marginal
import ChartParsing.Proofs.Parser.Optimal

/-!
# The marginals that a parser prunes by

The coarse pass of a parser yields the posterior of the sentence under the coarse
model.  Its total is the best score of a coarse parse, and its marginals are exact:
the marginal of a cell is the best score of a coarse parse through a node that the cell
stands for, relative to the total.
-/

namespace ChartParsing

namespace Model.Accepts

variable {model : Model ExactScore} {words : List String} (accepts : model.Accepts words)

include accepts

/-- The outside and the inside score of a node add up to the best score of a parse
through it. -/
theorem isBestOf_scoresThrough {label : LabelId} {start stop : Nat}
    (known : label < model.grammar.labels.size) (nonempty : start < stop)
    (bounded : stop ≤ words.length) (stage : Stage) :
    Score.IsBestOf (model.scoresThrough words stage label start stop)
      ((model.pass words .nothing).outside.score .built label start stop +
        (model.pass words .nothing).inside.score stage label start stop) :=
  Pass.isBestOf_scoresThrough accepts.sound (accepts.nonpositive .nothing) rfl known
    nonempty bounded

/-- No parse through a node is better than the best parse of all. -/
theorem outside_add_inside_le {label : LabelId} {start stop : Nat}
    (known : label < model.grammar.labels.size) (nonempty : start < stop)
    (bounded : stop ≤ words.length) (stage : Stage) :
    (model.pass words .nothing).outside.score .built label start stop +
        (model.pass words .nothing).inside.score stage label start stop ≤
      model.bestScore words := by
  have best := accepts.isBestOf_bestScore
  rcases (accepts.isBestOf_scoresThrough known nonempty bounded stage).attained with
    same | ⟨tree, parse, -⟩
  · rw [same]
    exact ExactScore.impossible_le best.nonpos
  · exact best.bound _ ⟨tree, parse⟩

variable (possible : model.bestScore words ≠ impossible)

include possible

theorem marginal_nonpos {label : LabelId} {start stop : Nat}
    (known : label < model.grammar.labels.size) (nonempty : start < stop)
    (bounded : stop ≤ words.length) (stage : Stage) :
    (model.pass words .nothing).posterior.marginal stage label start stop ≤ 0 := by
  rw [Pass.marginal_posterior]
  exact ExactScore.add_neg_nonpos
    (accepts.outside_add_inside_le known nonempty bounded stage)
    (accepts.isFinite_bestScore_iff.mpr possible)

/-- A node of a best parse has the marginal zero. -/
theorem marginal_eq_zero {tree node : Tree String} {place : Nat}
    (parse : model.IsParse words tree (model.bestScore words))
    (member : (place, node) ∈ tree.placed 0) (inner : node.isLeaf = false) :
    ∃ label, model.grammar.labels.id? node.label = some label ∧
      (model.pass words .nothing).posterior.marginal .closed label place
        (place + node.leaves.length) = 0 := by
  have wellFormed := accepts.sound.grammar
  have positive := accepts.length_pos .nothing
  have admits : (model.pass words .nothing).Admits .closed model.grammar.root 0 words.length
      tree (model.bestScore words) :=
    (Pass.admits_root_iff_isParse wellFormed rfl).mpr parse
  obtain ⟨label, outer, own, around, closed, -, -⟩ :=
    Pass.Surrounds.splits_of_mem_placed wellFormed rfl admits (.whole positive) member inner
  have known := closed.known wellFormed
  have through : model.bestScore words ∈
      model.scoresThrough words .closed label place (place + node.leaves.length) :=
    ⟨tree, parse, node, member, inner, closed.derives.label_eq, rfl, fun same => nomatch same⟩
  have same := ExactScore.le_antisymm
    (accepts.outside_add_inside_le known around.bounds.1 around.bounds.2 .closed)
    (Pass.le_outside_add_inside accepts.sound (accepts.nonpositive .nothing) rfl known
      positive through)
  have zero : (model.pass words .nothing).posterior.marginal .closed label place
      (place + node.leaves.length) = 0 := by
    rw [Pass.marginal_posterior, same]
    exact ExactScore.add_neg_self (accepts.isFinite_bestScore_iff.mpr possible)
  exact ⟨label, closed.derives.id?_label wellFormed, zero⟩

end Model.Accepts

namespace Parser

section

variable {σ : Type} [Score σ] {parser : Parser σ} {words : List String}

/-- A posterior that is returned is that of the coarse model. -/
theorem posterior_of_coarsePass {posterior : Posterior σ} {spent : Nat}
    (passed : parser.coarsePass words = .ok (some posterior, spent)) :
    (parser.coarse.pass words .nothing).taggingError? = none ∧
      posterior = (parser.coarse.pass words .nothing).posterior ∧
      Score.isImpossible posterior.total = false := by
  rcases coarsePass_eq_ok_some_iff.mp passed with ⟨accepted, possible, -, rfl⟩
  exact ⟨accepted, rfl, possible⟩

/-- Without a limit a posterior is returned if the sentence has a coarse parse. -/
theorem exists_coarsePass_of_unlimited (unlimited : parser.config.maxEdges = none)
    (accepted : (parser.coarse.pass words .nothing).taggingError? = none)
    (possible : Score.isImpossible
      (parser.coarse.pass words .nothing).total = false) :
    ∃ spent, parser.coarsePass words =
      .ok (some (parser.coarse.pass words .nothing).posterior, spent) := by
  exact ⟨_, coarsePass_eq_ok_some_iff.mpr ⟨accepted, possible,
    ⟨_, Config.charge_of_unlimited unlimited _ _, Config.charge_of_unlimited unlimited _ _⟩,
    rfl⟩⟩

end

variable {grammar : Grammar ExactScore} {lexicon : Lexicon ExactScore}
  {parser : Parser ExactScore} {words : List String}

/-- A sentence that has a coarse parse has a posterior, and its marginals are exact. -/
theorem marginal_exact (declared : grammar.IsDeclared)
    (isModel : Model.IsModelOf grammar lexicon parser.coarse)
    (nonpositive : lexicon.Nonpositive) (nonempty : words ≠ [])
    (parsable : (parser.coarse.parseScores words).Nonempty) :
    (parser.config.maxEdges = none →
      ∃ posterior spent, parser.coarsePass words = .ok (some posterior, spent)) ∧
    ∀ posterior spent, parser.coarsePass words = .ok (some posterior, spent) →
      IsGreatest (parser.coarse.parseScores words) posterior.total ∧
      (∀ stage, ∀ label < grammar.labels.size, ∀ start stop, start < stop →
        stop ≤ words.length →
        ∃ best,
          IsGreatest
            (insert impossible (parser.coarse.scoresThrough words stage label start stop))
            best ∧
          posterior.marginal stage label start stop = best + -posterior.total ∧
          posterior.marginal stage label start stop ≤ 0) ∧
      ∀ tree, parser.coarse.IsParse words tree posterior.total →
        ∀ place node, (place, node) ∈ tree.placed 0 → node.isLeaf = false →
          ∃ label, grammar.labels.id? node.label = some label ∧
            posterior.marginal .closed label place (place + node.leaves.length) = 0 := by
  have accepts := Model.accepts_of_isModelOf declared isModel nonpositive nonempty
  have possible : parser.coarse.bestScore words ≠ impossible := fun same =>
    parsable.ne_empty (accepts.parseScores_eq_empty_iff.mpr same)
  have isImpossible_iff :=
    ExactScore.isImpossible_iff_of_nonpos accepts.isBestOf_bestScore.nonpos
  obtain rfl := isModel.grammar_eq
  constructor
  · intro unlimited
    obtain ⟨spent, passed⟩ := exists_coarsePass_of_unlimited unlimited
      (accepts.taggings .nothing) (Bool.not_eq_true _ ▸ mt isImpossible_iff.mp possible)
    exact ⟨_, spent, passed⟩
  · intro posterior spent passed
    rcases posterior_of_coarsePass passed with ⟨-, rfl, -⟩
    refine ⟨accepts.isGreatest_parseScores possible, ?_, ?_⟩
    · intro stage label known start stop span bounded
      have through := accepts.isBestOf_scoresThrough known span bounded stage
      exact ⟨_, ExactScore.isGreatest_of_isBestOf through,
        Pass.marginal_posterior _ stage label start stop,
        accepts.marginal_nonpos possible known span bounded stage⟩
    · intro tree parse place node member inner
      exact accepts.marginal_eq_zero possible parse member inner

theorem marginal_exact_dogs_bark :
    ∃ posterior spent best,
      (exhaustive Sample.Exact.coarse).coarsePass ["dogs", "bark"] =
        .ok (some posterior, spent) ∧
      IsGreatest (Sample.Exact.coarse.parseScores ["dogs", "bark"]) posterior.total ∧
      IsGreatest
        (insert impossible
          (Sample.Exact.coarse.scoresThrough ["dogs", "bark"] .closed 2 0 1)) best ∧
      posterior.marginal .closed 2 0 1 = best + -posterior.total := by
  have isModel : Model.IsModelOf Sample.Exact.coarseGrammar
      (Sample.Exact.lexicon.project Refinement.coarseLabel).score
      (exhaustive Sample.Exact.coarse).coarse := Model.IsModelOf.sample_coarse
  have wellFormed := TableLexicon.wellFormed_of_isBuilt TableLexicon.isBuilt_sample
  obtain ⟨returned, exact⟩ := marginal_exact ⟨_, _, Grammar.project_sample⟩ isModel
    (TableLexicon.nonpositive_score (wellFormed.project Refinement.coarseLabel))
    (List.cons_ne_nil "dogs" ["bark"])
    ⟨.finite (-86 / 24), rfl,
      .node "ROOT" [.node "S"
        [.node "NP" [.node "N" [.leaf "dogs"]], .node "VP" [.node "V" [.leaf "bark"]]]],
      by decide +kernel, rfl, by decide +kernel⟩
  rcases returned rfl with ⟨posterior, spent, passed⟩
  rcases exact posterior spent passed with ⟨total, marginals, -⟩
  obtain ⟨best, greatest, marginal, -⟩ :=
    marginals .closed 2 (by decide +kernel) 0 1 (by decide) (by decide)
  exact ⟨posterior, spent, best, passed, total, greatest, marginal⟩

end Parser

end ChartParsing
