import ChartParsing.Proofs.Chart.OutsideBest
import ChartParsing.Proofs.Parser.Admissible
import ChartParsing.Proofs.Parser.Unlimited
import ChartParsing.Proofs.Score.ExactLaws

/-!
# Thresholds

A lower threshold prunes less, so a parse that is found at the first attempt stays within
reach when the threshold is lowered (`Parser.threshold_monotone`).  A threshold below all
scores, or no value at all, prunes nothing, and the result is that of the whole fine chart.
A threshold above zero prunes the root itself, whose marginal is at most zero, and every
sentence with a coarse parse is parsed again.

Addition need not be exact.  It is to be lawful (`Score.Lawful`): monotone, with no score
raised by adding zero to it, and impossible where one side is.  Thresholds may be any
values, which `Score.Thresholded` is for.
-/

namespace ChartParsing

variable {σ : Type} [Score σ]

/-! ## What a threshold prunes -/

namespace Posterior

variable [Score.Thresholded σ] (posterior : Posterior σ) (toCoarse : Array LabelId)

/-- A lower threshold prunes less. -/
theorem prunedBelow_within {low high : σ} (le : low ≤ high) :
    (posterior.prunedBelow low toCoarse).Within (posterior.prunedBelow high toCoarse) := by
  intro stage label start stop dropped
  exact decide_eq_true (Score.Thresholded.lt_of_lt_of_le (of_decide_eq_true dropped) le)

/-- A threshold that no score is below prunes nothing. -/
theorem prunedBelow_eq_nothing {threshold : σ}
    (lowest : threshold = impossible ∨ Score.isUndefined threshold = true) :
    posterior.prunedBelow threshold toCoarse = .nothing := by
  have never (score : σ) : ¬score < threshold := by
    rcases lowest with rfl | undefined
    · exact Score.Thresholded.not_lt_impossible
    · exact Score.Thresholded.not_lt_of_isUndefined undefined
  funext stage label start stop
  exact decide_eq_false (never _)

end Posterior

namespace Pass

variable [Score.Lawful σ] {pass : Pass σ}

/-- Nothing around the root is positive. -/
theorem outside_root_nonpos (built : pass.model.IsBuilt) (nonempty : pass.words ≠ []) :
    pass.outside.score .built pass.model.grammar.root 0 pass.length ≤ 0 := by
  have several : 0 < pass.length := List.length_pos_of_ne_nil nonempty
  have rooted := built.wellFormed.rooted
  have bounded := built.bounded
  have closedNonpos {label : LabelId} (known : label < pass.model.grammar.labels.size) :
      pass.outside.score .closed label 0 pass.length ≤ 0 := by
    rw [closed_outside_whole known several]
    split
    · exact Score.Lawful.zero_nonpos
    · exact Score.impossible_nonpos
  rw [outside, pass.model.built_outside _ _ several (Nat.le_refl _) rooted]
  refine (OutsideChart.isBestOf_bestOpening ?_).nonpos
  rintro score (⟨entry, listed, rfl⟩ | ⟨-, rfl⟩)
  · have member := bounded.mem_byChild rooted listed
    exact Score.add_nonpos (bounded.nonpos entry.2 member)
      (closedNonpos (bounded.known entry.2 member).1)
  · exact closedNonpos rooted

/-- A threshold above zero prunes the root. -/
theorem prunedBelow_root [Score.Thresholded σ] (built : pass.model.IsBuilt)
    (accepted : pass.taggingError? = none) (nonempty : pass.words ≠ [])
    (possible : Score.isImpossible pass.total = false) {threshold : σ}
    (positive : 0 < threshold) {toCoarse : Array LabelId} {root : LabelId}
    (mapped : toCoarse.getD root 0 = pass.model.grammar.root) :
    pass.posterior.prunedBelow threshold toCoarse .closed root 0 pass.length = true := by
  have nonpos : pass.posterior.marginal .closed pass.model.grammar.root 0 pass.length ≤ 0 :=
    Score.Thresholded.neg_add_add_nonpos (total_nonpos_of_isBuilt built accepted nonempty)
      possible (outside_root_nonpos built nonempty)
  rw [Posterior.prunedBelow, mapped]
  exact decide_eq_true (Score.Thresholded.lt_of_le_of_lt nonpos positive)

/-- A pass that prunes the root finds nothing. -/
theorem bestParse?_of_root_pruned (built : pass.model.IsBuilt) (nonempty : pass.words ≠ [])
    (dropped : pass.pruned .closed pass.model.grammar.root 0 pass.length = true) :
    pass.bestParse? = .ok none := by
  have several : 0 < pass.length := List.length_pos_of_ne_nil nonempty
  rw [bestParse?_eq_none_iff, total, score_eq_impossible_of_pruned built.wellFormed.rooted several
    (Nat.le_refl _) dropped]
  exact decide_eq_true (Score.le_refl Score.impossible_nonpos)

end Pass

namespace Parser

variable [Score.Lawful σ] {parser : Parser σ} {words : List String}

/-- What two runs of a parser without limits have in common: the models have been built, the
taggings are accepted, and the sentence has words. -/
structure Ready (parser : Parser σ) (words : List String) : Prop where
  coarseBuilt : parser.coarse.IsBuilt
  fineBuilt : parser.fine.IsBuilt
  coarseAccepted : (parser.coarse.pass words .nothing).taggingError? = none
  fineAccepted : ∀ pruned, (parser.fine.pass words pruned).taggingError? = none
  maxLength : parser.config.maxLength = none
  maxEdges : parser.config.maxEdges = none
  nonempty : words ≠ []

namespace Ready

variable (ready : parser.Ready words)

include ready

theorem exists_bestParse? (pruned : Pruned) :
    ∃ found?, (parser.fine.pass words pruned).bestParse? = .ok found? :=
  Pass.exists_bestParse? ready.fineBuilt (ready.fineAccepted pruned) ready.nonempty

omit [Score.Lawful σ] in
theorem config_withPruning (pruning : Pruning σ) :
    (parser.withPruning pruning).config = ⟨pruning, none, none⟩ := by
  change Config.mk pruning parser.config.maxLength parser.config.maxEdges = _
  rw [ready.maxLength, ready.maxEdges]

omit [Score.Lawful σ] in
/-- Without pruning the whole chart is all there is. -/
theorem parse_disabled :
    (parser.withPruning .disabled).parse words = (parser.fine.pass words .nothing).bestParse? :=
  parse_eq_of_disabled (ready.config_withPruning .disabled) ready.nonempty
    (ready.fineAccepted .nothing)

omit [Score.Lawful σ] in
/-- A run with pruning, in terms of the passes that it makes. -/
theorem parse_below {threshold : σ} {whole? pruned? : Option (ScoredParse σ)}
    (whole : (parser.fine.pass words .nothing).bestParse? = .ok whole?)
    (pruned :
      (parser.fine.pass words (parser.prunedAt words threshold)).bestParse? = .ok pruned?) :
    (parser.withPruning (.below threshold)).parse words = .ok
      (if Score.isImpossible (parser.coarse.pass words .nothing).total then whole?
        else pruned?.or (whole?.map ScoredParse.retried)) :=
  @parse_eq_of_below _ _ (parser.withPruning (.below threshold)) _ _
    (ready.config_withPruning (.below threshold)) ready.nonempty ready.coarseAccepted
    ready.fineAccepted _ _ whole pruned

variable [Score.Thresholded σ]

/-- Lowering a threshold keeps a first attempt successful, and loses no score. -/
theorem exists_parse_of_le {low high : σ} (le : low ≤ high) {found : ScoredParse σ}
    (parsed : (parser.withPruning (.below high)).parse words = .ok (some found))
    (direct : found.usedFallback = false) :
    ∃ better, (parser.withPruning (.below low)).parse words = .ok (some better) ∧
      better.usedFallback = false ∧ found.score ≤ better.score := by
  obtain ⟨whole?, whole⟩ := ready.exists_bestParse? .nothing
  obtain ⟨high?, highPass⟩ := ready.exists_bestParse? (parser.prunedAt words high)
  obtain ⟨low?, lowPass⟩ := ready.exists_bestParse? (parser.prunedAt words low)
  rw [ready.parse_below whole highPass] at parsed
  rw [ready.parse_below whole lowPass]
  have parsed := Except.ok.inj parsed
  split at parsed
  · rename_i noCoarse
    subst parsed
    rcases Pass.of_bestParse?_eq_some whole with ⟨score, -, -⟩
    refine ⟨found, by rw [if_pos noCoarse], direct, ?_⟩
    rw [score]
    exact Score.le_refl (Pass.total_nonpos_of_isBuilt ready.fineBuilt
      (ready.fineAccepted .nothing) ready.nonempty)
  · rename_i coarsePossible
    cases high? with
    | none =>
        -- What the whole chart holds has been marked.
        rcases Option.map_eq_some_iff.mp parsed with ⟨best, -, rfl⟩
        cases direct
    | some first =>
        obtain rfl := Option.some.inj parsed
        obtain ⟨better, rfl, better_le⟩ := @Pass.exists_best_of_prune _ _ _
          (parser.fine.pass words (parser.prunedAt words low)) ready.fineBuilt
          (ready.fineAccepted _) ready.nonempty _ (Posterior.prunedBelow_within _ _ le) _ highPass
          _ lowPass
        rcases Pass.of_bestParse?_eq_some lowPass with ⟨-, betterDirect, -⟩
        exact ⟨better, by rw [if_neg coarsePossible]; rfl, betterDirect, better_le⟩

omit [Score.Lawful σ] [Score.Thresholded σ] in
/-- Where nothing is pruned, the whole chart is all there is. -/
theorem parse_below_eq_of_nothing {threshold : σ} {whole? : Option (ScoredParse σ)}
    (whole : (parser.fine.pass words .nothing).bestParse? = .ok whole?)
    (nothing : parser.prunedAt words threshold = .nothing) :
    (parser.withPruning (.below threshold)).parse words = .ok whole? := by
  rw [ready.parse_below whole (by rw [nothing]; exact whole)]
  split
  · rfl
  · cases whole? <;> rfl

/-- Above zero the root is pruned, and the sentence parsed again. -/
theorem parse_below_eq_of_pos
    (mapped : parser.toCoarse.getD parser.fine.grammar.root 0 = parser.coarse.grammar.root)
    (coarsePossible : Score.isImpossible (parser.coarse.pass words .nothing).total = false)
    {threshold : σ} (positive : 0 < threshold) {whole? : Option (ScoredParse σ)}
    (whole : (parser.fine.pass words .nothing).bestParse? = .ok whole?) :
    (parser.withPruning (.below threshold)).parse words =
      .ok (whole?.map ScoredParse.retried) := by
  have dropped := Pass.prunedBelow_root ready.coarseBuilt ready.coarseAccepted ready.nonempty
    coarsePossible positive mapped
  have lost := @Pass.bestParse?_of_root_pruned _ _ _
    (parser.fine.pass words (parser.prunedAt words threshold)) ready.fineBuilt ready.nonempty
    dropped
  rw [ready.parse_below whole lost, if_neg (by rw [coarsePossible]; exact Bool.false_ne_true)]
  rfl

end Ready

/-- A parser without limits returns a result under every threshold.  A first attempt that
succeeds under a threshold succeeds under every lower one, with a parse that scores at least
as well.  A threshold below all scores, or without a value, leaves the result as it is
without pruning; one above zero marks it as that of a fallback, if there is a coarse
parse. -/
theorem threshold_monotone [Score.Thresholded σ] {coarse fine : Model σ}
    {rename : String → String} {pruning : Pruning σ}
    (coarseBuilt : coarse.IsBuilt) (fineBuilt : fine.IsBuilt)
    (coarseNonpositive : coarse.lexicon.Nonpositive)
    (fineNonpositive : fine.lexicon.Nonpositive)
    (made : ofModels coarse fine rename ⟨pruning, none, none⟩ = .ok parser)
    (words : List String) :
    ∃ whole? : Option (ScoredParse σ),
      (parser.withPruning .disabled).parse words = .ok whole? ∧
      (∀ best, whole? = some best → best.usedFallback = false) ∧
      (∀ low high found, low ≤ high →
        (parser.withPruning (.below high)).parse words = .ok (some found) →
        found.usedFallback = false →
        ∃ better, (parser.withPruning (.below low)).parse words = .ok (some better) ∧
          better.usedFallback = false ∧ found.score ≤ better.score) ∧
      (∀ threshold, threshold = impossible ∨ Score.isUndefined threshold = true →
        (parser.withPruning (.below threshold)).parse words = .ok whole?) ∧
      ∀ threshold coarseParse, 0 < threshold →
        (exhaustive coarse).parse words = .ok (some coarseParse) →
        (parser.withPruning (.below threshold)).parse words =
          .ok (whole?.map ({ · with usedFallback := true })) := by
  obtain ⟨ids, -, mapped, rfl⟩ := ofModels_eq_ok_iff.mp made
  by_cases empty : words = []
  · subst empty
    refine ⟨none, rfl, ?_, ?_, fun _ _ => rfl, fun _ _ _ _ => rfl⟩
    · rintro best ⟨⟩
    · rintro low high found - ⟨⟩
  have coarseAccepted : (coarse.pass words .nothing).taggingError? = none :=
    Pass.taggingError?_of_nonpositive coarseNonpositive
  have ready : Ready ⟨coarse, fine, ids.toArray, ⟨pruning, none, none⟩⟩ words :=
    ⟨coarseBuilt, fineBuilt, coarseAccepted,
      fun _ => Pass.taggingError?_of_nonpositive fineNonpositive, rfl, rfl, empty⟩
  obtain ⟨whole?, whole⟩ := ready.exists_bestParse? .nothing
  refine ⟨whole?, ready.parse_disabled.trans whole, ?direct, ?monotone, ?lowest, ?highest⟩
  case direct =>
    rintro best rfl
    exact (Pass.of_bestParse?_eq_some whole).2.1
  case monotone =>
    intro low high found le parsed direct
    exact ready.exists_parse_of_le le parsed direct
  case lowest =>
    intro threshold lowest
    exact ready.parse_below_eq_of_nothing whole (Posterior.prunedBelow_eq_nothing _ _ lowest)
  case highest =>
    intro threshold coarseParse positive coarseParsed
    rw [parse_eq_of_disabled rfl empty coarseAccepted] at coarseParsed
    have coarsePossible := (Pass.of_bestParse?_eq_some coarseParsed).2.2
    exact ready.parse_below_eq_of_pos mapped coarsePossible positive whole

/-- The sample is parsed under a threshold just below zero, under a lower one, under none at
all, and under one that prunes the root. -/
theorem threshold_monotone_dogs_bark :
    ∃ whole found better,
      ((Sample.Exact.parser ⟨.disabled, none, none⟩).withPruning .disabled).parse
        ["dogs", "bark"] = .ok (some whole) ∧
      ((Sample.Exact.parser ⟨.disabled, none, none⟩).withPruning
        (.below (.finite (mkRat (-1) 8)))).parse ["dogs", "bark"] = .ok (some found) ∧
      ((Sample.Exact.parser ⟨.disabled, none, none⟩).withPruning
        (.below (.finite (mkRat (-1) 1)))).parse ["dogs", "bark"] = .ok (some better) ∧
      found.score ≤ better.score ∧
      ((Sample.Exact.parser ⟨.disabled, none, none⟩).withPruning (.below .undefined)).parse
        ["dogs", "bark"] = .ok (some whole) ∧
      ((Sample.Exact.parser ⟨.disabled, none, none⟩).withPruning
        (.below (.finite (mkRat 1 1)))).parse ["dogs", "bark"] =
          .ok (some { whole with usedFallback := true }) := by
  obtain ⟨whole?, whole, -, monotone, lowest, highest⟩ := threshold_monotone
    Model.isBuilt_sample_coarse Model.isBuilt_sample_fine Model.nonpositive_sample_coarse
    Model.nonpositive_sample_fine (ofModels_sample ⟨.disabled, none, none⟩) ["dogs", "bark"]
  have wholeDirect : (((Sample.Exact.parser ⟨.disabled, none, none⟩).withPruning
      .disabled).parse ["dogs", "bark"]).map (Option.map ScoredParse.usedFallback) =
        .ok (some false) := by
    decide +kernel
  have prunedDirect : (((Sample.Exact.parser ⟨.disabled, none, none⟩).withPruning
      (.below (.finite (mkRat (-1) 8)))).parse ["dogs", "bark"]).map
        (Option.map ScoredParse.usedFallback) = .ok (some false) := by
    decide +kernel
  have coarseDirect : ((exhaustive Sample.Exact.coarse).parse ["dogs", "bark"]).map
      (Option.map ScoredParse.usedFallback) = .ok (some false) := by
    decide +kernel
  rcases exists_of_map_eq_ok wholeDirect with ⟨best, bestFound, -⟩
  rcases exists_of_map_eq_ok prunedDirect with ⟨found, prunedFound, attempt⟩
  rcases exists_of_map_eq_ok coarseDirect with ⟨coarseParse, coarseFound, -⟩
  obtain rfl := Except.ok.inj (whole.symm.trans bestFound)
  obtain ⟨better, betterFound, -, le⟩ :=
    monotone (.finite (mkRat (-1) 1)) _ found (by decide +kernel) prunedFound attempt
  exact ⟨best, found, better, whole, prunedFound, betterFound, le, lowest _ (Or.inr rfl),
    highest _ coarseParse (by decide +kernel) coarseFound⟩

end Parser

end ChartParsing
