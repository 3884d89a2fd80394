import ChartParsing.Proofs.Chart.Cost
import ChartParsing.Proofs.Parser.Exhaustion
import ChartParsing.Proofs.Parser.Threshold

/-!
# The cost of parsing without pruning

Where no cell is pruned, the edges of a sentence are known beforehand from its length and
the numbers of binary rules.  The lowest threshold prunes nothing, but pays for the coarse
charts: an inside chart, and twice as much for an outside chart if there is a coarse parse.
A budget is exhausted exactly if it is below these edges
(`Parser.unpruned_exhausted_iff`).
-/

namespace ChartParsing

theorem Config.checkLength_of_le {σ : Type} {config : Config σ} {length : Nat}
    (within : ∀ longest, config.maxLength = some longest → length ≤ longest) :
    config.checkLength length = .ok () := by
  rw [checkLength]
  cases limited : config.maxLength with
  | none => rfl
  | some longest => exact if_neg (Nat.not_lt_of_le (within longest limited))

namespace Parser

variable {σ : Type} [Score σ] {parser : Parser σ} {words : List String}

/-! ## The edges of unpruned charts -/

/-- The edges of the coarse charts, in terms of one inside chart. -/
theorem coarseEdges_eq (wellFormed : parser.coarse.grammar.WellFormed) :
    parser.coarseEdges words =
      (if Score.isImpossible (parser.coarse.pass words .nothing).total then 1 else 3) *
        (parser.coarse.grammar.binary.length * splitCount words.length) := by
  unfold coarseEdges
  dsimp only
  rw [Pass.cost_of_nothing wellFormed, wellFormed.outsideCost_eq]
  split
  · rw [Nat.one_mul]
  · omega

theorem retryEdges_le (parser : Parser σ) (words : List String) :
    parser.retryEdges words ≤ (parser.fine.pass words .nothing).cost := by
  unfold retryEdges
  split
  · exact Nat.zero_le _
  · split
    · exact Nat.le_refl _
    · exact Nat.zero_le _

section

variable [Score.Thresholded σ] (lowest : parser.config.pruning = .below impossible)

include lowest

/-- The lowest threshold prunes nothing. -/
theorem firstPruned_of_lowest : parser.firstPruned words = .nothing := by
  cases noCoarse : Score.isImpossible (parser.coarse.pass words .nothing).total with
  | true => exact firstPruned_of_isImpossible lowest noCoarse
  | false =>
      rw [firstPruned_of_possible lowest noCoarse]
      exact Posterior.prunedBelow_eq_nothing _ _ (Or.inl rfl)

/-- Under the lowest threshold a second attempt would cost no more than the fine chart of
the first. -/
theorem edges_of_lowest (coarseWellFormed : parser.coarse.grammar.WellFormed)
    (fineWellFormed : parser.fine.grammar.WellFormed) :
    parser.attemptEdges words =
        ((if Score.isImpossible (parser.coarse.pass words .nothing).total then 1 else 3) *
          parser.coarse.grammar.binary.length + parser.fine.grammar.binary.length) *
            splitCount words.length ∧
      parser.retryEdges words ≤ parser.attemptEdges words := by
  have attempt := @attemptEdges_of_below _ _ parser words _ lowest
  rw [firstPruned_of_lowest lowest] at attempt
  constructor
  · rw [attempt, coarseEdges_eq coarseWellFormed, Pass.cost_of_nothing fineWellFormed,
      Nat.add_mul, Nat.mul_assoc]
  · rw [attempt]
    exact (retryEdges_le parser words).trans (Nat.le_add_left _ _)

end

/-! ## Answers -/

/-- A sentence that is not too long is parsed as if no length were too long. -/
theorem parse_of_within
    (within : ∀ longest, parser.config.maxLength = some longest → words.length ≤ longest) :
    parser.parse words =
      { parser with config := { parser.config with maxLength := none } }.parse words := by
  by_cases empty : words = []
  · subst empty
    rfl
  · rw [parse_of_ne_nil _ empty, parse_of_ne_nil _ empty, Config.checkLength_of_le within,
      Config.checkLength_of_unlimited rfl]
    rfl

/-- A model on its own either has a parse of a sentence or leaves the root of its chart
impossible. -/
theorem exists_coarseParse [Score.Lawful σ] {model : Model σ} (built : model.IsBuilt)
    (nonpositive : model.lexicon.Nonpositive) (nonempty : words ≠ []) :
    ∃ found?, (exhaustive model).parse words = .ok found? ∧
      found?.isSome = !Score.isImpossible (model.pass words .nothing).total := by
  have accepted : (model.pass words .nothing).taggingError? = none :=
    Pass.taggingError?_of_nonpositive nonpositive
  obtain ⟨found?, returned⟩ :=
    @Pass.exists_bestParse? _ _ _ (model.pass words .nothing) built accepted nonempty
  have parsed : (exhaustive model).parse words = .ok found? :=
    (parse_eq_of_disabled rfl nonempty accepted).trans returned
  refine ⟨found?, parsed, ?_⟩
  cases found? with
  | none => simp [Pass.bestParse?_eq_none_iff.mp returned]
  | some best => simp [(Pass.of_bestParse?_eq_some returned).2.2]

section

variable [Score.Lawful σ] (coarseBuilt : parser.coarse.IsBuilt)
  (fineBuilt : parser.fine.IsBuilt) (coarseNonpositive : parser.coarse.lexicon.Nonpositive)
  (fineNonpositive : parser.fine.lexicon.Nonpositive)

include coarseBuilt fineBuilt coarseNonpositive fineNonpositive

/-- Without a budget every sentence that is not too long has an answer. -/
theorem exists_answer
    (within : ∀ longest, parser.config.maxLength = some longest → words.length ≤ longest)
    (pruning : Pruning σ) :
    ∃ answer, ((parser.withPruning pruning).withBudget none).parse words = .ok answer := by
  rw [@parse_of_within _ _ ((parser.withPruning pruning).withBudget none) _ within]
  by_cases empty : words = []
  · subst empty
    exact ⟨none, rfl⟩
  have ready : Ready { parser with config := ⟨pruning, none, none⟩ } words :=
    ⟨coarseBuilt, fineBuilt, Pass.taggingError?_of_nonpositive coarseNonpositive,
      fun _ => Pass.taggingError?_of_nonpositive fineNonpositive, rfl, rfl, empty⟩
  obtain ⟨whole?, whole⟩ := ready.exists_bestParse? .nothing
  cases pruning with
  | disabled => exact ⟨whole?, ready.parse_disabled.trans whole⟩
  | below threshold =>
      obtain ⟨pruned?, pruned⟩ := ready.exists_bestParse? (parser.prunedAt words threshold)
      exact ⟨_, ready.parse_below whole pruned⟩

/-- Without pruning a budget is exhausted exactly if it is below the number of distinct
fine rules times the splits of the sentence.  With the lowest threshold the coarse rules
count as well, three times if there is a coarse parse and once if there is none. -/
theorem unpruned_exhausted_iff [Score.Thresholded σ]
    (within : ∀ longest, parser.config.maxLength = some longest → words.length ≤ longest)
    (max : Nat) :
    (((parser.withPruning .disabled).withBudget (some max)).parse words =
        .error (.budgetExhausted max) ↔
      max < parser.fine.grammar.binaryForms.card * splitCount words.length) ∧
    ∃ coarseParse?, (exhaustive parser.coarse).parse words = .ok coarseParse? ∧
      (((parser.withPruning (.below impossible)).withBudget (some max)).parse words =
          .error (.budgetExhausted max) ↔
        max < if coarseParse?.isSome then
            (3 * parser.coarse.grammar.binaryForms.card +
              parser.fine.grammar.binaryForms.card) * splitCount words.length
          else
            (parser.coarse.grammar.binaryForms.card +
              parser.fine.grammar.binaryForms.card) * splitCount words.length) := by
  rw [Grammar.card_binaryForms coarseBuilt.isDeclared,
    Grammar.card_binaryForms fineBuilt.isDeclared]
  have fineCost := Pass.cost_of_nothing fineBuilt.wellFormed words
  have answered := exists_answer coarseBuilt fineBuilt coarseNonpositive fineNonpositive within
  constructor
  · rcases answered .disabled with ⟨answer, answered⟩
    have edges := @edges_of_disabled _ _ (parser.withPruning .disabled) words rfl
    rw [parse_withBudget_exhausted_iff answered, edges.1, edges.2, fineCost]
    simp
  · rcases answered (.below impossible) with ⟨answer, answered⟩
    obtain ⟨attempt, retry⟩ := @edges_of_lowest _ _
      (parser.withPruning (.below impossible)) words _ rfl coarseBuilt.wellFormed
      fineBuilt.wellFormed
    have exhausted_iff := @parse_withBudget_exhausted_iff _ _ _ _ max _ answered
    rw [or_iff_left_of_imp fun second => second.trans_le retry, attempt] at exhausted_iff
    by_cases empty : words = []
    · subst empty
      refine ⟨none, rfl, exhausted_iff.trans ?_⟩
      simp [splitCount]
    · obtain ⟨coarseParse?, parsed, found⟩ :=
        exists_coarseParse coarseBuilt coarseNonpositive empty
      refine ⟨coarseParse?, parsed, exhausted_iff.trans ?_⟩
      rw [found]
      cases Score.isImpossible (parser.coarse.pass words .nothing).total <;> simp

end

/-- One split and one rule on either side: with a coarse parse four edges are needed, and
one without pruning. -/
theorem unpruned_exhausted_iff_dogs_bark :
    (((Sample.Exact.parser ⟨.disabled, some 2, none⟩).withPruning .disabled).withBudget
      (some 0)).parse ["dogs", "bark"] = .error (.budgetExhausted 0) ∧
    (((Sample.Exact.parser ⟨.disabled, some 2, none⟩).withPruning
      (.below impossible)).withBudget (some 3)).parse ["dogs", "bark"] =
        .error (.budgetExhausted 3) ∧
    (((Sample.Exact.parser ⟨.disabled, some 2, none⟩).withPruning
      (.below impossible)).withBudget (some 4)).parse ["dogs", "bark"] ≠
        .error (.budgetExhausted 4) := by
  have exhausted_iff := @unpruned_exhausted_iff _ _ (Sample.Exact.parser ⟨.disabled, some 2, none⟩)
    ["dogs", "bark"] _ Model.isBuilt_sample_coarse Model.isBuilt_sample_fine
    Model.nonpositive_sample_coarse Model.nonpositive_sample_fine _ (by decide)
  have coarseDirect : ((exhaustive Sample.Exact.coarse).parse ["dogs", "bark"]).map
      (Option.map ScoredParse.usedFallback) = .ok (some false) := by
    decide +kernel
  rcases exists_of_map_eq_ok coarseDirect with ⟨coarseParse, coarseFound, -⟩
  have lowest_iff (max : Nat) : (((Sample.Exact.parser ⟨.disabled, some 2, none⟩).withPruning
      (.below impossible)).withBudget (some max)).parse ["dogs", "bark"] =
        .error (.budgetExhausted max) ↔ max < 4 := by
    obtain ⟨coarseParse?, parsed, iff⟩ := (exhausted_iff max).2
    obtain rfl := Except.ok.inj (parsed.symm.trans coarseFound)
    have edges : (3 * Sample.Exact.coarse.grammar.binaryForms.card +
        Sample.Exact.fine.grammar.binaryForms.card) * splitCount 2 = 4 := by
      decide +kernel
    exact edges ▸ iff
  refine ⟨(exhausted_iff 0).1.mpr ?_, (lowest_iff 3).mpr (by decide), ?_⟩
  · decide +kernel
  · exact mt (lowest_iff 4).mp (by decide)

end Parser

end ChartParsing
