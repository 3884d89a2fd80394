import ChartParsing.Proofs.Parser.Genuine
import ChartParsing.Sample

/-!
# The budget of a sentence

The edges of a sentence are charged to one budget, pass after pass, up to the first
attempt at a parse.  The pass that tries again without pruning starts with the whole
budget: `Parser.budget_per_attempt` bounds the two on their own, and
`Parser.exists_parse_over_budget` has them exceed the budget together.
-/

namespace ChartParsing.Parser

variable {σ : Type} [Score σ]

/-! ## The edges of the passes -/

/-- The edges of the coarse charts of a sentence.  There is no outside chart where there
is no coarse parse. -/
def coarseEdges (parser : Parser σ) (words : List String) : Nat :=
  let pass := parser.coarse.pass words .nothing
  if Score.isImpossible pass.total then pass.cost
  else pass.cost + parser.coarse.grammar.outsideCost words.length

/-- The cells that the first attempt at a sentence leaves empty. -/
def firstPruned (parser : Parser σ) (words : List String) : Pruned :=
  let pass := parser.coarse.pass words .nothing
  match parser.config.pruning with
  | .disabled => .nothing
  | .below threshold =>
      if Score.isImpossible pass.total then .nothing
      else pass.posterior.prunedBelow threshold parser.toCoarse

/-- The edges of the first attempt at a sentence, those of the coarse charts among
them. -/
def attemptEdges (parser : Parser σ) (words : List String) : Nat :=
  let edges := (parser.fine.pass words (parser.firstPruned words)).cost
  match parser.config.pruning with
  | .disabled => edges
  | .below _ => parser.coarseEdges words + edges

/-- The edges of the second attempt at a sentence, which is made where there is a coarse
parse and pruning has lost every fine one. -/
def retryEdges (parser : Parser σ) (words : List String) : Nat :=
  match parser.config.pruning with
  | .disabled => 0
  | .below _ =>
      if Score.isImpossible (parser.coarse.pass words .nothing).total = false ∧
          Score.isImpossible
            (parser.fine.pass words (parser.firstPruned words)).total = true then
        (parser.fine.pass words .nothing).cost
      else 0

variable {parser : Parser σ} {words : List String}

section

variable {threshold : σ} (pruning : parser.config.pruning = .below threshold)

include pruning

theorem attemptEdges_of_below :
    parser.attemptEdges words = parser.coarseEdges words +
      (parser.fine.pass words (parser.firstPruned words)).cost := by
  unfold attemptEdges
  rw [pruning]

theorem firstPruned_of_isImpossible
    (noCoarse : Score.isImpossible (parser.coarse.pass words .nothing).total = true) :
    parser.firstPruned words = .nothing := by
  unfold firstPruned
  rw [pruning]
  exact if_pos noCoarse

theorem firstPruned_of_possible
    (possible : Score.isImpossible (parser.coarse.pass words .nothing).total = false) :
    parser.firstPruned words =
      (parser.coarse.pass words .nothing).posterior.prunedBelow threshold parser.toCoarse := by
  unfold firstPruned
  rw [pruning]
  exact if_neg (Bool.eq_false_iff.mp possible)

theorem retryEdges_of_retried
    (possible : Score.isImpossible (parser.coarse.pass words .nothing).total = false)
    (lost : Score.isImpossible
      (parser.fine.pass words (parser.firstPruned words)).total = true) :
    parser.retryEdges words = (parser.fine.pass words .nothing).cost := by
  unfold retryEdges
  rw [pruning]
  exact if_pos ⟨possible, lost⟩

theorem retryEdges_of_not_retried
    (direct : Score.isImpossible (parser.coarse.pass words .nothing).total = false →
      Score.isImpossible
        (parser.fine.pass words (parser.firstPruned words)).total = false) :
    parser.retryEdges words = 0 := by
  unfold retryEdges
  rw [pruning]
  exact if_neg fun ⟨possible, lost⟩ =>
    Bool.false_ne_true ((direct possible).symm.trans lost)

end

theorem edges_of_disabled (disabled : parser.config.pruning = .disabled) :
    parser.attemptEdges words = (parser.fine.pass words .nothing).cost ∧
      parser.retryEdges words = 0 := by
  unfold attemptEdges retryEdges firstPruned
  rw [disabled]
  exact ⟨rfl, rfl⟩

/-! ## What is charged -/

/-- After the coarse pass, the edges of the coarse charts have been spent. -/
theorem spent_of_coarsePass {posterior? : Option (Posterior σ)} {spent : Nat}
    (passed : parser.coarsePass words = .ok (posterior?, spent)) :
    spent = parser.coarseEdges words := by
  unfold coarseEdges
  dsimp only
  cases posterior? with
  | none =>
      rcases coarsePass_eq_ok_none_iff.mp passed with ⟨-, charged, noCoarse⟩
      rw [if_pos noCoarse, (Config.of_charge_eq_ok charged).1, Nat.zero_add]
  | some posterior =>
      obtain ⟨-, possible, ⟨insideSpent, insideCharged, outsideCharged⟩, -⟩ :=
        coarsePass_eq_ok_some_iff.mp passed
      rw [if_neg (Bool.eq_false_iff.mp possible), (Config.of_charge_eq_ok outsideCharged).1,
        (Config.of_charge_eq_ok insideCharged).1, Nat.zero_add]

/-- A coarse pass that exhausts the budget takes more edges than it allows. -/
theorem lt_coarseEdges_of_exhausted {max : Nat}
    (failed : parser.coarsePass words = .error (.budgetExhausted max)) :
    parser.config.maxEdges = some max ∧ max < parser.coarseEdges words := by
  rcases coarsePass_eq_error_cases failed with found | ⟨limit, limited, same, exceeded⟩
  · obtain ⟨_, _, _, _, same⟩ := Pass.isTaggingError_of_taggingError? found
    cases same
  · cases same
    exact ⟨limited, exceeded⟩

/-- A fine pass that exhausts the budget takes more edges than were left. -/
theorem lt_cost_of_exhausted {pruned : Pruned} {spent max : Nat}
    (failed : parser.finePass words pruned spent = .error (.budgetExhausted max)) :
    parser.config.maxEdges = some max ∧
      max < spent + (parser.fine.pass words pruned).cost := by
  rcases finePass_eq_error_cases failed with found | ⟨limit, limited, same, exceeded⟩ |
    ⟨-, failed⟩
  · obtain ⟨_, _, _, _, same⟩ := Pass.isTaggingError_of_taggingError? found
    cases same
  · cases same
    exact ⟨limited, exceeded⟩
  · obtain ⟨_, _, _, same⟩ := Pass.exists_missing_of_bestParse? failed
    cases same

/-! ## The budget of each attempt -/

theorem edges_nil (parser : Parser σ) :
    parser.attemptEdges [] = 0 ∧ parser.retryEdges [] = 0 := by
  cases pruning : parser.config.pruning with
  | disabled => exact edges_of_disabled pruning
  | below threshold =>
      have noCoarse : parser.coarseEdges [] = 0 := by
        unfold coarseEdges
        dsimp only
        split <;> rfl
      constructor
      · rw [attemptEdges_of_below pruning, noCoarse]
        rfl
      · unfold retryEdges
        rw [pruning]
        dsimp only
        split <;> rfl

section

variable {max : Nat} {result : Option (ScoredParse σ)}

/-- A fine pass that is made keeps to the budget. -/
theorem cost_le_of_finePass (limited : parser.config.maxEdges = some max) {pruned : Pruned}
    {spent : Nat} (passed : parser.finePass words pruned spent = .ok result) :
    spent + (parser.fine.pass words pruned).cost ≤ max := by
  rcases finePass_eq_ok_iff.mp passed with ⟨-, ⟨total, charged⟩, -⟩
  exact (Config.of_charge_eq_ok charged).2 max limited

/-- With pruning, each attempt keeps to the budget, and a parse that is not marked comes
from the only attempt. -/
theorem edges_le_of_attempted (limited : parser.config.maxEdges = some max) {threshold : σ}
    (pruning : parser.config.pruning = .below threshold)
    (attempted : parser.Attempted words threshold result) :
    parser.attemptEdges words ≤ max ∧ parser.retryEdges words ≤ max ∧
      ∀ parse, result = some parse → parse.usedFallback = false →
        parser.retryEdges words = 0 := by
  rw [attemptEdges_of_below pruning]
  cases attempted with
  | unpruned coarsePassed finePassed =>
      rcases coarsePass_eq_ok_none_iff.mp coarsePassed with ⟨-, -, noCoarse⟩
      have once : parser.retryEdges words = 0 :=
        retryEdges_of_not_retried pruning fun possible =>
          absurd (possible.symm.trans noCoarse) Bool.false_ne_true
      rw [firstPruned_of_isImpossible pruning noCoarse, ← spent_of_coarsePass coarsePassed,
        once]
      exact ⟨cost_le_of_finePass limited finePassed, Nat.zero_le max, fun _ _ _ => rfl⟩
  | pruned coarsePassed finePassed =>
      obtain ⟨-, possible, -, rfl⟩ := coarsePass_eq_ok_some_iff.mp coarsePassed
      rw [← firstPruned_of_possible pruning possible] at finePassed
      rcases finePass_eq_ok_iff.mp finePassed with ⟨-, -, returned⟩
      rcases Pass.of_bestParse?_eq_some returned with ⟨-, -, kept⟩
      rw [retryEdges_of_not_retried pruning fun _ => kept, ← spent_of_coarsePass coarsePassed]
      exact ⟨cost_le_of_finePass limited finePassed, Nat.zero_le max, fun _ _ _ => rfl⟩
  | retried coarsePassed finePassed exhausted =>
      obtain ⟨-, possible, -, rfl⟩ := coarsePass_eq_ok_some_iff.mp coarsePassed
      rw [← firstPruned_of_possible pruning possible] at finePassed
      rcases finePass_eq_ok_iff.mp finePassed with ⟨-, -, returned⟩
      have again := cost_le_of_finePass limited exhausted
      rw [Nat.zero_add] at again
      rw [retryEdges_of_retried pruning possible (Pass.bestParse?_eq_none_iff.mp returned),
        ← spent_of_coarsePass coarsePassed]
      refine ⟨cost_le_of_finePass limited finePassed, again, ?_⟩
      intro parse marked direct
      rcases Option.map_eq_some_iff.mp marked with ⟨found, -, rfl⟩
      cases direct

/-- Whoever gets an answer has kept to the budget with each attempt. -/
theorem edges_le_of_parse_eq_ok (limited : parser.config.maxEdges = some max)
    (parsed : parser.parse words = .ok result) :
    parser.attemptEdges words ≤ max ∧ parser.retryEdges words ≤ max ∧
      ∀ parse, result = some parse → parse.usedFallback = false →
        parser.retryEdges words = 0 := by
  by_cases empty : words = []
  · subst empty
    rcases edges_nil parser with ⟨attempt, retry⟩
    rw [attempt, retry]
    exact ⟨Nat.zero_le max, Nat.zero_le max, fun _ _ _ => rfl⟩
  rw [parse_of_ne_nil parser empty] at parsed
  rcases bind_eq_ok_iff.mp parsed with ⟨-, -, parsed⟩
  cases pruning : parser.config.pruning with
  | disabled =>
      rw [pruning] at parsed
      have only := cost_le_of_finePass limited parsed
      rw [Nat.zero_add, ← (edges_of_disabled pruning).1] at only
      rw [(edges_of_disabled pruning).2]
      exact ⟨only, Nat.zero_le max, fun _ _ _ => rfl⟩
  | below threshold =>
      rw [pruning] at parsed
      exact edges_le_of_attempted limited pruning (parsePruned_eq_ok_iff.mp parsed)

/-- With pruning, a budget that is exhausted is too small for one of the attempts. -/
theorem lt_edges_of_parsePruned_exhausted {threshold : σ}
    (pruning : parser.config.pruning = .below threshold)
    (failed : parser.parsePruned words threshold = .error (.budgetExhausted max)) :
    parser.config.maxEdges = some max ∧
      (max < parser.attemptEdges words ∨ max < parser.retryEdges words) := by
  rw [attemptEdges_of_below pruning]
  rcases bind_eq_error_iff.mp failed with failed | ⟨⟨posterior?, spent⟩, passed, failed⟩
  · rcases lt_coarseEdges_of_exhausted failed with ⟨limited, exceeded⟩
    exact ⟨limited, Or.inl (Nat.lt_add_right _ exceeded)⟩
  rw [← spent_of_coarsePass passed]
  cases posterior? with
  | none =>
      rcases coarsePass_eq_ok_none_iff.mp passed with ⟨-, -, noCoarse⟩
      rcases lt_cost_of_exhausted failed with ⟨limited, exceeded⟩
      rw [firstPruned_of_isImpossible pruning noCoarse]
      exact ⟨limited, Or.inl exceeded⟩
  | some posterior =>
      obtain ⟨-, possible, -, rfl⟩ := coarsePass_eq_ok_some_iff.mp passed
      dsimp only at failed
      rw [← firstPruned_of_possible pruning possible] at failed
      rcases bind_eq_error_iff.mp failed with failed | ⟨attempt, finePassed, failed⟩
      · rcases lt_cost_of_exhausted failed with ⟨limited, exceeded⟩
        exact ⟨limited, Or.inl exceeded⟩
      cases attempt with
      | some parse => cases failed
      | none =>
          rcases finePass_eq_ok_iff.mp finePassed with ⟨-, -, returned⟩
          rw [retryEdges_of_retried pruning possible
            (Pass.bestParse?_eq_none_iff.mp returned)]
          rcases bind_eq_error_iff.mp failed with failed | ⟨_, -, failed⟩
          · rcases lt_cost_of_exhausted failed with ⟨limited, exceeded⟩
            rw [Nat.zero_add] at exceeded
            exact ⟨limited, Or.inr exceeded⟩
          · cases failed

/-- A budget that is exhausted is too small for one of the attempts. -/
theorem lt_edges_of_parse_exhausted
    (failed : parser.parse words = .error (.budgetExhausted max)) :
    parser.config.maxEdges = some max ∧
      (max < parser.attemptEdges words ∨ max < parser.retryEdges words) := by
  by_cases empty : words = []
  · subst empty
    cases failed
  rw [parse_of_ne_nil parser empty] at failed
  rcases bind_eq_error_iff.mp failed with failed | ⟨_, -, failed⟩
  · rcases Config.exists_max_of_checkLength failed with ⟨longest, -, same⟩
    cases same
  cases pruning : parser.config.pruning with
  | disabled =>
      rw [pruning] at failed
      rcases lt_cost_of_exhausted failed with ⟨limited, exceeded⟩
      rw [Nat.zero_add] at exceeded
      rw [(edges_of_disabled pruning).1]
      exact ⟨limited, Or.inl exceeded⟩
  | below threshold =>
      rw [pruning] at failed
      exact lt_edges_of_parsePruned_exhausted pruning failed

end

/-! ## A budget that is large enough -/

/-- The parser without a budget. -/
abbrev unlimited (parser : Parser σ) : Parser σ :=
  { parser with config := { parser.config with maxEdges := none } }

section

variable {max : Nat} (limited : parser.config.maxEdges = some max)

include limited

/-- A fine pass for which enough is left of the budget is made as without one. -/
theorem finePass_unlimited {pruned : Pruned} {spent : Nat}
    (enough : spent + (parser.fine.pass words pruned).cost ≤ max) :
    parser.finePass words pruned spent = parser.unlimited.finePass words pruned spent := by
  unfold finePass
  dsimp only
  rw [Config.charge_of_le limited enough, Config.charge_of_unlimited rfl]

/-- A coarse pass for which the budget is large enough is made as without one. -/
theorem coarsePass_unlimited (enough : parser.coarseEdges words ≤ max) :
    parser.coarsePass words = parser.unlimited.coarsePass words := by
  unfold coarseEdges at enough
  unfold coarsePass
  dsimp only at enough ⊢
  refine bind_congr fun _ => ?_
  by_cases noCoarse : Score.isImpossible (parser.coarse.pass words .nothing).total = true
  · rw [if_pos noCoarse] at enough
    rw [Config.charge_of_le limited (Nat.zero_add _ ▸ enough), Config.charge_of_unlimited rfl]
    exact (if_pos noCoarse).trans (if_pos noCoarse).symm
  · rw [if_neg noCoarse] at enough
    have insideEnough : 0 + (parser.coarse.pass words .nothing).cost ≤ max := by omega
    rw [Config.charge_of_le limited insideEnough, Config.charge_of_unlimited rfl]
    refine (if_neg noCoarse).trans (Eq.trans ?_ (if_neg noCoarse).symm)
    rw [Config.charge_of_le limited (Nat.zero_add _ ▸ enough), Config.charge_of_unlimited rfl]

/-- With a budget that is large enough for each attempt, pruning goes as without one. -/
theorem parsePruned_unlimited {threshold : σ}
    (pruning : parser.config.pruning = .below threshold)
    (attempt : parser.attemptEdges words ≤ max) (retry : parser.retryEdges words ≤ max) :
    parser.parsePruned words threshold = parser.unlimited.parsePruned words threshold := by
  rw [attemptEdges_of_below pruning] at attempt
  have coarse := coarsePass_unlimited limited ((Nat.le_add_right _ _).trans attempt)
  unfold parsePruned
  rw [← coarse]
  cases passed : parser.coarsePass words with
  | error error => rfl
  | ok result =>
      rcases result with ⟨posterior?, spent⟩
      rw [← spent_of_coarsePass passed] at attempt
      cases posterior? with
      | none =>
          rcases coarsePass_eq_ok_none_iff.mp passed with ⟨-, -, noCoarse⟩
          rw [firstPruned_of_isImpossible pruning noCoarse] at attempt
          exact finePass_unlimited limited attempt
      | some posterior =>
          obtain ⟨-, possible, -, rfl⟩ := coarsePass_eq_ok_some_iff.mp passed
          have first := finePass_unlimited limited attempt
          change (parser.finePass words _ spent >>= _) =
            (parser.unlimited.finePass words _ spent >>= _)
          rw [← firstPruned_of_possible pruning possible, ← first]
          cases finePassed : parser.finePass words (parser.firstPruned words) spent with
          | error error => rfl
          | ok parse? =>
              cases parse? with
              | some parse => rfl
              | none =>
                  rcases finePass_eq_ok_iff.mp finePassed with ⟨-, -, returned⟩
                  rw [retryEdges_of_retried pruning possible
                    (Pass.bestParse?_eq_none_iff.mp returned)] at retry
                  have second : parser.parseExhaustively words =
                      parser.unlimited.parseExhaustively words :=
                    finePass_unlimited limited (Nat.zero_add _ ▸ retry)
                  change (parser.parseExhaustively words >>= _) =
                    (parser.unlimited.parseExhaustively words >>= _)
                  rw [second]

/-- A budget that is large enough for each attempt makes no difference. -/
theorem parse_unlimited (attempt : parser.attemptEdges words ≤ max)
    (retry : parser.retryEdges words ≤ max) :
    parser.parse words = parser.unlimited.parse words := by
  by_cases empty : words = []
  · subst empty
    rfl
  rw [parse_of_ne_nil _ empty, parse_of_ne_nil _ empty]
  refine bind_congr fun _ => ?_
  dsimp only
  cases pruning : parser.config.pruning with
  | disabled =>
      rw [(edges_of_disabled pruning).1] at attempt
      exact finePass_unlimited limited (Nat.zero_add _ ▸ attempt)
  | below threshold => exact parsePruned_unlimited limited pruning attempt retry

end

/-! ## What the budget bounds -/

/-- A model with other tags for the words than the one that it is to prune, and these much
better. -/
def distractedCoarse : Model ExactScore :=
  (Model.ofGrammar
    (.merge "S" [.binary "S" "A" "B" (.finite (mkRat 0 1)),
      .binary "S" "C" "D" (.finite (mkRat (-5) 1))])
    (TableLexicon.score ⟨.ofList [(("a", "A"), .finite (mkRat 0 1)),
      (("b", "B"), .finite (mkRat 0 1)), (("a", "C"), .finite (mkRat 0 1)),
      (("b", "D"), .finite (mkRat 0 1))], .empty⟩)).toOption.get (by decide +kernel)

/-- The model that is pruned. -/
def distractedFine : Model ExactScore :=
  (Model.ofGrammar (.merge "S" [.binary "S" "C" "D" (.finite (mkRat 0 1))])
    (TableLexicon.score ⟨.ofList [(("a", "C"), .finite (mkRat 0 1)),
      (("b", "D"), .finite (mkRat 0 1))], .empty⟩)).toOption.get (by decide +kernel)

/-- The parser of the two models, with a budget of seven edges. -/
def distracted : Parser ExactScore :=
  ⟨distractedCoarse, distractedFine, #[0, 3, 4], ⟨.below (.finite (mkRat (-2) 1)), none, some 7⟩⟩

/-- The budget of a sentence bounds each attempt at it, but not the two together: whatever
the answer, neither attempt takes more edges than allowed, and a budget that is exhausted
is too small for one of them.  A budget that is large enough for each makes no
difference. -/
theorem budget_per_attempt {max : Nat} (limited : parser.config.maxEdges = some max)
    (words : List String) :
    (∀ result, parser.parse words = .ok result →
      parser.attemptEdges words ≤ max ∧ parser.retryEdges words ≤ max ∧
        ∀ parse, result = some parse → parse.usedFallback = false →
          parser.attemptEdges words + parser.retryEdges words ≤ max) ∧
    (∀ given, parser.parse words = .error (.budgetExhausted given) →
      given = max ∧ (max < parser.attemptEdges words ∨ max < parser.retryEdges words)) ∧
    (parser.attemptEdges words ≤ max → parser.retryEdges words ≤ max →
      parser.parse words = parser.unlimited.parse words) := by
  refine ⟨?_, ?_, parse_unlimited limited⟩
  · intro result parsed
    rcases edges_le_of_parse_eq_ok limited parsed with ⟨attempt, retry, once⟩
    refine ⟨attempt, retry, ?_⟩
    intro parse found direct
    rw [once parse found direct]
    exact attempt
  · intro given failed
    rcases lt_edges_of_parse_exhausted failed with ⟨limitedAgain, exceeded⟩
    obtain rfl := Option.some.inj (limited.symm.trans limitedAgain)
    exact ⟨rfl, exceeded⟩

theorem budget_per_attempt_distracted :
    distracted.config.maxEdges = some 7 ∧ distracted.attemptEdges ["a", "b"] ≤ 7 ∧
      distracted.retryEdges ["a", "b"] ≤ 7 := by
  have limited : distracted.config.maxEdges = some 7 := rfl
  have parsed : (distracted.parse ["a", "b"]).map (Option.map ScoredParse.usedFallback) =
      .ok (some true) := by
    decide +kernel
  rcases exists_of_map_eq_ok parsed with ⟨parse, found, -⟩
  obtain ⟨answered, -⟩ := budget_per_attempt limited ["a", "b"]
  rcases answered (some parse) found with ⟨attempt, retry, -⟩
  exact ⟨limited, attempt, retry⟩

/-- The first attempt takes the whole budget, and the sentence is parsed all the same. -/
theorem exists_parse_over_budget :
    distracted.config.maxEdges = some 7 ∧
      (∃ parse, distracted.parse ["a", "b"] = .ok (some parse) ∧ parse.usedFallback = true) ∧
      distracted.attemptEdges ["a", "b"] + distracted.retryEdges ["a", "b"] = 8 := by
  have parsed : (distracted.parse ["a", "b"]).map (Option.map ScoredParse.usedFallback) =
      .ok (some true) := by
    decide +kernel
  exact ⟨rfl, exists_of_map_eq_ok parsed, by decide +kernel⟩

end ChartParsing.Parser
