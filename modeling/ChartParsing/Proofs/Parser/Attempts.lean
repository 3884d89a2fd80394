import ChartParsing.Proofs.Chart.Marginal
import ChartParsing.Proofs.Parser.Outcome

/-!
# The attempts at a sentence

With pruning a sentence is parsed in one of three ways: without pruning after all, where
it has no coarse parse; by the pruned chart; or once more without pruning, where the
pruned chart has lost every parse.  `Parser.Attempted` has a case for each, and
`Parser.parsePruned_eq_ok_iff` says that there are no others.
-/

namespace ChartParsing

namespace Pass

variable {σ : Type} [Score σ] {pass : Pass σ}

/-- A pass returns no parse where its root cell is impossible. -/
theorem bestParse?_eq_none_iff :
    pass.bestParse? = .ok none ↔ Score.isImpossible pass.total = true := by
  unfold bestParse?
  split
  · rename_i same
    exact iff_of_true rfl same
  · rename_i possible
    refine iff_of_false ?_ possible
    split <;> exact fun same => nomatch same

/-- A parse that a pass returns has the score of its root cell, which is possible. -/
theorem of_bestParse?_eq_some {found : ScoredParse σ}
    (returned : pass.bestParse? = .ok (some found)) :
    found.score = pass.total ∧ found.usedFallback = false ∧
      Score.isImpossible pass.total = false := by
  unfold bestParse? at returned
  split at returned
  · cases returned
  · rename_i possible
    split at returned
    · cases returned
    · obtain rfl := Option.some.inj (Except.ok.inj returned)
      exact ⟨rfl, rfl, Bool.not_eq_true _ ▸ possible⟩

end Pass

namespace Parser

variable {σ : Type} [Score σ] {parser : Parser σ} {words : List String}

/-! ## The coarse pass -/

/-- The coarse pass finds nothing where the coarse root is impossible, after the edges of
the inside chart. -/
theorem coarsePass_eq_ok_none_iff {spent : Nat} :
    parser.coarsePass words = .ok (none, spent) ↔
      (parser.coarse.pass words .nothing).taggingError? = none ∧
        parser.config.charge 0 (parser.coarse.pass words .nothing).cost = .ok spent ∧
        Score.isImpossible (parser.coarse.pass words .nothing).total = true := by
  constructor
  · intro passed
    rcases bind_eq_ok_iff.mp passed with ⟨checked, taggings, passed⟩
    rcases bind_eq_ok_iff.mp passed with ⟨edges, charged, passed⟩
    dsimp only at passed
    split at passed
    · rename_i same
      rcases Prod.mk.inj (Except.ok.inj passed) with ⟨-, rfl⟩
      exact ⟨Pass.checkTaggings_eq_ok_iff.mp taggings, charged, same⟩
    · rcases bind_eq_ok_iff.mp passed with ⟨total, -, passed⟩
      cases passed
  · rintro ⟨accepted, charged, same⟩
    refine bind_eq_ok_iff.mpr ⟨(), Pass.checkTaggings_eq_ok_iff.mpr accepted,
      bind_eq_ok_iff.mpr ⟨spent, charged, ?_⟩⟩
    exact if_pos same

/-- The coarse pass finds the posterior of the coarse model where the coarse root is
possible, after the edges of both charts. -/
theorem coarsePass_eq_ok_some_iff {posterior : Posterior σ} {spent : Nat} :
    parser.coarsePass words = .ok (some posterior, spent) ↔
      (parser.coarse.pass words .nothing).taggingError? = none ∧
        Score.isImpossible (parser.coarse.pass words .nothing).total = false ∧
        (∃ insideSpent,
          parser.config.charge 0 (parser.coarse.pass words .nothing).cost = .ok insideSpent ∧
          parser.config.charge insideSpent
            (parser.coarse.grammar.outsideCost words.length) = .ok spent) ∧
        posterior = (parser.coarse.pass words .nothing).posterior := by
  constructor
  · intro passed
    rcases bind_eq_ok_iff.mp passed with ⟨checked, taggings, passed⟩
    rcases bind_eq_ok_iff.mp passed with ⟨insideSpent, insideCharged, passed⟩
    dsimp only at passed
    split at passed
    · cases passed
    · rename_i possible
      rcases bind_eq_ok_iff.mp passed with ⟨total, outsideCharged, passed⟩
      rcases Prod.mk.inj (Except.ok.inj passed) with ⟨same, rfl⟩
      exact ⟨Pass.checkTaggings_eq_ok_iff.mp taggings, Bool.not_eq_true _ ▸ possible,
        ⟨insideSpent, insideCharged, outsideCharged⟩, (Option.some.inj same).symm⟩
  · rintro ⟨accepted, possible, ⟨insideSpent, insideCharged, outsideCharged⟩, rfl⟩
    refine bind_eq_ok_iff.mpr ⟨(), Pass.checkTaggings_eq_ok_iff.mpr accepted,
      bind_eq_ok_iff.mpr ⟨insideSpent, insideCharged, ?_⟩⟩
    refine (if_neg (Bool.eq_false_iff.mp possible)).trans ?_
    exact bind_eq_ok_iff.mpr ⟨spent, outsideCharged, rfl⟩

/-- The coarse pass fails for a tagging or for the cost of its charts. -/
theorem coarsePass_eq_error_cases {error : ParseError σ}
    (failed : parser.coarsePass words = .error error) :
    (parser.coarse.pass words .nothing).taggingError? = some error ∨
      ∃ max, parser.config.maxEdges = some max ∧ error = .budgetExhausted max ∧
        max < if Score.isImpossible (parser.coarse.pass words .nothing).total then
            (parser.coarse.pass words .nothing).cost
          else (parser.coarse.pass words .nothing).cost +
            parser.coarse.grammar.outsideCost words.length := by
  rcases bind_eq_error_iff.mp failed with failed | ⟨checked, -, failed⟩
  · exact Or.inl (Pass.checkTaggings_eq_error_iff.mp failed)
  · right
    rcases bind_eq_error_iff.mp failed with failed | ⟨insideSpent, charged, failed⟩
    · rcases Config.exists_max_of_charge failed with ⟨max, limited, same, exceeded⟩
      rw [Nat.zero_add] at exceeded
      refine ⟨max, limited, same, ?_⟩
      split
      · exact exceeded
      · exact Nat.lt_add_right _ exceeded
    · dsimp only at failed
      split at failed
      · cases failed
      · rename_i possible
        rcases bind_eq_error_iff.mp failed with failed | ⟨spent, -, failed⟩
        · rcases Config.exists_max_of_charge failed with ⟨max, limited, same, exceeded⟩
          rw [(Config.of_charge_eq_ok charged).1, Nat.zero_add] at exceeded
          exact ⟨max, limited, same, (if_neg possible).symm ▸ exceeded⟩
        · cases failed

/-! ## Parsing with pruning -/

/-- How a sentence comes to its parse with pruning. -/
inductive Attempted (parser : Parser σ) (words : List String) (threshold : σ) :
    Option (ScoredParse σ) → Prop
  /-- There is no coarse parse to prune by. -/
  | unpruned {spent : Nat} {result : Option (ScoredParse σ)} :
      parser.coarsePass words = .ok (none, spent) →
      parser.finePass words .nothing spent = .ok result →
      Attempted parser words threshold result
  /-- The pruned chart holds a parse. -/
  | pruned {posterior : Posterior σ} {spent : Nat} {parse : ScoredParse σ} :
      parser.coarsePass words = .ok (some posterior, spent) →
      parser.finePass words (posterior.prunedBelow threshold parser.toCoarse) spent =
        .ok (some parse) →
      Attempted parser words threshold (some parse)
  /-- The pruned chart holds no parse, and what the whole chart holds is marked. -/
  | retried {posterior : Posterior σ} {spent : Nat} {result : Option (ScoredParse σ)} :
      parser.coarsePass words = .ok (some posterior, spent) →
      parser.finePass words (posterior.prunedBelow threshold parser.toCoarse) spent =
        .ok none →
      parser.parseExhaustively words = .ok result →
      Attempted parser words threshold (result.map ({ · with usedFallback := true }))

theorem parsePruned_eq_ok_iff {threshold : σ} {result : Option (ScoredParse σ)} :
    parser.parsePruned words threshold = .ok result ↔
      parser.Attempted words threshold result := by
  constructor
  · intro parsed
    rcases bind_eq_ok_iff.mp parsed with ⟨⟨posterior?, spent⟩, coarsePassed, parsed⟩
    cases posterior? with
    | none => exact .unpruned coarsePassed parsed
    | some posterior =>
        rcases bind_eq_ok_iff.mp parsed with ⟨attempt, finePassed, parsed⟩
        cases attempt with
        | some parse =>
            obtain rfl := Except.ok.inj parsed
            exact .pruned coarsePassed finePassed
        | none =>
            rcases bind_eq_ok_iff.mp parsed with ⟨found, exhausted, parsed⟩
            obtain rfl := Except.ok.inj parsed
            exact .retried coarsePassed finePassed exhausted
  · intro attempted
    cases attempted with
    | unpruned coarsePassed finePassed =>
        exact bind_eq_ok_iff.mpr ⟨_, coarsePassed, finePassed⟩
    | pruned coarsePassed finePassed =>
        exact bind_eq_ok_iff.mpr ⟨_, coarsePassed,
          bind_eq_ok_iff.mpr ⟨_, finePassed, rfl⟩⟩
    | retried coarsePassed finePassed exhausted =>
        exact bind_eq_ok_iff.mpr ⟨_, coarsePassed,
          bind_eq_ok_iff.mpr ⟨_, finePassed, bind_eq_ok_iff.mpr ⟨_, exhausted, rfl⟩⟩⟩

end Parser

end ChartParsing
