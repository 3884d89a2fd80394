import ChartParsing.Proofs.Parser.Budget

/-!
# One sentence under different budgets

A budget is looked at in one place only, where edges are charged, and the edges that are
charged do not depend on it.  Two runs of a parser that differ in their budgets therefore
go side by side until the smaller budget is exhausted, where that run stops
(`ExhaustedOr`).  So a budget only ever replaces an answer by an error, and more of it
never hurts (`Parser.budget_replaces_answer`).
-/

namespace ChartParsing

variable {σ α β : Type}

/-- A computation that exhausts the budget `max`, or else comes out like another one. -/
inductive ExhaustedOr (max : Nat) :
    Except (ParseError σ) α → Except (ParseError σ) α → Prop
  | exhausted (other : Except (ParseError σ) α) :
      ExhaustedOr max (.error (.budgetExhausted max)) other
  | same (outcome : Except (ParseError σ) α) : ExhaustedOr max outcome outcome

namespace ExhaustedOr

variable {max : Nat}

/-- Two computations go on side by side if their first steps and all that follows a result
of these do. -/
theorem bind {first other : Except (ParseError σ) α} {next otherNext : α → Except (ParseError σ) β}
    (step : ExhaustedOr max first other)
    (follow : ∀ value, ExhaustedOr max (next value) (otherNext value)) :
    ExhaustedOr max (first >>= next) (other >>= otherNext) := by
  cases step with
  | exhausted => exact .exhausted _
  | same =>
      cases first with
      | error error => exact .same _
      | ok value => exact follow value

theorem eq_or {outcome other : Except (ParseError σ) α} (step : ExhaustedOr max outcome other) :
    outcome = other ∨ outcome = .error (.budgetExhausted max) := by
  cases step with
  | exhausted => exact Or.inr rfl
  | same => exact Or.inl rfl

theorem eq_of_ne {outcome other : Except (ParseError σ) α} (step : ExhaustedOr max outcome other)
    (enough : outcome ≠ .error (.budgetExhausted max)) : outcome = other :=
  step.eq_or.resolve_right enough

end ExhaustedOr

/-! ## Charging -/

/-- The configuration with another budget. -/
abbrev Config.withBudget (config : Config σ) (budget : Option Nat) : Config σ :=
  { config with maxEdges := budget }

/-- No budget, or one that is at least `max`. -/
def AllowsUpTo (budget : Option Nat) (max : Nat) : Prop :=
  ∀ larger, budget = some larger → max ≤ larger

/-- What the smaller budget allows is charged to either. -/
theorem Config.exhaustedOr_charge {max : Nat} {budget : Option Nat}
    (allows : AllowsUpTo budget max) (config : Config σ) (spent edges : Nat) :
    ExhaustedOr max ((config.withBudget (some max)).charge spent edges)
      ((config.withBudget budget).charge spent edges) := by
  by_cases exceeded : max < spent + edges
  · have stopped : (config.withBudget (some max)).charge spent edges =
        .error (.budgetExhausted max) :=
      if_pos exceeded
    rw [stopped]
    exact .exhausted _
  · have within : spent + edges ≤ max := Nat.le_of_not_lt exceeded
    rw [charge_of_le rfl within]
    cases budget with
    | none =>
        rw [charge_of_unlimited rfl]
        exact .same _
    | some larger =>
        rw [charge_of_le rfl (within.trans (allows larger rfl))]
        exact .same _

/-! ## Passes and attempts -/

namespace Parser

variable [Score σ]

/-- The parser with another budget. -/
abbrev withBudget (parser : Parser σ) (budget : Option Nat) : Parser σ :=
  { parser with config := parser.config.withBudget budget }

section

variable {max : Nat} {budget : Option Nat} (allows : AllowsUpTo budget max) (parser : Parser σ)
  (words : List String)

include allows

theorem exhaustedOr_finePass (pruned : Pruned) (spent : Nat) :
    ExhaustedOr max ((parser.withBudget (some max)).finePass words pruned spent)
      ((parser.withBudget budget).finePass words pruned spent) := by
  apply ExhaustedOr.bind (.same _)
  intro _
  apply ExhaustedOr.bind (Config.exhaustedOr_charge allows parser.config spent _)
  intro _
  exact .same _

theorem exhaustedOr_coarsePass :
    ExhaustedOr max ((parser.withBudget (some max)).coarsePass words)
      ((parser.withBudget budget).coarsePass words) := by
  apply ExhaustedOr.bind (.same _)
  intro _
  apply ExhaustedOr.bind (Config.exhaustedOr_charge allows parser.config 0 _)
  intro spent
  -- The outside chart is charged where there is a coarse parse.
  dsimp only
  split
  · exact .same _
  · apply ExhaustedOr.bind (Config.exhaustedOr_charge allows parser.config spent _)
    intro _
    exact .same _

/-- The first attempt and the second one each go side by side. -/
theorem exhaustedOr_parsePruned (threshold : σ) :
    ExhaustedOr max ((parser.withBudget (some max)).parsePruned words threshold)
      ((parser.withBudget budget).parsePruned words threshold) := by
  apply ExhaustedOr.bind (exhaustedOr_coarsePass allows parser words)
  rintro ⟨posterior?, spent⟩
  cases posterior? with
  | none => exact exhaustedOr_finePass allows parser words .nothing spent
  | some posterior =>
      apply ExhaustedOr.bind (exhaustedOr_finePass allows parser words _ spent)
      intro parse?
      cases parse? with
      | some parse => exact .same _
      | none =>
          apply ExhaustedOr.bind (exhaustedOr_finePass allows parser words .nothing 0)
          intro _
          exact .same _

theorem exhaustedOr_parse :
    ExhaustedOr max ((parser.withBudget (some max)).parse words)
      ((parser.withBudget budget).parse words) := by
  by_cases empty : words = []
  · subst empty
    exact .same _
  · rw [parse_of_ne_nil _ empty, parse_of_ne_nil _ empty]
    apply ExhaustedOr.bind (.same _)
    intro _
    dsimp only
    split
    · exact exhaustedOr_parsePruned allows parser words _
    · exact exhaustedOr_finePass allows parser words .nothing 0

end

/-- Where a sentence has an answer, a budget is exhausted if it is too small for one of the
attempts. -/
theorem parse_withBudget_exhausted_iff {parser : Parser σ} {words : List String} {max : Nat}
    {answer : Option (ScoredParse σ)}
    (answered : (parser.withBudget none).parse words = .ok answer) :
    (parser.withBudget (some max)).parse words = .error (.budgetExhausted max) ↔
      max < parser.attemptEdges words ∨ max < parser.retryEdges words := by
  constructor
  · intro failed
    exact (lt_edges_of_parse_exhausted failed).2
  · intro exceeded
    have allows : AllowsUpTo none max := by
      rintro larger ⟨⟩
    rcases (exhaustedOr_parse allows parser words).eq_or with same | stopped
    · have limited : (parser.withBudget (some max)).config.maxEdges = some max := rfl
      rcases edges_le_of_parse_eq_ok limited (same.trans answered) with ⟨attempt, retry, -⟩
      rcases exceeded with first | second
      · exact absurd first (Nat.not_lt_of_le attempt)
      · exact absurd second (Nat.not_lt_of_le retry)
    · exact stopped

/-- Under any budget a sentence is answered as without one, or the budget is exhausted.  A
budget that is not exhausted may as well be larger, and from some budget on there is no
difference to having none. -/
theorem budget_replaces_answer (parser : Parser σ) (words : List String) :
    (∀ max, (parser.withBudget (some max)).parse words = (parser.withBudget none).parse words ∨
      (parser.withBudget (some max)).parse words = .error (.budgetExhausted max)) ∧
    (∀ max larger, max ≤ larger →
      (parser.withBudget (some max)).parse words ≠ .error (.budgetExhausted max) →
      (parser.withBudget (some larger)).parse words =
        (parser.withBudget (some max)).parse words) ∧
    ∃ enough, ∀ max, enough ≤ max →
      (parser.withBudget (some max)).parse words = (parser.withBudget none).parse words := by
  refine ⟨?replaced, ?kept, ?sufficient⟩
  case replaced =>
    intro max
    have allows : AllowsUpTo none max := by
      rintro larger ⟨⟩
    exact (exhaustedOr_parse allows parser words).eq_or
  case kept =>
    intro max larger le answered
    have allows : AllowsUpTo (some larger) max := by
      rintro _ ⟨⟩
      exact le
    exact ((exhaustedOr_parse allows parser words).eq_of_ne answered).symm
  case sufficient =>
    refine ⟨parser.attemptEdges words + parser.retryEdges words, ?_⟩
    intro max enough
    have attempt : parser.attemptEdges words ≤ max := (Nat.le_add_right _ _).trans enough
    have retry : parser.retryEdges words ≤ max := (Nat.le_add_left _ _).trans enough
    exact @parse_unlimited _ _ (parser.withBudget (some max)) _ _ rfl attempt retry

/-- The fallback of this sentence keeps to the smaller budget, so it is what the larger one
leads to as well. -/
theorem budget_replaces_answer_distracted :
    7 ≤ 100 ∧ ∃ parse,
      (distracted.withBudget (some 7)).parse ["a", "b"] = .ok (some parse) ∧
      (distracted.withBudget (some 100)).parse ["a", "b"] = .ok (some parse) ∧
      parse.usedFallback = true := by
  have parsed : ((distracted.withBudget (some 7)).parse ["a", "b"]).map
      (Option.map ScoredParse.usedFallback) = .ok (some true) := by
    decide +kernel
  rcases exists_of_map_eq_ok parsed with ⟨parse, found, again⟩
  have answered : (distracted.withBudget (some 7)).parse ["a", "b"] ≠
      .error (.budgetExhausted 7) := by
    rw [found]
    rintro ⟨⟩
  have le : 7 ≤ 100 := by decide
  obtain ⟨-, kept, -⟩ := budget_replaces_answer distracted ["a", "b"]
  exact ⟨le, parse, found, (kept 7 100 le answered).trans found, again⟩

end Parser

end ChartParsing
