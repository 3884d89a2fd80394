import ChartParsing.Grammar.Basic
import ChartParsing.Proofs.Score.ExactLaws

/-!
# Chains of unary rules

A chain of unary rules leads from a label through others to a last one, and may
take no step at all.  Its path lists the labels that it visits, both ends
included, and its score is the sum of the scores of its rules.  `UnaryRule.Leads`
is the relation that the closure of a grammar is measured by: it knows neither
rounds nor predecessors, and its chains may be of any length and visit a label
many times.
-/

namespace ChartParsing.UnaryRule

/-- A chain of the given rules leads from one label to another along a path, at a
score. -/
inductive Leads {σ : Type} [Score σ] (rules : List (UnaryRule σ)) :
    (source target : LabelId) → (path : List LabelId) → (score : σ) → Prop
  | stay (label : LabelId) : Leads rules label label [label] 0
  | step {rule : UnaryRule σ} {target : LabelId} {path : List LabelId} {score : σ} :
      rule ∈ rules → Leads rules rule.child target path score →
      Leads rules rule.parent target (rule.parent :: path) (rule.score + score)

namespace Leads

section

variable {σ : Type} [Score σ] {rules : List (UnaryRule σ)} {source target : LabelId}
  {path : List LabelId} {score : σ}

/-- A path starts at the source. -/
theorem exists_cons (leads : Leads rules source target path score) :
    ∃ rest, path = source :: rest := by
  cases leads with
  | stay => exact ⟨[], rfl⟩
  | step => exact ⟨_, rfl⟩

theorem path_ne_nil (leads : Leads rules source target path score) : path ≠ [] := by
  rcases leads.exists_cons with ⟨rest, rfl⟩
  exact List.cons_ne_nil source rest

/-- More rules lead at least as far. -/
theorem mono {others : List (UnaryRule σ)} (included : rules ⊆ others)
    (leads : Leads rules source target path score) :
    Leads others source target path score := by
  induction leads with
  | stay label => exact .stay label
  | step member _ inductionHypothesis => exact .step (included member) inductionHypothesis

/-- A chain that leads elsewhere starts and ends with a rule. -/
theorem exists_rules (leads : Leads rules source target path score)
    (different : source ≠ target) :
    (∃ rule ∈ rules, rule.parent = source) ∧ ∃ rule ∈ rules, rule.child = target := by
  induction leads with
  | stay label => exact absurd rfl different
  | @step rule target path score member rest inductionHypothesis =>
      refine ⟨⟨rule, member, rfl⟩, ?_⟩
      by_cases last : rule.child = target
      · exact ⟨rule, member, last⟩
      · exact (inductionHypothesis last).2

theorem nonpos [Score.Lawful σ] (rulesNonpos : ∀ rule ∈ rules, rule.score ≤ 0)
    (leads : Leads rules source target path score) : score ≤ 0 := by
  induction leads with
  | stay => exact Score.Lawful.zero_nonpos
  | @step rule _ _ _ member _ inductionHypothesis =>
      exact Score.add_nonpos (rulesNonpos rule member) inductionHypothesis

end

variable {rules : List (UnaryRule ExactScore)} {source middle target : LabelId}
  {path : List LabelId} {score : ExactScore}

/-- The score of a chain is a number. -/
theorem isFinite (rulesFinite : ∀ rule ∈ rules, Score.isFinite rule.score = true)
    (leads : Leads rules source target path score) : Score.isFinite score = true := by
  induction leads with
  | stay => rfl
  | @step rule _ _ score member _ inductionHypothesis =>
      rcases ExactScore.isFinite_iff.mp (rulesFinite rule member) with ⟨x, ruleScore⟩
      rcases ExactScore.isFinite_iff.mp inductionHypothesis with ⟨y, rfl⟩
      rw [ruleScore]
      rfl

/-- Two chains make a longer one. -/
theorem trans {before after : List LabelId} {first second : ExactScore}
    (left : Leads rules source middle before first)
    (right : Leads rules middle target after second) :
    Leads rules source target (before.dropLast ++ after) (first + second) := by
  induction left with
  | stay label =>
      rw [zero_add]
      exact right
  | @step rule middle path score member rest inductionHypothesis =>
      rw [List.dropLast_cons_of_ne_nil rest.path_ne_nil, List.cons_append, add_assoc]
      exact .step member (inductionHypothesis right)

/-- A chain may be continued by a rule. -/
theorem snoc {rule : UnaryRule ExactScore} (member : rule ∈ rules)
    (leads : Leads rules source rule.parent path score) :
    Leads rules source rule.child (path.dropLast ++ [rule.parent, rule.child])
      (score + rule.score) := by
  have single : Leads rules rule.parent rule.child [rule.parent, rule.child] rule.score := by
    rw [← add_zero rule.score]
    exact .step member (.stay rule.child)
  exact leads.trans single

end Leads

end ChartParsing.UnaryRule
