import ChartParsing.Proofs.Lexicon.Table
import ChartParsing.Proofs.Unary.Closure

/-!
# Closures keep within bounds

Whether scores are exact or rounded, the chains of a closure run between labels of the
grammar and none of them scores above zero (`UnaryClosure.Bounded`).  This is all that a
chart needs in order to meet no positive score, and so the models that are built from
declared grammars (`Model.IsBuilt`) give passes without positive scores as soon as their
taggings are accepted.  Those among them whose chains can be numbered are accepted
(`Model.IsAccepted`).
-/

namespace ChartParsing

variable {σ : Type} [Score σ]

namespace Grammar.WellFormed

variable {grammar : Grammar σ} (wellFormed : grammar.WellFormed)

include wellFormed

theorem roundOrder_nonpos :
    ∀ rule ∈ UnaryRule.roundOrder grammar.unary, rule.score ≤ 0 := fun _ member =>
  wellFormed.unary_nonpos (UnaryRule.mem_roundOrder.mp member).1

theorem roundOrder_known :
    ∀ rule ∈ UnaryRule.roundOrder grammar.unary,
      rule.parent < grammar.labels.size ∧ rule.child < grammar.labels.size :=
  fun rule member => wellFormed.unaryKnown rule (UnaryRule.mem_roundOrder.mp member).1

end Grammar.WellFormed

namespace UnaryClosure

/-- The chains of a closure over `count` labels are indexed by these labels, run between
them and are not positive. -/
structure Bounded (closure : UnaryClosure σ) (count : Nat) : Prop where
  indexed : closure = ofChains count closure.chains
  known : ∀ chain ∈ closure.chains, chain.parent < count ∧ chain.child < count
  nonpos : ∀ chain ∈ closure.chains, chain.score ≤ 0

/-- Chains are pushed at valid scores only. -/
theorem bounded_ofGrammar {grammar : Grammar σ} {closure : UnaryClosure σ}
    (closed : ofGrammar grammar = .ok closure) : closure.Bounded grammar.labels.size := by
  obtain ⟨chains, collected, -, rfl⟩ := ofGrammar_eq_ok_iff.mp closed
  constructor
  case indexed => rfl
  case known => exact fun chain member => ((mem_chainsOf collected).mp member).1
  case nonpos =>
    intro chain member
    obtain ⟨-, -, -, valid, -⟩ := (mem_chainsOf collected).mp member
    exact Score.nonpos_of_isLogProbability valid

namespace Bounded

variable {closure : UnaryClosure σ} {count : Nat} (bounded : closure.Bounded count)

include bounded

theorem labelCount_eq : closure.labelCount = count := by
  rw [bounded.indexed, labelCount_ofChains]

/-- A chain is selected with its number. -/
theorem getElem?_of_mem_byParent {label : LabelId} (known : label < count)
    {entry : Nat × UnaryChain σ} (member : entry ∈ closure.byParent.chains label) :
    closure.chains[entry.1]? = some entry.2 := by
  rw [bounded.indexed] at member
  exact ((ChainIndex.mem_chains_select known).mp member).1

theorem mem_byParent {label : LabelId} (known : label < count)
    {entry : Nat × UnaryChain σ} (member : entry ∈ closure.byParent.chains label) :
    entry.2 ∈ closure.chains :=
  List.mem_of_getElem? (bounded.getElem?_of_mem_byParent known member)

theorem mem_byChild {label : LabelId} (known : label < count)
    {entry : Nat × UnaryChain σ} (member : entry ∈ closure.byChild.chains label) :
    entry.2 ∈ closure.chains := by
  rw [bounded.indexed] at member
  exact ((ChainIndex.exists_mem_chains_select known).mp ⟨entry.1, member⟩).1

theorem reflexive [Score.Monotone σ] : closure.reflexive.Bounded count := by
  have origin {chain : UnaryChain σ} (member : chain ∈ closure.reflexive.chains) :
      chain ∈ closure.chains ∨ ∃ label < count, noStep label = chain := by
    rcases List.mem_append.mp member with old | added
    · exact Or.inl old
    · rcases List.mem_map.mp added with ⟨label, missing, same⟩
      have known := List.mem_range.mp (List.mem_filter.mp missing).1
      rw [bounded.labelCount_eq] at known
      exact Or.inr ⟨label, known, same⟩
  constructor
  case indexed =>
    rw [← bounded.labelCount_eq]
    rfl
  case known =>
    intro chain member
    rcases origin member with old | ⟨label, known, rfl⟩
    · exact bounded.known chain old
    · exact ⟨known, known⟩
  case nonpos =>
    intro chain member
    rcases origin member with old | ⟨label, -, rfl⟩
    · exact bounded.nonpos chain old
    · exact Score.Monotone.zero_nonpos

/-- Loops are added where all chains can be numbered, and only there. -/
theorem withLoops_eq (numbered : closure.chains.length ≤ ruleLimit) :
    closure.withLoops =
      if closure.reflexive.chains.length ≤ ruleLimit then .ok closure.reflexive
      else .error (.tooManyRules ruleLimit) := by
  rw [bounded.indexed]
  exact withLoops_ofChains numbered

end Bounded

end UnaryClosure

namespace Model

/-- The models that are built: from a declared grammar and any lexicon, with the closure
of the grammar's unary rules, made reflexive any number of times. -/
inductive IsBuilt : Model σ → Prop
  | ofGrammar {grammar : Grammar σ} {lexicon : Lexicon σ} {model : Model σ} :
      grammar.IsDeclared → Model.ofGrammar grammar lexicon = .ok model → IsBuilt model
  | reflexive {model : Model σ} : IsBuilt model → IsBuilt model.reflexive

theorem IsModelOf.isBuilt {grammar : Grammar ExactScore} {lexicon : Lexicon ExactScore}
    {model : Model ExactScore} (isModel : IsModelOf grammar lexicon model)
    (declared : grammar.IsDeclared) : model.IsBuilt := by
  induction isModel with
  | ofGrammar made => exact .ofGrammar declared made
  | reflexive _ inductionHypothesis => exact .reflexive inductionHypothesis

namespace IsBuilt

variable {model : Model σ} (built : model.IsBuilt)

include built

theorem isDeclared : model.grammar.IsDeclared := by
  induction built with
  | ofGrammar declared made =>
      rcases bind_eq_ok_iff.mp made with ⟨closure, -, same⟩
      obtain rfl := Except.ok.inj same
      exact declared
  | reflexive _ inductionHypothesis => exact inductionHypothesis

theorem wellFormed : model.grammar.WellFormed :=
  Grammar.wellFormed_of_isDeclared built.isDeclared

theorem bounded [Score.Monotone σ] : model.closure.Bounded model.grammar.labels.size := by
  induction built with
  | ofGrammar declared made =>
      rcases bind_eq_ok_iff.mp made with ⟨closure, closed, same⟩
      obtain rfl := Except.ok.inj same
      exact UnaryClosure.bounded_ofGrammar closed
  | reflexive _ inductionHypothesis => exact inductionHypothesis.reflexive

end IsBuilt

/-- The models that are accepted: those that are built with a number for each chain. -/
inductive IsAccepted : Model σ → Prop
  | ofGrammar {grammar : Grammar σ} {lexicon : Lexicon σ} {model : Model σ} :
      grammar.IsDeclared → Model.ofGrammar grammar lexicon = .ok model → IsAccepted model
  | withLoops {model looped : Model σ} :
      IsAccepted model → model.withLoops = .ok looped → IsAccepted looped

/-- Accepted models are built, and their chains are numbered. -/
theorem IsAccepted.isBuilt_and_numbered [Score.Monotone σ] {model : Model σ}
    (accepted : model.IsAccepted) :
    model.IsBuilt ∧ model.closure.chains.length ≤ ruleLimit := by
  induction accepted with
  | ofGrammar declared made =>
      refine ⟨.ofGrammar declared made, ?_⟩
      rcases bind_eq_ok_iff.mp made with ⟨closure, closed, same⟩
      obtain rfl := Except.ok.inj same
      obtain ⟨chains, -, numbered, rfl⟩ := UnaryClosure.ofGrammar_eq_ok_iff.mp closed
      exact numbered
  | withLoops _ looped inductionHypothesis =>
      rcases inductionHypothesis with ⟨built, numbered⟩
      rcases bind_eq_ok_iff.mp looped with ⟨closure, closed, same⟩
      obtain rfl := Except.ok.inj same
      rw [built.bounded.withLoops_eq numbered] at closed
      split at closed
      · rename_i stillNumbered
        obtain rfl := Except.ok.inj closed
        exact ⟨.reflexive built, stillNumbered⟩
      · cases closed

/-! ## The sample models -/

theorem isBuilt_sample_fine : Sample.Exact.fine.IsBuilt :=
  IsModelOf.sample_fine.isBuilt Grammar.isDeclared_sample

theorem isBuilt_sample_coarse : Sample.Exact.coarse.IsBuilt :=
  IsModelOf.sample_coarse.isBuilt ⟨_, _, Grammar.project_sample⟩

theorem nonpositive_sample_fine : Sample.Exact.fine.lexicon.Nonpositive := by
  rw [IsModelOf.sample_fine.lexicon_eq]
  exact TableLexicon.nonpositive_score
    (TableLexicon.wellFormed_of_isBuilt TableLexicon.isBuilt_sample)

theorem nonpositive_sample_coarse : Sample.Exact.coarse.lexicon.Nonpositive := by
  rw [IsModelOf.sample_coarse.lexicon_eq]
  have wellFormed := TableLexicon.wellFormed_of_isBuilt TableLexicon.isBuilt_sample
  exact TableLexicon.nonpositive_score (wellFormed.project Refinement.coarseLabel)

end Model

end ChartParsing
