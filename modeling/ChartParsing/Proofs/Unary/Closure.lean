import ChartParsing.Model
import ChartParsing.Proofs.Grammar.WellFormed
import ChartParsing.Proofs.Unary.Pushing
import ChartParsing.Proofs.Unary.Relaxation

/-!
# The closure of unary rules

`UnaryClosure.Faithful` says what the charts ask of a closure: each of its chains
follows rules of the grammar, no chain of rules between different labels beats the
one that it holds for them, and a chain from a label to itself takes no step.  The
closure of a declared grammar is faithful, and making it reflexive keeps it so.
-/

namespace ChartParsing

namespace ChainIndex

variable {σ : Type}

theorem mem_numbered {chains : List (UnaryChain σ)} {number : Nat}
    {chain : UnaryChain σ} :
    (number, chain) ∈ numbered chains ↔ chains[number]? = some chain := by
  rw [numbered, List.mem_map]
  constructor
  · rintro ⟨⟨found, position⟩, member, same⟩
    rcases Prod.mk.inj same with ⟨rfl, rfl⟩
    exact List.mk_mem_zipIdx_iff_getElem?.mp member
  · intro found
    exact ⟨(chain, number), List.mk_mem_zipIdx_iff_getElem?.mpr found, rfl⟩

theorem mem_chains_select {count : Nat} {key : UnaryChain σ → LabelId}
    {chains : List (UnaryChain σ)} {label : LabelId} (bounded : label < count)
    {number : Nat} {chain : UnaryChain σ} :
    (number, chain) ∈ (select count key chains).chains label ↔
      chains[number]? = some chain ∧ key chain = label := by
  rw [chains_select key chains bounded, List.mem_filter, mem_numbered, beq_iff_eq]

/-- A selection holds the chains with the right key. -/
theorem exists_mem_chains_select {count : Nat} {key : UnaryChain σ → LabelId}
    {chains : List (UnaryChain σ)} {label : LabelId} (bounded : label < count)
    {chain : UnaryChain σ} :
    (∃ number, (number, chain) ∈ (select count key chains).chains label) ↔
      chain ∈ chains ∧ key chain = label := by
  simp only [mem_chains_select bounded, exists_and_right, List.mem_iff_getElem?]

end ChainIndex

namespace UnaryClosure

/-! ## Faithful closures -/

/-- What the closure of a grammar holds: its chains follow the grammar's rules, none
of them is beaten by other rules, and only taking no step leads back to a label. -/
structure Faithful (grammar : Grammar ExactScore) (closure : UnaryClosure ExactScore) :
    Prop where
  indexed : closure = ofChains grammar.labels.size closure.chains
  known : ∀ chain ∈ closure.chains,
    chain.parent < grammar.labels.size ∧ chain.child < grammar.labels.size
  leads : ∀ chain ∈ closure.chains,
    UnaryRule.Leads grammar.unary chain.parent chain.child chain.path chain.score
  loop : ∀ chain ∈ closure.chains, chain.isReflexive = true →
    chain = noStep chain.parent
  best : ∀ {parent child path score}, parent ≠ child →
    UnaryRule.Leads grammar.unary parent child path score →
    ∃ chain ∈ closure.chains, chain.parent = parent ∧ chain.child = child ∧
      score ≤ chain.score

variable {grammar : Grammar ExactScore} {closure : UnaryClosure ExactScore}

/-- The chains of a well-formed grammar are faithful, however many they are. -/
theorem faithful_chainsOf (wellFormed : grammar.WellFormed)
    {chains : List (UnaryChain ExactScore)} (collected : chainsOf grammar = .ok chains) :
    (ofChains grammar.labels.size chains).Faithful grammar := by
  have proper : UnaryRule.roundOrder grammar.unary ⊆ grammar.unary := fun rule member =>
    (UnaryRule.mem_roundOrder.mp member).1
  have nonpos : ∀ rule ∈ UnaryRule.roundOrder grammar.unary, rule.score ≤ 0 :=
    fun rule member => wellFormed.unary_nonpos (proper member)
  have unaryNonpos : ∀ rule ∈ grammar.unary, rule.score ≤ 0 :=
    fun rule member => wellFormed.unary_nonpos member
  constructor
  case indexed => rfl
  case known => exact fun chain member => ((mem_chainsOf collected).mp member).1
  case leads =>
    intro chain member
    obtain ⟨⟨known, -⟩, -, score, -, found⟩ := (mem_chainsOf collected).mp member
    rw [score]
    exact (Reach.leads_of_path? (Reach.sound_best known nonpos)
      (isSettled_of_chainsOf collected known) nonpos found).mono proper
  case loop =>
    intro chain member reflexive
    obtain ⟨-, different, -⟩ := (mem_chainsOf collected).mp member
    exact absurd (eq_of_beq reflexive).symm different
  case best =>
    intro parent child path score different leads
    obtain ⟨⟨first, firstMember, rfl⟩, last, lastMember, rfl⟩ := leads.exists_rules different
    have parentKnown := (wellFormed.unaryKnown first firstMember).1
    have childKnown := (wellFormed.unaryKnown last lastMember).2
    have sound := Reach.sound_best parentKnown nonpos
    have unbeaten := Reach.score_add_le_of_leads sound.nonpos
      (fun rule member => Reach.scoreBy_le_of_isSettled_roundOrder sound
        (isSettled_of_chainsOf collected parentKnown) unaryNonpos member)
      unaryNonpos leads
    rw [sound.sourceScore, zero_add] at unbeaten
    have finite := ExactScore.isFinite_of_le
      (leads.isFinite fun rule member => wellFormed.unary_isFinite member) unbeaten
      (sound.nonpos last.child)
    obtain ⟨chain, held, parent, child, reached⟩ :=
      exists_chain_of_isFinite collected parentKnown childKnown different.symm finite
    exact ⟨chain, held, parent, child, unbeaten.trans_eq reached.symm⟩

/-- The closure of a well-formed grammar is faithful. -/
theorem faithful_ofGrammar (wellFormed : grammar.WellFormed)
    (closed : ofGrammar grammar = .ok closure) : closure.Faithful grammar := by
  obtain ⟨chains, collected, -, rfl⟩ := ofGrammar_eq_ok_iff.mp closed
  exact faithful_chainsOf wellFormed collected

namespace Faithful

variable (faithful : closure.Faithful grammar)

include faithful

theorem labelCount : closure.labelCount = grammar.labels.size := by
  rw [faithful.indexed, labelCount_ofChains]

/-- The reflexive closure of a grammar is faithful. -/
theorem reflexive : closure.reflexive.Faithful grammar := by
  have memReflexive {chain : UnaryChain ExactScore} :
      chain ∈ closure.reflexive.chains ↔
        chain ∈ closure.chains ∨
          ∃ label < grammar.labels.size, closure.hasLoop label = false ∧
            noStep label = chain := by
    change chain ∈ closure.chains ++ List.map noStep _ ↔ _
    simp [faithful.labelCount, and_assoc]
  constructor
  case indexed =>
    rw [← faithful.labelCount]
    rfl
  case known =>
    intro chain member
    rcases memReflexive.mp member with old | ⟨label, known, -, rfl⟩
    · exact faithful.known chain old
    · exact ⟨known, known⟩
  case leads =>
    intro chain member
    rcases memReflexive.mp member with old | ⟨label, -, -, rfl⟩
    · exact faithful.leads chain old
    · exact .stay label
  case loop =>
    intro chain member isReflexive
    rcases memReflexive.mp member with old | ⟨label, -, -, rfl⟩
    · exact faithful.loop chain old isReflexive
    · rfl
  case best =>
    intro parent child path score different leads
    rcases faithful.best different leads with ⟨chain, member, others⟩
    exact ⟨chain, memReflexive.mpr (Or.inl member), others⟩

theorem nonpos (wellFormed : grammar.WellFormed) {chain : UnaryChain ExactScore}
    (member : chain ∈ closure.chains) : chain.score ≤ 0 :=
  (faithful.leads chain member).nonpos fun _ rule => wellFormed.unary_nonpos rule

/-- A chain of rules is beaten by a chain that is held, unless it leads back to its
label and no loop is held there. -/
theorem exists_chain_or_no_loop (wellFormed : grammar.WellFormed) {top base : LabelId}
    {path : List LabelId} {score : ExactScore}
    (leads : UnaryRule.Leads grammar.unary top base path score) :
    (∃ chain ∈ closure.chains, chain.parent = top ∧ chain.child = base ∧
        score ≤ chain.score) ∨
      top = base ∧
        ∀ chain ∈ closure.chains, chain.parent = top → chain.isReflexive = false := by
  by_cases same : top = base
  · subst same
    by_cases loop : ∃ chain ∈ closure.chains, chain.parent = top ∧ chain.isReflexive = true
    · rcases loop with ⟨chain, member, parent, reflexive⟩
      have child : chain.child = top := (eq_of_beq reflexive).symm.trans parent
      have unbeaten : score ≤ chain.score := by
        rw [faithful.loop chain member reflexive]
        exact leads.nonpos fun _ rule => wellFormed.unary_nonpos rule
      exact Or.inl ⟨chain, member, parent, child, unbeaten⟩
    · right
      constructor
      · rfl
      · intro chain member parent
        by_contra reflexive
        exact loop ⟨chain, member, parent, Bool.not_eq_false _ ▸ reflexive⟩
  · exact Or.inl (faithful.best same leads)

theorem exists_mem_byParent {label : LabelId} (known : label < grammar.labels.size)
    {chain : UnaryChain ExactScore} :
    (∃ number, (number, chain) ∈ closure.byParent.chains label) ↔
      chain ∈ closure.chains ∧ chain.parent = label := by
  rw [faithful.indexed]
  exact ChainIndex.exists_mem_chains_select known

theorem exists_mem_byChild {label : LabelId} (known : label < grammar.labels.size)
    {chain : UnaryChain ExactScore} :
    (∃ number, (number, chain) ∈ closure.byChild.chains label) ↔
      chain ∈ closure.chains ∧ chain.child = label := by
  rw [faithful.indexed]
  exact ChainIndex.exists_mem_chains_select known

end Faithful

end UnaryClosure

/-! ## Models -/

namespace Model

/-- The models of a grammar and a lexicon: with the closure of the grammar's unary
rules, made reflexive any number of times. -/
inductive IsModelOf (grammar : Grammar ExactScore) (lexicon : Lexicon ExactScore) :
    Model ExactScore → Prop
  | ofGrammar {model : Model ExactScore} :
      Model.ofGrammar grammar lexicon = .ok model → IsModelOf grammar lexicon model
  | reflexive {model : Model ExactScore} :
      IsModelOf grammar lexicon model → IsModelOf grammar lexicon model.reflexive

/-- What the charts ask of a model. -/
structure Sound (model : Model ExactScore) : Prop where
  grammar : model.grammar.WellFormed
  closure : model.closure.Faithful model.grammar

namespace IsModelOf

variable {grammar : Grammar ExactScore} {lexicon : Lexicon ExactScore}
  {model : Model ExactScore}

theorem grammar_eq (isModel : IsModelOf grammar lexicon model) :
    model.grammar = grammar := by
  induction isModel with
  | ofGrammar made =>
      rcases bind_eq_ok_iff.mp made with ⟨closure, -, same⟩
      obtain rfl := Except.ok.inj same
      rfl
  | reflexive _ inductionHypothesis => exact inductionHypothesis

theorem lexicon_eq (isModel : IsModelOf grammar lexicon model) :
    model.lexicon = lexicon := by
  induction isModel with
  | ofGrammar made =>
      rcases bind_eq_ok_iff.mp made with ⟨closure, -, same⟩
      obtain rfl := Except.ok.inj same
      rfl
  | reflexive _ inductionHypothesis => exact inductionHypothesis

/-- The models of declared grammars are sound. -/
theorem sound (isModel : IsModelOf grammar lexicon model)
    (declared : grammar.IsDeclared) : model.Sound := by
  have wellFormed := Grammar.wellFormed_of_isDeclared declared
  induction isModel with
  | ofGrammar made =>
      rcases bind_eq_ok_iff.mp made with ⟨closure, closed, same⟩
      obtain rfl := Except.ok.inj same
      exact ⟨wellFormed, UnaryClosure.faithful_ofGrammar wellFormed closed⟩
  | reflexive _ inductionHypothesis =>
      exact ⟨inductionHypothesis.grammar, inductionHypothesis.closure.reflexive⟩

/-- A model that has been made is one. -/
theorem of_toOption {lexicon : Lexicon ExactScore}
    (made : (Model.ofGrammar grammar lexicon).toOption.isSome = true) :
    IsModelOf grammar lexicon ((Model.ofGrammar grammar lexicon).toOption.get made) :=
  .ofGrammar (eq_ok_toOption_get made)

/-- The sample models are those of their grammars. -/
theorem sample_fine :
    IsModelOf Sample.Exact.grammar Sample.Exact.lexicon.score Sample.Exact.fine :=
  of_toOption _

theorem sample_coarse :
    IsModelOf Sample.Exact.coarseGrammar
      (Sample.Exact.lexicon.project Refinement.coarseLabel).score Sample.Exact.coarse :=
  of_toOption _

end IsModelOf

end Model

end ChartParsing
