import Mathlib.Data.Set.Card
import ChartParsing.Proofs.Unary.Bounds
import ChartParsing.Proofs.Unary.Convergence

/-!
# The closure holds the best chains

For every declared grammar relaxation comes to rest in time, and walking back over
predecessors finds a path wherever a label has been reached, so that its chains can be
collected (`UnaryClosure.exists_chainsOf`).  Between two different labels there is one of them
if rules lead from one to the other, a best one that visits no label twice, and none otherwise.
There are as many as pairs of labels that rules join (`UnaryClosure.length_chainsOf`); the
closure holds them if there are numbers for so many.

The chains come ordered by parent and then by child (`UnaryClosure.pairwise_chainsOf`),
which is why there are no two between the same labels.
-/

namespace ChartParsing

namespace UnaryChain

variable {σ : Type} {first second : UnaryChain σ}

/-- The order of chains by parent and then by child. -/
def Before (first second : UnaryChain σ) : Prop :=
  first.parent < second.parent ∨
    first.parent = second.parent ∧ first.child < second.child

/-- The two labels that a chain joins. -/
def ends (chain : UnaryChain σ) : LabelId × LabelId :=
  (chain.parent, chain.child)

theorem Before.child_lt (before : first.Before second) (same : first.parent = second.parent) :
    first.child < second.child :=
  (before.resolve_left fun less => Nat.ne_of_lt less same).2

theorem Before.parent_lt (before : first.Before second) (same : first.child = second.child) :
    first.parent < second.parent :=
  before.resolve_right fun less => Nat.ne_of_lt less.2 same

/-- Chains of which one comes before the other join different labels. -/
theorem Before.ends_ne (before : first.Before second) : first.ends ≠ second.ends := by
  intro same
  rcases Prod.mk.inj same with ⟨parent, child⟩
  exact Nat.ne_of_lt (before.child_lt parent) child

end UnaryChain

theorem UnaryRule.Leads.getLast?_path {σ : Type} [Score σ] {rules : List (UnaryRule σ)}
    {source target : LabelId} {path : List LabelId} {score : σ}
    (leads : Leads rules source target path score) : path.getLast? = some target := by
  induction leads with
  | stay => rfl
  | step _ rest inductionHypothesis =>
      rw [List.getLast?_cons, inductionHypothesis]
      rfl

namespace UnaryClosure

/-- The chains of a closure from one label to another. -/
def chainsBetween {σ : Type} (closure : UnaryClosure σ) (parent child : LabelId) :
    List (UnaryChain σ) :=
  closure.chains.filter fun chain => chain.parent == parent && chain.child == child

section

variable {σ : Type} [Score σ] {rules : List (UnaryRule σ)} {count : Nat} {source : LabelId}
  {chains : List (UnaryChain σ)}

omit [Score σ] in
theorem mem_chainsBetween {closure : UnaryClosure σ} {parent child : LabelId}
    {chain : UnaryChain σ} :
    chain ∈ closure.chainsBetween parent child ↔
      chain ∈ closure.chains ∧ chain.parent = parent ∧ chain.child = child := by
  simp [chainsBetween]

/-! ## Order -/

/-- The chains from one source are ordered by child. -/
theorem pairwise_chainsFrom (collected : chainsFrom rules count source = .ok chains) :
    chains.Pairwise UnaryChain.Before := by
  rcases chainsFrom_eq_ok_iff.mp collected with ⟨-, toLabels⟩
  refine pairwise_collectAll List.pairwise_lt_range ?each ?across toLabels
  case each =>
    intro child own ownCollected
    rcases chainTo_eq_ok_iff.mp ownCollected with ⟨-, rfl⟩ | ⟨-, path, -, -, rfl⟩
    · exact List.Pairwise.nil
    · exact List.pairwise_singleton _ _
  case across =>
    intro first second own others less ownCollected othersCollected one member other otherMember
    obtain ⟨parent, rfl, -⟩ := (mem_chainTo ownCollected).mp member
    obtain ⟨otherParent, rfl, -⟩ := (mem_chainTo othersCollected).mp otherMember
    exact Or.inr ⟨parent.trans otherParent.symm, less⟩

/-- The chains of a grammar are ordered. -/
theorem pairwise_chainsOf {grammar : Grammar σ} (collected : chainsOf grammar = .ok chains) :
    chains.Pairwise UnaryChain.Before := by
  refine pairwise_collectAll List.pairwise_lt_range (fun _ _ => pairwise_chainsFrom) ?across
    collected
  case across =>
    intro first second own others less ownCollected othersCollected one member other otherMember
    obtain ⟨rfl, -⟩ := (mem_chainsFrom ownCollected).mp member
    obtain ⟨rfl, -⟩ := (mem_chainsFrom othersCollected).mp otherMember
    exact Or.inl less

/-- The chains of the closure of a grammar are ordered. -/
theorem pairwise_ofGrammar {grammar : Grammar σ} {closure : UnaryClosure σ}
    (closed : ofGrammar grammar = .ok closure) :
    closure.chains.Pairwise UnaryChain.Before := by
  obtain ⟨chains, collected, -, rfl⟩ := ofGrammar_eq_ok_iff.mp closed
  exact pairwise_chainsOf collected

omit [Score σ] in
/-- Chains that are ordered join different labels. -/
theorem nodup_ends_of_pairwise (ordered : chains.Pairwise UnaryChain.Before) :
    (chains.map UnaryChain.ends).Nodup := by
  rw [List.nodup_iff_pairwise_ne, List.pairwise_map]
  exact ordered.imp fun before => before.ends_ne

omit [Score σ] in
/-- In an ordered list no two chains are between the same labels. -/
theorem chainsBetween_eq_singleton {closure : UnaryClosure σ}
    (ordered : closure.chains.Pairwise UnaryChain.Before) {chain : UnaryChain σ}
    (member : chain ∈ closure.chains) :
    closure.chainsBetween chain.parent chain.child = [chain] := by
  have found := mem_chainsBetween.mpr ⟨member, rfl, rfl⟩
  have same {other : UnaryChain σ}
      (between : other ∈ closure.chainsBetween chain.parent chain.child) :=
    (mem_chainsBetween.mp between).2
  have remaining : (closure.chainsBetween chain.parent chain.child).Pairwise
      UnaryChain.Before := ordered.filter _
  match listed : closure.chainsBetween chain.parent chain.child with
  | [] => simp [listed] at found
  | [only] =>
      rw [listed, List.mem_singleton] at found
      rw [found]
  | first :: second :: rest =>
      rw [listed] at same remaining
      rcases same List.mem_cons_self with ⟨firstParent, firstChild⟩
      rcases same (List.mem_cons_of_mem first List.mem_cons_self) with
        ⟨secondParent, secondChild⟩
      rcases List.rel_of_pairwise_cons remaining List.mem_cons_self with less | ⟨-, less⟩
      · rw [firstParent, secondParent] at less
        exact absurd less (Nat.lt_irrefl _)
      · rw [firstChild, secondChild] at less
        exact absurd less (Nat.lt_irrefl _)

end

/-! ## Declared grammars -/

variable {grammar : Grammar ExactScore}

section

variable (wellFormed : grammar.WellFormed)

include wellFormed

/-- What is reached at a finite score has a path, which visits no label twice. -/
theorem exists_path?_of_isFinite {source child : LabelId}
    (inside : source < grammar.labels.size)
    (finite : Score.isFinite ((Reach.best (UnaryRule.roundOrder grammar.unary)
      grammar.labels.size source).score child) = true) :
    ∃ path, (Reach.best (UnaryRule.roundOrder grammar.unary) grammar.labels.size
      source).path? source child = some path ∧ path.Nodup := by
  apply Reach.exists_path?_best inside wellFormed.roundOrder_nonpos wellFormed.roundOrder_known
  intro same
  rw [same] at finite
  cases finite

/-- The chains of every well-formed grammar can be collected. -/
theorem exists_chainsOf : ∃ chains, chainsOf grammar = .ok chains := by
  refine exists_collectAll_iff.mpr fun source member => ?_
  have inside := List.mem_range.mp member
  have settled := Reach.isSettled_best inside wellFormed.roundOrder_nonpos
    wellFormed.roundOrder_known
  have each : ∃ own, collectAll (chainTo (Reach.best (UnaryRule.roundOrder grammar.unary)
      grammar.labels.size source) source) (List.range grammar.labels.size) = .ok own := by
    refine exists_collectAll_iff.mpr fun child _ => ?_
    by_cases skipped : child = source ∨ Score.isFinite ((Reach.best
        (UnaryRule.roundOrder grammar.unary) grammar.labels.size source).score child) = false
    · exact ⟨[], chainTo_eq_ok_iff.mpr (Or.inl ⟨skipped, rfl⟩)⟩
    · rw [not_or, Bool.not_eq_false] at skipped
      obtain ⟨path, found, -⟩ := exists_path?_of_isFinite wellFormed inside skipped.2
      have valid : Score.isLogProbability ((Reach.best (UnaryRule.roundOrder grammar.unary)
          grammar.labels.size source).score child) = true := by
        have nonpos := (Reach.sound_best inside wellFormed.roundOrder_nonpos).nonpos child
        rw [Score.isLogProbability, skipped.2, decide_eq_true nonpos]
        rfl
      exact ⟨_, chainTo_eq_ok_iff.mpr (Or.inr ⟨skipped, path, found, valid, rfl⟩)⟩
  rcases each with ⟨own, ownCollected⟩
  exact ⟨own, chainsFrom_eq_ok_iff.mpr ⟨settled, ownCollected⟩⟩

/-- The chains of a grammar visit no label twice. -/
theorem nodup_path_of_chainsOf {chains : List (UnaryChain ExactScore)}
    (collected : chainsOf grammar = .ok chains) {chain : UnaryChain ExactScore}
    (member : chain ∈ chains) : chain.path.Nodup := by
  obtain ⟨⟨known, -⟩, -, score, valid, found⟩ := (mem_chainsOf collected).mp member
  have finite := (Bool.and_eq_true_iff.mp valid).1
  rw [score] at finite
  obtain ⟨path, pathFound, distinct⟩ := exists_path?_of_isFinite wellFormed known finite
  obtain rfl := Option.some.inj (pathFound.symm.trans found)
  exact distinct

end

/-- The pairs of different labels that unary rules join. -/
def joined (grammar : Grammar ExactScore) : Set (LabelId × LabelId) :=
  {ends | ends.1 ≠ ends.2 ∧
    ∃ path score, UnaryRule.Leads grammar.unary ends.1 ends.2 path score}

/-- Only labels of the grammar are joined. -/
theorem joined_subset (wellFormed : grammar.WellFormed) :
    joined grammar ⊆
      (Finset.range grammar.labels.size ×ˢ Finset.range grammar.labels.size : Finset _) := by
  rintro ⟨parent, child⟩ ⟨different, path, score, leads⟩
  obtain ⟨⟨first, firstMember, rfl⟩, last, lastMember, rfl⟩ := leads.exists_rules different
  simp [(wellFormed.unaryKnown first firstMember).1, (wellFormed.unaryKnown last lastMember).2]

theorem finite_joined (wellFormed : grammar.WellFormed) : (joined grammar).Finite :=
  (Finset.finite_toSet _).subset (joined_subset wellFormed)

/-- No more pairs are joined than there are pairs of labels. -/
theorem ncard_joined_le (wellFormed : grammar.WellFormed) :
    (joined grammar).ncard ≤ grammar.labels.size * grammar.labels.size := by
  have bound := Set.ncard_le_ncard (joined_subset wellFormed) (Finset.finite_toSet _)
  rw [Set.ncard_coe_finset, Finset.card_product, Finset.card_range] at bound
  exact bound

section

variable (wellFormed : grammar.WellFormed) {chains : List (UnaryChain ExactScore)}
  (collected : chainsOf grammar = .ok chains)

include wellFormed collected

/-- Rules join the ends of the chains of a grammar and no other labels. -/
theorem joined_eq : joined grammar = ((chains.map UnaryChain.ends).toFinset : Set _) := by
  have faithful := faithful_chainsOf wellFormed collected
  ext ⟨parent, child⟩
  rw [List.coe_toFinset, Set.mem_ofPred_eq, List.mem_map]
  constructor
  · rintro ⟨different, path, score, leads⟩
    obtain ⟨chain, held, rfl, rfl, -⟩ := faithful.best different leads
    exact ⟨chain, held, rfl⟩
  · rintro ⟨chain, held, ⟨⟩⟩
    obtain ⟨-, different, -⟩ := (mem_chainsOf collected).mp held
    exact ⟨different.symm, _, _, faithful.leads chain held⟩

/-- There is one chain for every two labels that rules join. -/
theorem length_chainsOf : chains.length = (joined grammar).ncard := by
  rw [joined_eq wellFormed collected, Set.ncard_coe_finset,
    List.toFinset_card_of_nodup (nodup_ends_of_pairwise (pairwise_chainsOf collected)),
    List.length_map]

/-- One chain is held between two labels that rules join.  It scores best of all chains of rules
between them and visits no label twice. -/
theorem exists_best_of_leads {closure : UnaryClosure ExactScore}
    (holds : closure.chains = chains) {parent child : LabelId} (different : parent ≠ child)
    (leads : ∃ path score, UnaryRule.Leads grammar.unary parent child path score) :
    ∃ chain, closure.chainsBetween parent child = [chain] ∧
      IsGreatest {score | ∃ path, UnaryRule.Leads grammar.unary parent child path score}
        chain.score ∧
      chain.path.head? = some parent ∧ chain.path.getLast? = some child ∧
      chain.path.Nodup ∧
      UnaryRule.Leads grammar.unary parent child chain.path chain.score := by
  subst holds
  have faithful := faithful_chainsOf wellFormed collected
  rcases leads with ⟨path, score, leads⟩
  rcases faithful.best different leads with ⟨chain, held, rfl, rfl, -⟩
  have own := faithful.leads chain held
  have single := chainsBetween_eq_singleton (pairwise_chainsOf collected) held
  refine ⟨chain, single, ⟨⟨_, own⟩, ?_⟩, ?_, own.getLast?_path,
    nodup_path_of_chainsOf wellFormed collected held, own⟩
  · rintro other ⟨otherPath, otherLeads⟩
    rcases faithful.best different otherLeads with ⟨found, foundHeld, parent, child, le⟩
    have foundSingle := chainsBetween_eq_singleton (pairwise_chainsOf collected) foundHeld
    rw [parent, child, single] at foundSingle
    rw [List.singleton_inj.mp foundSingle]
    exact le
  · rcases own.exists_cons with ⟨rest, starts⟩
    rw [starts]
    rfl

end

/-- Relaxation needs no more rounds than there are labels in proper rules, less one. -/
theorem best_eq_settle_of_covered (wellFormed : grammar.WellFormed) {labels : List LabelId}
    (covered : ∀ rule ∈ grammar.unary, rule.parent ≠ rule.child →
      rule.parent ∈ labels ∧ rule.child ∈ labels) {source : LabelId}
    (inside : source < grammar.labels.size) :
    Reach.best (UnaryRule.roundOrder grammar.unary) grammar.labels.size source =
      Reach.settle (UnaryRule.roundOrder grammar.unary) (labels.length - 1)
        (Reach.start grammar.labels.size source) := by
  have listed : ∀ rule ∈ UnaryRule.roundOrder grammar.unary,
      rule.parent ∈ labels ∧ rule.child ∈ labels := by
    intro rule member
    rcases UnaryRule.mem_roundOrder.mp member with ⟨held, proper⟩
    exact covered rule held fun same => by simp [UnaryRule.isLoop, same] at proper
  exact Reach.best_eq_settle inside wellFormed.roundOrder_nonpos wellFormed.roundOrder_known
    listed (Nat.le_add_of_sub_le (Nat.le_refl _))

/-- Every declared grammar has a closure, unless its rules join more pairs of labels than a
chart can refer to.  Relaxation needs no more rounds than there are labels in proper rules,
less one.  The closure holds no chain from a label to itself and none between labels that no
rules join.  Between other labels it holds one chain, which scores best of all chains of rules
and visits no label twice. -/
theorem ofGrammar_exact (declared : grammar.IsDeclared) :
    (joined grammar).Finite ∧
    (ruleLimit < (joined grammar).ncard →
      ofGrammar grammar = .error (.tooManyRules ruleLimit)) ∧
    ((joined grammar).ncard ≤ ruleLimit → ∃ closure, ofGrammar grammar = .ok closure ∧
      (∀ labels : List LabelId,
        (∀ rule ∈ grammar.unary, rule.parent ≠ rule.child →
          rule.parent ∈ labels ∧ rule.child ∈ labels) →
        ∀ source < grammar.labels.size,
          Reach.best (UnaryRule.roundOrder grammar.unary) grammar.labels.size source =
            Reach.settle (UnaryRule.roundOrder grammar.unary) (labels.length - 1)
              (Reach.start grammar.labels.size source)) ∧
      (∀ chain ∈ closure.chains, chain.parent ≠ chain.child) ∧
      ∀ parent child, parent ≠ child →
        ((¬∃ path score, UnaryRule.Leads grammar.unary parent child path score) →
          closure.chainsBetween parent child = []) ∧
        ((∃ path score, UnaryRule.Leads grammar.unary parent child path score) →
          ∃ chain, closure.chainsBetween parent child = [chain] ∧
            IsGreatest
              {score | ∃ path, UnaryRule.Leads grammar.unary parent child path score}
              chain.score ∧
            chain.path.head? = some parent ∧ chain.path.getLast? = some child ∧
            chain.path.Nodup ∧
            UnaryRule.Leads grammar.unary parent child chain.path chain.score)) := by
  have wellFormed := Grammar.wellFormed_of_isDeclared declared
  rcases exists_chainsOf wellFormed with ⟨chains, collected⟩
  have faithful := faithful_chainsOf wellFormed collected
  have closed := ofGrammar_of_chainsOf collected
  rw [length_chainsOf wellFormed collected] at closed
  refine ⟨finite_joined wellFormed,
    fun tooMany => closed.trans (if_neg (Nat.not_le.mpr tooMany)),
    fun numbered => ⟨_, closed.trans (if_pos numbered),
      fun labels covered source inside => best_eq_settle_of_covered wellFormed covered inside,
      ?proper, ?between⟩⟩
  case proper =>
    intro chain held
    obtain ⟨-, different, -⟩ := (mem_chainsOf collected).mp held
    exact different.symm
  case between =>
    refine fun parent child different =>
      ⟨?_, exists_best_of_leads wellFormed collected rfl different⟩
    intro apart
    rw [List.eq_nil_iff_forall_not_mem]
    intro chain member
    rcases mem_chainsBetween.mp member with ⟨held, rfl, rfl⟩
    exact apart ⟨_, _, faithful.leads chain held⟩

/-- A grammar whose unary rules go round at score zero, with a loop and a rule that a
chain beats. -/
def cyclicGrammar : Grammar ExactScore :=
  .merge "ROOT"
    [.unary "ROOT" "A" (.finite (mkRat 0 1)), .unary "A" "B" (.finite (mkRat 0 1)),
      .unary "B" "A" (.finite (mkRat 0 1)), .unary "B" "B" (.finite (mkRat (-1) 3)),
      .unary "ROOT" "B" (.finite (mkRat (-1) 2))]

theorem ofGrammar_exact_cyclicGrammar :
    ∃ closure chain, ofGrammar cyclicGrammar = .ok closure ∧
      closure.chainsBetween 0 2 = [chain] ∧ chain.path.Nodup ∧
      IsGreatest {score | ∃ path, UnaryRule.Leads cyclicGrammar.unary 0 2 path score}
        chain.score := by
  have declared : cyclicGrammar.IsDeclared :=
    ⟨"ROOT", _, Grammar.declare_eq_ok_iff.mpr ⟨by decide +kernel, rfl⟩⟩
  obtain ⟨closure, closed, -, -, between⟩ := (ofGrammar_exact declared).2.2
    ((ncard_joined_le (Grammar.wellFormed_of_isDeclared declared)).trans (by decide))
  have direct : (⟨0, 2, .finite (mkRat (-1) 2)⟩ : UnaryRule ExactScore) ∈
      cyclicGrammar.unary := Grammar.exists_of_unaryScore? (by decide +kernel)
  rcases (between 0 2 (by decide)).2 ⟨_, _, .step direct (.stay 2)⟩ with
    ⟨chain, single, best, -, -, distinct, -⟩
  exact ⟨closure, chain, closed, single, distinct, best⟩

/-! ## Rules that join too many labels -/

/-- Unary rules lead from each of a number of labels to the root, and from there to each. -/
def crossroads (count : Nat) : List (Declaration ExactScore) :=
  (List.range count).flatMap fun number =>
    [.unary (Sample.strokes number) "ROOT" 0, .unary "ROOT" (Sample.strokes number) 0]

theorem mem_crossroads {count : Nat} {declaration : Declaration ExactScore} :
    declaration ∈ crossroads count ↔ ∃ number < count,
      declaration = .unary (Sample.strokes number) "ROOT" 0 ∨
        declaration = .unary "ROOT" (Sample.strokes number) 0 := by
  simp [crossroads]

theorem declarationError?_crossroads (count : Nat) :
    Grammar.declarationError? (crossroads count) = none := by
  rw [Grammar.declarationError?_eq_none_iff]
  constructor
  · intro declaration declared
    rcases mem_crossroads.mp declared with ⟨number, -, rfl | rfl⟩ <;> rfl
  · intro declaration declared
    rcases mem_crossroads.mp declared with ⟨number, -, rfl | rfl⟩ <;> rfl

theorem isDeclared_crossroads (count : Nat) :
    (Grammar.merge "ROOT" (crossroads count)).IsDeclared := by
  have noBinary (labels : Vocabulary) :
      (crossroads count).filterMap (Declaration.binaryEntry? labels) = [] := by
    rw [List.filterMap_eq_nil_iff]
    intro declaration declared
    rcases mem_crossroads.mp declared with ⟨number, -, rfl | rfl⟩ <;> rfl
  have merged := Grammar.length_binary_merge_le "ROOT" (crossroads count)
  rw [noBinary] at merged
  exact ⟨"ROOT", _, Grammar.declare_eq_ok_iff.mpr
    ⟨⟨declarationError?_crossroads count, merged.trans (Nat.zero_le _)⟩, rfl⟩⟩

/-- Any two labels are joined through the root. -/
theorem exists_joined_crossroads {count first second : Nat} (firstKnown : first < count)
    (secondKnown : second < count) (different : first ≠ second) :
    ∃ ends ∈ joined (Grammar.merge "ROOT" (crossroads count)),
      (Grammar.merge "ROOT" (crossroads count)).labels.name ends.1 = Sample.strokes first ∧
      (Grammar.merge "ROOT" (crossroads count)).labels.name ends.2 = Sample.strokes second := by
  have wellFormed := Grammar.wellFormed_of_isDeclared (isDeclared_crossroads count)
  have accepted := declarationError?_crossroads count
  obtain ⟨up, upListed, upParent, upChild, -⟩ := Grammar.exists_unary_of_declaration accepted
    (mem_crossroads.mpr ⟨first, firstKnown, Or.inl rfl⟩)
  obtain ⟨down, downListed, downParent, downChild, -⟩ := Grammar.exists_unary_of_declaration
    accepted (mem_crossroads.mpr ⟨second, secondKnown, Or.inr rfl⟩)
  have meet : up.child = down.parent := Vocabulary.name_injective wellFormed.distinct
    (wellFormed.unaryKnown up upListed).2 (wellFormed.unaryKnown down downListed).1
    (upChild.trans downParent.symm)
  have below := UnaryRule.Leads.step downListed (.stay down.child)
  rw [← meet] at below
  have leads := UnaryRule.Leads.step upListed below
  refine ⟨(up.parent, down.child), ⟨?_, _, _, leads⟩, upParent, downChild⟩
  intro same
  exact different (Sample.strokes_inj (upParent.symm.trans ((congrArg _ same).trans downChild)))

/-- At least as many labels are joined as there are pairs of different numbers. -/
theorem le_ncard_joined_crossroads (count : Nat) :
    count * count - count ≤ (joined (Grammar.merge "ROOT" (crossroads count))).ncard := by
  let grammar := Grammar.merge "ROOT" (crossroads count)
  let names (ends : LabelId × LabelId) : String × String :=
    (grammar.labels.name ends.1, grammar.labels.name ends.2)
  let strokes (numbers : Nat × Nat) : String × String :=
    (Sample.strokes numbers.1, Sample.strokes numbers.2)
  have finite : (joined grammar).Finite :=
    finite_joined (Grammar.wellFormed_of_isDeclared (isDeclared_crossroads count))
  have injective : Function.Injective strokes := fun first second same =>
    Prod.ext (Sample.strokes_inj (Prod.mk.inj same).1) (Sample.strokes_inj (Prod.mk.inj same).2)
  have named : (((Finset.range count).offDiag.image strokes : Finset _) : Set _) ⊆
      names '' joined grammar := by
    intro pair member
    rw [Finset.mem_coe, Finset.mem_image] at member
    obtain ⟨⟨first, second⟩, listed, rfl⟩ := member
    rw [Finset.mem_offDiag, Finset.mem_range, Finset.mem_range] at listed
    obtain ⟨ends, join, firstNamed, secondNamed⟩ :=
      exists_joined_crossroads listed.1 listed.2.1 listed.2.2
    exact ⟨ends, join, Prod.ext firstNamed secondNamed⟩
  calc
    count * count - count
    _ = ((Finset.range count).offDiag.image strokes).card := by
      rw [Finset.card_image_of_injective _ injective, Finset.offDiag_card, Finset.card_range]
    _ ≤ (names '' joined grammar).ncard := by
      rw [← Set.ncard_coe_finset]
      exact Set.ncard_le_ncard named (finite.image names)
    _ ≤ (joined grammar).ncard := Set.ncard_image_le finite

/-- The rules of 65537 labels to the root and back are accepted, but they join too many labels
for a closure. -/
theorem ofGrammar_crossroads :
    (Grammar.merge "ROOT" (crossroads 65537)).IsDeclared ∧
    ofGrammar (Grammar.merge "ROOT" (crossroads 65537)) =
      .error (.tooManyRules 4294967294) := by
  have declared := isDeclared_crossroads 65537
  have wellFormed := Grammar.wellFormed_of_isDeclared declared
  rcases exists_chainsOf wellFormed with ⟨chains, collected⟩
  have tooMany : ruleLimit < chains.length := by
    rw [length_chainsOf wellFormed collected]
    exact Nat.lt_of_lt_of_le (by decide) (le_ncard_joined_crossroads 65537)
  refine ⟨declared, ?_⟩
  rw [ofGrammar_of_chainsOf collected, if_neg (Nat.not_le.mpr tooMany)]
  rfl

end UnaryClosure

end ChartParsing
