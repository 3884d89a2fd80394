import ChartParsing.Chart.Derivation
import ChartParsing.Chart.Outside
import ChartParsing.Proofs.Score.Congruence
import ChartParsing.Proofs.Unary.Closure

/-!
# Reflexive closures

Making a closure reflexive adds a chain without steps for every label, behind all the
chains there are: these keep their numbers, and doing it again adds nothing.  In a chart
the new chain takes the place of the constituent as built, which is tried last as well, so
that the best closing and the best opening of a label come out as before
(`UnaryClosure.LoopFree.alike_iterate_reflexive`).  Scores are compared up to a congruence, because
the new chain adds a zero.
-/

namespace ChartParsing

/-- Two closings put the same nodes on top of the same constituent. -/
def Closing.Alike {σ : Type} (label : LabelId) (closing other : Closing σ) : Prop :=
  closing.base label = other.base label ∧ closing.above = other.above

namespace UnaryClosure

variable {σ : Type} [Score σ]

/-! ## Adding chains without steps -/

/-- A reflexive closure has a loop at every label. -/
theorem hasLoop_reflexive (closure : UnaryClosure σ) {label : LabelId}
    (known : label < closure.labelCount) : closure.reflexive.hasLoop label = true := by
  unfold hasLoop
  rw [List.any_eq_true]
  cases looped : closure.hasLoop label with
  | true =>
      rcases List.any_eq_true.mp looped with ⟨chain, member, found⟩
      exact ⟨chain, List.mem_append_left _ member, found⟩
  | false =>
      have missing : label ∈ (List.range closure.labelCount).filter (!closure.hasLoop ·) :=
        List.mem_filter.mpr ⟨List.mem_range.mpr known, by rw [looped]; rfl⟩
      exact ⟨noStep label, List.mem_append_right _ (List.mem_map_of_mem missing),
        by simp [noStep, UnaryChain.isReflexive]⟩

/-- Making a closure reflexive a second time leaves it unchanged. -/
theorem reflexive_reflexive (closure : UnaryClosure σ) :
    closure.reflexive.reflexive = closure.reflexive := by
  have count : closure.reflexive.labelCount = closure.labelCount := labelCount_ofChains _ _
  have noneMissing : (List.range closure.reflexive.labelCount).filter
      (!closure.reflexive.hasLoop ·) = [] := by
    rw [List.filter_eq_nil_iff]
    intro label member
    rw [List.mem_range, count] at member
    rw [closure.hasLoop_reflexive member]
    exact Bool.false_ne_true
  change ofChains closure.reflexive.labelCount (closure.reflexive.chains ++
    ((List.range closure.reflexive.labelCount).filter
      (!closure.reflexive.hasLoop ·)).map noStep) = closure.reflexive
  rw [noneMissing, count, List.map_nil, List.append_nil]
  rfl

/-- However often a closure is made reflexive, it is so after the first time. -/
theorem iterate_succ_reflexive (closure : UnaryClosure σ) (times : Nat) :
    reflexive^[times + 1] closure = closure.reflexive :=
  Function.iterate_fixed closure.reflexive_reflexive times

/-- Pushing loops any number of times makes the closure of a grammar reflexive, if there are
numbers for all of its chains, and fails otherwise. -/
theorem iterate_withLoops {grammar : Grammar σ} {closure : UnaryClosure σ}
    (closed : ofGrammar grammar = .ok closure) (times : Nat) :
    (fun made => made >>= withLoops)^[times + 1] (.ok closure) =
      if closure.reflexive.chains.length ≤ ruleLimit then .ok (reflexive^[times + 1] closure)
      else .error (.tooManyRules ruleLimit) := by
  rw [iterate_succ_reflexive]
  induction times with
  | zero =>
      obtain ⟨chains, -, numbered, rfl⟩ := ofGrammar_eq_ok_iff.mp closed
      exact withLoops_ofChains numbered
  | succ times inductionHypothesis =>
      rw [Function.iterate_succ_apply', inductionHypothesis]
      split
      · rename_i numbered
        have again : closure.reflexive.withLoops =
            if closure.reflexive.reflexive.chains.length ≤ ruleLimit then
              .ok closure.reflexive.reflexive
            else .error (.tooManyRules ruleLimit) := withLoops_ofChains numbered
        rw [reflexive_reflexive, if_pos numbered] at again
        exact again
      · rfl

/-- However often a closure is made reflexive, its chains keep their numbers. -/
theorem chains_iterate_reflexive (closure : UnaryClosure σ) (times : Nat) {number : Nat}
    {chain : UnaryChain σ} (found : closure.chains[number]? = some chain) :
    (reflexive^[times] closure).chains[number]? = some chain := by
  cases times with
  | zero => exact found
  | succ times =>
      rcases List.getElem?_eq_some_iff.mp found with ⟨inside, -⟩
      rw [iterate_succ_reflexive]
      exact (List.getElem?_append_left inside).trans found

/-! ## Closures without loops -/

/-- A closure over `count` labels in which no chain ends where it starts. -/
structure LoopFree (closure : UnaryClosure σ) (count : Nat) : Prop where
  indexed : closure = ofChains count closure.chains
  proper : ∀ chain ∈ closure.chains, chain.parent ≠ chain.child

/-- The closure of a grammar has no loops. -/
theorem loopFree_ofGrammar {grammar : Grammar σ} {closure : UnaryClosure σ}
    (closed : ofGrammar grammar = .ok closure) : closure.LoopFree grammar.labels.size := by
  obtain ⟨chains, collected, -, rfl⟩ := ofGrammar_eq_ok_iff.mp closed
  refine ⟨rfl, fun chain member => ?_⟩
  obtain ⟨-, different, -⟩ := (mem_chainsOf collected).mp member
  exact different.symm

namespace LoopFree

variable {closure : UnaryClosure σ} {count : Nat} (loopFree : closure.LoopFree count)

include loopFree

omit [Score σ] in
theorem labelCount_eq : closure.labelCount = count := by
  rw [loopFree.indexed, labelCount_ofChains]

omit [Score σ] in
theorem isReflexive_eq_false {chain : UnaryChain σ} (member : chain ∈ closure.chains) :
    chain.isReflexive = false :=
  beq_eq_false_iff_ne.mpr (loopFree.proper chain member)

/-- Every label lacks a loop. -/
theorem reflexive_eq :
    closure.reflexive = ofChains count (closure.chains ++ (List.range count).map noStep) := by
  have allMissing : (List.range count).filter (!closure.hasLoop ·) = List.range count := by
    rw [List.filter_eq_self]
    intro label _
    have noLoop : closure.hasLoop label = false := by
      unfold hasLoop
      rw [List.any_eq_false]
      intro chain member
      rw [loopFree.isReflexive_eq_false member, Bool.and_false]
      exact Bool.false_ne_true
    rw [noLoop]
    rfl
  unfold reflexive
  dsimp only
  rw [loopFree.labelCount_eq, allMissing]

end LoopFree

/-- Of the labels whose new chain a label may select, it selects itself. -/
theorem filter_range_noStep {count : Nat} {key : UnaryChain σ → LabelId}
    (ofLoop : ∀ label, key (noStep label) = label) {label : LabelId} (known : label < count) :
    (List.range count).filter (fun other => key (noStep other) == label) = [label] := by
  simp only [ofLoop]
  rw [List.filter_beq, List.count_eq_one_of_mem List.nodup_range (List.mem_range.mpr known)]
  rfl

/-- Of the new chains, one is selected for a label. -/
theorem filter_append_noStep {count : Nat} {key : UnaryChain σ → LabelId}
    (ofLoop : ∀ label, key (noStep label) = label) (chains : List (UnaryChain σ))
    {label : LabelId} (known : label < count) :
    (chains ++ (List.range count).map noStep).filter (fun chain => key chain == label) =
      chains.filter (fun chain => key chain == label) ++ [noStep label] := by
  rw [List.filter_append, List.filter_map]
  change _ ++ ((List.range count).filter fun other => key (noStep other) == label).map noStep = _
  rw [filter_range_noStep ofLoop known]
  rfl

/-! ## Closings and openings -/

/-- The best way to close a label by one of the given chains. -/
def bestByChain (chains : List (UnaryChain σ)) (built : Array (Best σ (Construction σ))) :
    Best σ (Closing σ) :=
  chains.foldl
    (fun best chain =>
      best.offer (chain.score + (built.getD chain.child Best.empty).score) (.byChain chain))
    Best.empty

/-- The best way to open a label by one of the given chains. -/
def bestFromParents (chains : List (UnaryChain σ)) (closed : Array σ) : σ :=
  chains.foldl
    (fun best chain => Score.better best (chain.score + closed.getD chain.parent impossible))
    impossible

/-- The best closing in terms of the chains from the label. -/
theorem bestClosing_ofChains {count : Nat} {chains : List (UnaryChain σ)} {label : LabelId}
    (known : label < count) (built : Array (Best σ (Construction σ))) :
    InsideChart.bestClosing (ofChains count chains) built label =
      let own := chains.filter (·.parent == label)
      if own.any (·.isReflexive) then bestByChain own built
      else (bestByChain own built).offer (built.getD label Best.empty).score .asBuilt := by
  have own := ChainIndex.map_snd_chains_select UnaryChain.parent chains known
  unfold InsideChart.bestClosing bestByChain
  dsimp only
  rw [← own, List.foldl_map, List.any_map]
  rfl

/-- The best opening in terms of the chains to the label. -/
theorem bestOpening_ofChains {count : Nat} {chains : List (UnaryChain σ)} {label : LabelId}
    (known : label < count) (closed : Array σ) :
    OutsideChart.bestOpening (ofChains count chains) closed label =
      let own := chains.filter (·.child == label)
      if own.any (·.isReflexive) then bestFromParents own closed
      else Score.better (bestFromParents own closed) (closed.getD label impossible) := by
  have own := ChainIndex.map_snd_chains_select UnaryChain.child chains known
  unfold OutsideChart.bestOpening bestFromParents
  dsimp only
  rw [← own, List.foldl_map, List.any_map]
  rfl

/-! ## Closures by which charts come out alike -/

/-- Two closures by which every label over `count` labels is closed and opened alike. -/
structure Alike (Same : σ → σ → Prop) (count : Nat) (closure other : UnaryClosure σ) :
    Prop where
  closing : ∀ label < count, ∀ built otherBuilt : Array (Best σ (Construction σ)),
    (∀ child, Best.Alike Same Eq (built.getD child Best.empty)
      (otherBuilt.getD child Best.empty)) →
    Best.Alike Same (Closing.Alike label) (InsideChart.bestClosing closure built label)
      (InsideChart.bestClosing other otherBuilt label)
  opening : ∀ label < count, ∀ closed otherClosed : Array σ,
    (∀ parent, Same (closed.getD parent impossible) (otherClosed.getD parent impossible)) →
    Same (OutsideChart.bestOpening closure closed label)
      (OutsideChart.bestOpening other otherClosed label)

section

variable {Same : σ → σ → Prop} (congruence : Score.Congruence Same)

include congruence

theorem bestByChain_alike {built otherBuilt : Array (Best σ (Construction σ))}
    (alike : ∀ child, Best.Alike Same Eq (built.getD child Best.empty)
      (otherBuilt.getD child Best.empty))
    (chains : List (UnaryChain σ)) (label : LabelId) :
    Best.Alike Same (Closing.Alike label) (bestByChain chains built)
      (bestByChain chains otherBuilt) := by
  unfold bestByChain
  apply List.foldl_rel (Best.Alike.empty congruence)
  intro chain _ best other soFar
  exact soFar.offer congruence
    (congruence.add (congruence.refl chain.score) (alike chain.child).score) ⟨rfl, rfl⟩

theorem bestFromParents_alike {closed otherClosed : Array σ}
    (alike : ∀ parent,
      Same (closed.getD parent impossible) (otherClosed.getD parent impossible))
    (chains : List (UnaryChain σ)) :
    Same (bestFromParents chains closed) (bestFromParents chains otherClosed) := by
  unfold bestFromParents
  apply List.foldl_rel (congruence.refl impossible)
  intro chain _ best other soFar
  exact congruence.better soFar
    (congruence.add (congruence.refl chain.score) (alike chain.parent))

/-- A closure without loops and its reflexive closure close and open alike: the chain
without steps is offered where the constituent as built would be. -/
theorem LoopFree.alike_reflexive {closure : UnaryClosure σ} {count : Nat}
    (loopFree : closure.LoopFree count) : Alike Same count closure.reflexive closure := by
  have noLoop (key : UnaryChain σ → LabelId) (label : LabelId) :
      (closure.chains.filter (key · == label)).any (·.isReflexive) = false := by
    rw [List.any_eq_false]
    intro chain member
    rw [loopFree.isReflexive_eq_false (List.mem_filter.mp member).1]
    exact Bool.false_ne_true
  have looped (own : List (UnaryChain σ)) (label : LabelId) :
      (own ++ [noStep label]).any (·.isReflexive) = true :=
    List.any_eq_true.mpr ⟨noStep label, List.mem_append_right own List.mem_cons_self,
      beq_self_eq_true label⟩
  rw [loopFree.reflexive_eq]
  obtain ⟨chains, rfl⟩ : ∃ chains, closure = ofChains count chains := ⟨_, loopFree.indexed⟩
  rw [chains_ofChains] at noLoop ⊢
  constructor
  case closing =>
    intro label known built otherBuilt alike
    have zeroAdded : Same (0 + (built.getD label Best.empty).score)
        (otherBuilt.getD label Best.empty).score :=
      congruence.equivalence.trans (congruence.zero_add _) (alike label).score
    rw [bestClosing_ofChains known, bestClosing_ofChains known]
    dsimp only
    rw [filter_append_noStep (fun _ => rfl) chains known, if_pos (looped _ label),
      noLoop UnaryChain.parent label, if_neg Bool.false_ne_true, bestByChain,
      List.foldl_append]
    exact (bestByChain_alike congruence alike _ label).offer congruence zeroAdded ⟨rfl, rfl⟩
  case opening =>
    intro label known closed otherClosed alike
    have zeroAdded : Same (0 + closed.getD label impossible)
        (otherClosed.getD label impossible) :=
      congruence.equivalence.trans (congruence.zero_add _) (alike label)
    rw [bestOpening_ofChains known, bestOpening_ofChains known]
    dsimp only
    rw [filter_append_noStep (fun _ => rfl) chains known, if_pos (looped _ label),
      noLoop UnaryChain.child label, if_neg Bool.false_ne_true, bestFromParents,
      List.foldl_append]
    exact congruence.better (bestFromParents_alike congruence alike _) zeroAdded

/-- A closure closes and opens like itself. -/
theorem LoopFree.alike_self {closure : UnaryClosure σ} {count : Nat}
    (loopFree : closure.LoopFree count) : Alike Same count closure closure := by
  obtain ⟨chains, rfl⟩ : ∃ chains, closure = ofChains count chains := ⟨_, loopFree.indexed⟩
  constructor
  case closing =>
    intro label known built otherBuilt alike
    rw [bestClosing_ofChains known, bestClosing_ofChains known]
    dsimp only
    have byChain := bestByChain_alike congruence alike (chains.filter (·.parent == label)) label
    split
    · exact byChain
    · exact byChain.offer congruence (alike label).score ⟨rfl, rfl⟩
  case opening =>
    intro label known closed otherClosed alike
    rw [bestOpening_ofChains known, bestOpening_ofChains known]
    dsimp only
    have fromParents :=
      bestFromParents_alike congruence alike (chains.filter (·.child == label))
    split
    · exact fromParents
    · exact congruence.better fromParents (alike label)

/-- Making a closure without loops reflexive any number of times changes no closing and no
opening. -/
theorem LoopFree.alike_iterate_reflexive {closure : UnaryClosure σ} {count : Nat}
    (loopFree : closure.LoopFree count) (times : Nat) :
    Alike Same count (reflexive^[times] closure) closure := by
  cases times with
  | zero => exact loopFree.alike_self congruence
  | succ times =>
      rw [iterate_succ_reflexive]
      exact loopFree.alike_reflexive congruence

end

end UnaryClosure

end ChartParsing
