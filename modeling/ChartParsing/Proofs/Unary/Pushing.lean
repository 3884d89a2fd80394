import Mathlib.Data.List.Nodup
import ChartParsing.Proofs.Computation
import ChartParsing.Unary.Closure

/-!
# Pushing chains

A closure is made by pushing chains, as long as there are numbers for them.  Which chains a
loop pushes does not depend on those that are there already (`UnaryClosure.Pushes`), so they
may as well be collected first: the closure of a grammar is that of the collected chains, and
without enough numbers for them it is refused (`UnaryClosure.ofGrammar_eq_ok_iff`,
`UnaryClosure.ofGrammar_eq_error`).

Chains without steps are pushed for the labels that lack a loop at first, and so make the
closure reflexive (`UnaryClosure.withLoops_ofChains`).
-/

namespace ChartParsing

/-! ## Collecting -/

section

variable {ε α β : Type}

/-- What there is for each of a list of items.  The first item for which there is an error
gives the error. -/
def collectAll (collect : α → Except ε (List β)) : List α → Except ε (List β)
  | [] => .ok []
  | item :: rest => do
      let own ← collect item
      let others ← collectAll collect rest
      return own ++ others

variable {collect : α → Except ε (List β)} {items : List α} {results : List β}

theorem collectAll_cons_eq_ok_iff {item : α} :
    collectAll collect (item :: items) = .ok results ↔
      ∃ own, collect item = .ok own ∧ ∃ others, collectAll collect items = .ok others ∧
        own ++ others = results := by
  simp only [collectAll, bind_eq_ok_iff, pure, Except.pure, Except.ok.injEq]

/-- What has been collected is there for one of the items. -/
theorem mem_collectAll (collected : collectAll collect items = .ok results) {result : β} :
    result ∈ results ↔ ∃ item ∈ items, ∃ own, collect item = .ok own ∧ result ∈ own := by
  induction items generalizing results with
  | nil =>
      obtain rfl := Except.ok.inj collected
      simp
  | cons item rest inductionHypothesis =>
      obtain ⟨own, ownCollected, others, othersCollected, rfl⟩ :=
        collectAll_cons_eq_ok_iff.mp collected
      rw [List.mem_append, inductionHypothesis othersCollected, List.exists_mem_cons_iff]
      simp only [ownCollected, Except.ok.injEq, exists_eq_left']

/-- Everything can be collected if it can be for each item. -/
theorem exists_collectAll_iff :
    (∃ results, collectAll collect items = .ok results) ↔
      ∀ item ∈ items, ∃ own, collect item = .ok own := by
  induction items with
  | nil => simp [collectAll]
  | cons item rest inductionHypothesis =>
      rw [List.forall_mem_cons, ← inductionHypothesis]
      simp only [collectAll_cons_eq_ok_iff]
      constructor
      · rintro ⟨_, own, ownCollected, others, othersCollected, -⟩
        exact ⟨⟨own, ownCollected⟩, others, othersCollected⟩
      · rintro ⟨⟨own, ownCollected⟩, others, othersCollected⟩
        exact ⟨own ++ others, own, ownCollected, others, othersCollected, rfl⟩

/-- What is collected is ordered if it is for each item and between any two of them. -/
theorem pairwise_collectAll {before : α → α → Prop} {related : β → β → Prop}
    (sorted : items.Pairwise before)
    (each : ∀ item own, collect item = .ok own → own.Pairwise related)
    (across : ∀ first second own others, before first second → collect first = .ok own →
      collect second = .ok others → ∀ one ∈ own, ∀ other ∈ others, related one other)
    (collected : collectAll collect items = .ok results) : results.Pairwise related := by
  induction items generalizing results with
  | nil =>
      obtain rfl := Except.ok.inj collected
      exact List.Pairwise.nil
  | cons item rest inductionHypothesis =>
      rcases List.pairwise_cons.mp sorted with ⟨least, restSorted⟩
      obtain ⟨own, ownCollected, others, othersCollected, rfl⟩ :=
        collectAll_cons_eq_ok_iff.mp collected
      refine List.pairwise_append.mpr ⟨each item own ownCollected,
        inductionHypothesis restSorted othersCollected, ?_⟩
      intro one member other otherMember
      obtain ⟨second, later, theirs, theirsCollected, inTheirs⟩ :=
        (mem_collectAll othersCollected).mp otherMember
      exact across item second own theirs (least second later) ownCollected theirsCollected one
        member other inTheirs

end

/-- Without their numbers, the chains selected for a label are those with the right
key. -/
theorem ChainIndex.map_snd_chains_select {σ : Type} {count : Nat}
    (key : UnaryChain σ → LabelId) (chains : List (UnaryChain σ)) {label : LabelId}
    (bounded : label < count) :
    ((select count key chains).chains label).map Prod.snd =
      chains.filter fun chain => key chain == label := by
  have plain : (numbered chains).map Prod.snd = chains := by
    rw [numbered, List.map_map]
    exact List.zipIdx_map_fst 0 chains
  rw [chains_select key chains bounded]
  calc
    ((numbered chains).filter fun entry => key entry.2 == label).map Prod.snd
    _ = ((numbered chains).map Prod.snd).filter fun chain => key chain == label := by
      rw [List.filter_map]
      rfl
    _ = chains.filter fun chain => key chain == label := by rw [plain]

namespace UnaryClosure

variable {σ : Type}

/-! ## Numbers for chains -/

section

variable {count : Nat} {chains : List (UnaryChain σ)}

@[simp]
theorem chains_ofChains (count : Nat) (chains : List (UnaryChain σ)) :
    (ofChains count chains).chains = chains :=
  rfl

@[simp]
theorem labelCount_ofChains (count : Nat) (chains : List (UnaryChain σ)) :
    (ofChains count chains).labelCount = count :=
  ChainIndex.size_select count _ chains

/-- Behind given chains comes one more. -/
theorem append_ofChains (count : Nat) (chains : List (UnaryChain σ)) (chain : UnaryChain σ) :
    (ofChains count chains).append chain = ofChains count (chains ++ [chain]) := by
  simp only [append, ofChains, ChainIndex.select_concat]

theorem push_ofChains (count : Nat) (chains : List (UnaryChain σ)) (chain : UnaryChain σ) :
    (ofChains count chains).push chain =
      if chains.length < ruleLimit then .ok (ofChains count (chains ++ [chain]))
      else .error (.tooManyRules chains.length) := by
  rw [push, append_ofChains, chains_ofChains]

/-- Push chains one after the other. -/
def pushAll (closure : UnaryClosure σ) (chains : List (UnaryChain σ)) :
    Except (ModelError σ) (UnaryClosure σ) :=
  chains.foldlM push closure

theorem pushAll_cons (closure : UnaryClosure σ) (chain : UnaryChain σ)
    (chains : List (UnaryChain σ)) :
    closure.pushAll (chain :: chains) =
      closure.push chain >>= fun pushed => pushed.pushAll chains :=
  List.foldlM_cons

theorem pushAll_append (closure : UnaryClosure σ) (chains others : List (UnaryChain σ)) :
    closure.pushAll (chains ++ others) =
      closure.pushAll chains >>= fun pushed => pushed.pushAll others :=
  List.foldlM_append

/-- Chains are pushed if there are numbers for all of them. -/
theorem pushAll_ofChains (numbered : chains.length ≤ ruleLimit)
    (others : List (UnaryChain σ)) :
    (ofChains count chains).pushAll others =
      if (chains ++ others).length ≤ ruleLimit then .ok (ofChains count (chains ++ others))
      else .error (.tooManyRules ruleLimit) := by
  induction others generalizing chains with
  | nil =>
      rw [List.append_nil, if_pos numbered]
      rfl
  | cons chain rest inductionHypothesis =>
      rw [pushAll_cons, push_ofChains]
      rcases Nat.lt_or_eq_of_le numbered with room | full
      · have behind : (chains ++ [chain]).length ≤ ruleLimit := by
          rw [List.length_append]
          exact room
        rw [if_pos room]
        change (ofChains count (chains ++ [chain])).pushAll rest = _
        rw [inductionHypothesis behind, List.append_assoc]
        rfl
      · have tooMany : ¬(chains ++ chain :: rest).length ≤ ruleLimit := by
          rw [List.length_append, List.length_cons]
          omega
        rw [if_neg (Nat.not_lt.mpr (Nat.le_of_eq full.symm)), if_neg tooMany, full]
        rfl

end

/-! ## Loops that push -/

/-- What a step of a loop does: it pushes the chains that can be collected for an item,
whatever the closure holds before. -/
structure Pushes {α : Type}
    (step : UnaryClosure σ → α → Except (ModelError σ) (UnaryClosure σ))
    (collect : α → Except (ModelError σ) (List (UnaryChain σ))) : Prop where
  step_eq : ∀ {item chains}, collect item = .ok chains →
    ∀ closure, step closure item = closure.pushAll chains
  collected : ∀ {closure item result}, step closure item = .ok result →
    ∃ chains, collect item = .ok chains

/-- A loop pushes what its steps push. -/
theorem Pushes.foldlM {α : Type}
    {step : UnaryClosure σ → α → Except (ModelError σ) (UnaryClosure σ)}
    {collect : α → Except (ModelError σ) (List (UnaryChain σ))} (pushes : Pushes step collect) :
    Pushes (fun closure items => items.foldlM step closure) (collectAll collect) where
  step_eq {items} := by
    induction items with
    | nil =>
        rintro _ ⟨⟩ closure
        rfl
    | cons item rest inductionHypothesis =>
        intro chains collected closure
        obtain ⟨own, ownCollected, others, othersCollected, rfl⟩ :=
          collectAll_cons_eq_ok_iff.mp collected
        rw [List.foldlM_cons, pushes.step_eq ownCollected, pushAll_append]
        simp only [inductionHypothesis othersCollected]
  collected {closure items result} := by
    intro looped
    rw [exists_collectAll_iff]
    induction items generalizing closure with
    | nil => simp
    | cons item rest inductionHypothesis =>
        rw [List.foldlM_cons] at looped
        rcases bind_eq_ok_iff.mp looped with ⟨pushed, first, others⟩
        exact List.forall_mem_cons.mpr ⟨pushes.collected first, inductionHypothesis others⟩

variable [Score σ]

/-! ## The chains of a grammar -/

/-- The best chain from a source to a label, if it leads elsewhere and the label is
reached. -/
def chainTo (reach : Reach σ) (source child : LabelId) :
    Except (ModelError σ) (List (UnaryChain σ)) :=
  let score := reach.score child
  if child = source ∨ Score.isFinite score = false then .ok []
  else
    match reach.path? source child with
    | none => .error .positiveCycle
    | some path =>
        if Score.isLogProbability score then .ok [⟨source, child, score, path⟩]
        else .error .positiveCycle

/-- The best chains from one source, ordered by child. -/
def chainsFrom (rules : List (UnaryRule σ)) (count : Nat) (source : LabelId) :
    Except (ModelError σ) (List (UnaryChain σ)) :=
  let reach := Reach.best rules count source
  if reach.isSettled rules then collectAll (chainTo reach source) (List.range count)
  else .error .positiveCycle

/-- The best chains between the labels of a grammar, ordered by parent and then by child. -/
def chainsOf (grammar : Grammar σ) : Except (ModelError σ) (List (UnaryChain σ)) :=
  let count := grammar.labels.size
  collectAll (chainsFrom (UnaryRule.roundOrder grammar.unary) count) (List.range count)

/-- Nothing is collected for the source and for labels that it does not reach, and one chain
for any other label, whose path is known and whose score is valid. -/
theorem chainTo_eq_ok_iff {reach : Reach σ} {source child : LabelId}
    {own : List (UnaryChain σ)} :
    chainTo reach source child = .ok own ↔
      (child = source ∨ Score.isFinite (reach.score child) = false) ∧ [] = own ∨
      (child ≠ source ∧ Score.isFinite (reach.score child) = true) ∧
        ∃ path, reach.path? source child = some path ∧
          Score.isLogProbability (reach.score child) = true ∧
          [⟨source, child, reach.score child, path⟩] = own := by
  have kept : (child ≠ source ∧ Score.isFinite (reach.score child) = true) ↔
      ¬(child = source ∨ Score.isFinite (reach.score child) = false) := by
    rw [not_or, Bool.not_eq_false]
  rw [kept]
  unfold chainTo
  dsimp only
  by_cases skipped : child = source ∨ Score.isFinite (reach.score child) = false
  · simp [skipped]
  · cases reach.path? source child with
    | none => simp [skipped]
    | some path => cases Score.isLogProbability (reach.score child) <;> simp [skipped]

/-- A step of the loop over the labels pushes what is collected for one. -/
theorem pushes_pushChain (reach : Reach σ) (source : LabelId) :
    Pushes (pushChain reach source) (chainTo reach source) where
  step_eq {child chains} := by
    intro collected closure
    unfold pushChain
    rcases chainTo_eq_ok_iff.mp collected with
      ⟨skipped, rfl⟩ | ⟨⟨different, finite⟩, path, found, valid, rfl⟩
    · simp only [if_pos skipped]
      rfl
    · have kept : ¬(child = source ∨ Score.isFinite (reach.score child) = false) := by
        simp [different, finite]
      simp only [if_neg kept, found, if_pos valid, pushAll_cons]
      cases closure.push _ <;> rfl
  collected {closure child result} := by
    intro pushed
    unfold pushChain at pushed
    unfold chainTo
    dsimp only at pushed ⊢
    split at pushed
    · rename_i skipped
      exact ⟨[], if_pos skipped⟩
    · rename_i kept
      rw [if_neg kept]
      cases found : reach.path? source child with
      | none => simp [found] at pushed
      | some path =>
          rw [found] at pushed
          dsimp only at pushed ⊢
          split at pushed
          · rename_i valid
            exact ⟨_, if_pos valid⟩
          · cases pushed

theorem pushes_pushChainsFrom (rules : List (UnaryRule σ)) (count : Nat) :
    Pushes (pushChainsFrom rules count) (chainsFrom rules count) where
  step_eq {source chains} := by
    intro collected closure
    unfold chainsFrom at collected
    unfold pushChainsFrom
    dsimp only at collected ⊢
    split at collected
    · rename_i settled
      rw [if_pos settled]
      exact (pushes_pushChain _ source).foldlM.step_eq collected closure
    · cases collected
  collected {closure source result} := by
    intro pushed
    unfold pushChainsFrom at pushed
    unfold chainsFrom
    dsimp only at pushed ⊢
    split at pushed
    · rename_i settled
      rw [if_pos settled]
      exact (pushes_pushChain _ source).foldlM.collected pushed
    · cases pushed

/-- The closure of a grammar is that of its chains, if there are numbers for them. -/
theorem ofGrammar_of_chainsOf {grammar : Grammar σ} {chains : List (UnaryChain σ)}
    (collected : chainsOf grammar = .ok chains) :
    ofGrammar grammar =
      if chains.length ≤ ruleLimit then .ok (ofChains grammar.labels.size chains)
      else .error (.tooManyRules ruleLimit) :=
  calc
    ofGrammar grammar
    _ = (ofChains grammar.labels.size []).pushAll chains :=
      (pushes_pushChainsFrom _ _).foldlM.step_eq collected _
    _ = if chains.length ≤ ruleLimit then .ok (ofChains grammar.labels.size chains)
        else .error (.tooManyRules ruleLimit) :=
      @pushAll_ofChains _ _ [] (Nat.zero_le ruleLimit) chains

/-- A closure holds the chains of its grammar. -/
theorem ofGrammar_eq_ok_iff {grammar : Grammar σ} {closure : UnaryClosure σ} :
    ofGrammar grammar = .ok closure ↔
      ∃ chains, chainsOf grammar = .ok chains ∧ chains.length ≤ ruleLimit ∧
        ofChains grammar.labels.size chains = closure := by
  constructor
  · intro closed
    obtain ⟨chains, collected⟩ := (pushes_pushChainsFrom _ _).foldlM.collected closed
    change chainsOf grammar = .ok chains at collected
    rw [ofGrammar_of_chainsOf collected] at closed
    split at closed
    · rename_i numbered
      exact ⟨chains, collected, numbered, Except.ok.inj closed⟩
    · cases closed
  · rintro ⟨chains, collected, numbered, rfl⟩
    rw [ofGrammar_of_chainsOf collected, if_pos numbered]

/-- A chain to a label that is collected leads there from the source, as reached. -/
theorem mem_chainTo {reach : Reach σ} {source child : LabelId} {own : List (UnaryChain σ)}
    (collected : chainTo reach source child = .ok own) {chain : UnaryChain σ} :
    chain ∈ own ↔
      chain.parent = source ∧ chain.child = child ∧ child ≠ source ∧
        chain.score = reach.score child ∧ Score.isLogProbability chain.score = true ∧
        reach.path? source child = some chain.path := by
  rcases chainTo_eq_ok_iff.mp collected with
    ⟨skipped, rfl⟩ | ⟨⟨different, -⟩, path, found, valid, rfl⟩
  · simp only [List.not_mem_nil, false_iff]
    rintro ⟨-, -, different, score, valid, -⟩
    rcases skipped with same | infinite
    · exact different same
    · rw [score, Score.isLogProbability, infinite] at valid
      cases valid
  · rw [List.mem_singleton]
    constructor
    · rintro rfl
      exact ⟨rfl, rfl, different, rfl, valid, found⟩
    · rintro ⟨rfl, rfl, -, score, -, same⟩
      rw [Option.some.inj (found.symm.trans same), ← score]

theorem chainsFrom_eq_ok_iff {rules : List (UnaryRule σ)} {count : Nat} {source : LabelId}
    {chains : List (UnaryChain σ)} :
    chainsFrom rules count source = .ok chains ↔
      (Reach.best rules count source).isSettled rules = true ∧
        collectAll (chainTo (Reach.best rules count source) source) (List.range count) =
          .ok chains := by
  unfold chainsFrom
  dsimp only
  split
  · rename_i settled
    simp [settled]
  · rename_i unsettled
    simp [unsettled]

/-- The chains from a source lead to the other labels that it reaches. -/
theorem mem_chainsFrom {rules : List (UnaryRule σ)} {count : Nat} {source : LabelId}
    {chains : List (UnaryChain σ)} (collected : chainsFrom rules count source = .ok chains)
    {chain : UnaryChain σ} :
    chain ∈ chains ↔
      chain.parent = source ∧ chain.child < count ∧ chain.child ≠ source ∧
        chain.score = (Reach.best rules count source).score chain.child ∧
        Score.isLogProbability chain.score = true ∧
        (Reach.best rules count source).path? source chain.child = some chain.path := by
  rcases chainsFrom_eq_ok_iff.mp collected with ⟨-, toLabels⟩
  rw [mem_collectAll toLabels]
  constructor
  · rintro ⟨child, known, own, ownCollected, member⟩
    obtain ⟨parent, rfl, others⟩ := (mem_chainTo ownCollected).mp member
    exact ⟨parent, List.mem_range.mp known, others⟩
  · rintro ⟨parent, known, others⟩
    obtain ⟨own, ownCollected⟩ := exists_collectAll_iff.mp ⟨chains, toLabels⟩ chain.child
      (List.mem_range.mpr known)
    exact ⟨chain.child, List.mem_range.mpr known, own, ownCollected,
      (mem_chainTo ownCollected).mpr ⟨parent, rfl, others⟩⟩

section

variable {grammar : Grammar σ} {chains : List (UnaryChain σ)}
  (collected : chainsOf grammar = .ok chains)

include collected

/-- From every label relaxation has come to rest. -/
theorem isSettled_of_chainsOf {source : LabelId} (known : source < grammar.labels.size) :
    (Reach.best (UnaryRule.roundOrder grammar.unary) grammar.labels.size source).isSettled
      (UnaryRule.roundOrder grammar.unary) = true := by
  obtain ⟨own, ownCollected⟩ := exists_collectAll_iff.mp ⟨chains, collected⟩ source
    (List.mem_range.mpr known)
  exact (chainsFrom_eq_ok_iff.mp ownCollected).1

/-- The chains of a grammar lead from every label to the others that it reaches. -/
theorem mem_chainsOf {chain : UnaryChain σ} :
    chain ∈ chains ↔
      (chain.parent < grammar.labels.size ∧ chain.child < grammar.labels.size) ∧
        chain.child ≠ chain.parent ∧
        chain.score = (Reach.best (UnaryRule.roundOrder grammar.unary) grammar.labels.size
          chain.parent).score chain.child ∧
        Score.isLogProbability chain.score = true ∧
        (Reach.best (UnaryRule.roundOrder grammar.unary) grammar.labels.size
          chain.parent).path? chain.parent chain.child = some chain.path := by
  rw [mem_collectAll collected]
  constructor
  · rintro ⟨source, known, own, ownCollected, member⟩
    obtain ⟨rfl, childKnown, others⟩ := (mem_chainsFrom ownCollected).mp member
    exact ⟨⟨List.mem_range.mp known, childKnown⟩, others⟩
  · rintro ⟨⟨known, childKnown⟩, others⟩
    obtain ⟨own, ownCollected⟩ := exists_collectAll_iff.mp ⟨chains, collected⟩ chain.parent
      (List.mem_range.mpr known)
    exact ⟨chain.parent, List.mem_range.mpr known, own, ownCollected,
      (mem_chainsFrom ownCollected).mpr ⟨rfl, childKnown, others⟩⟩

/-- No label that a source reaches is left out. -/
theorem exists_chain_of_isFinite {source child : LabelId} (known : source < grammar.labels.size)
    (childKnown : child < grammar.labels.size) (different : child ≠ source)
    (finite : Score.isFinite ((Reach.best (UnaryRule.roundOrder grammar.unary)
      grammar.labels.size source).score child) = true) :
    ∃ chain ∈ chains, chain.parent = source ∧ chain.child = child ∧
      chain.score = (Reach.best (UnaryRule.roundOrder grammar.unary) grammar.labels.size
        source).score child := by
  obtain ⟨own, ownCollected⟩ := exists_collectAll_iff.mp ⟨chains, collected⟩ source
    (List.mem_range.mpr known)
  rcases chainsFrom_eq_ok_iff.mp ownCollected with ⟨-, toLabels⟩
  obtain ⟨single, singleCollected⟩ := exists_collectAll_iff.mp ⟨own, toLabels⟩ child
    (List.mem_range.mpr childKnown)
  rcases chainTo_eq_ok_iff.mp singleCollected with
    ⟨same | infinite, -⟩ | ⟨-, path, found, valid, rfl⟩
  · exact absurd same different
  · rw [finite] at infinite
    cases infinite
  · exact ⟨⟨source, child, _, path⟩, (mem_chainsOf collected).mpr
      ⟨⟨known, childKnown⟩, different, rfl, valid, found⟩, rfl, rfl, rfl⟩

end

/-! ## Chains without steps -/

section

variable {count : Nat} {chains : List (UnaryChain σ)}

/-- Whether a label has a loop is seen from what it selects. -/
theorem pushLoop_ofChains {label : LabelId} (known : label < count) :
    (ofChains count chains).pushLoop label =
      if (ofChains count chains).hasLoop label then .ok (ofChains count chains)
      else (ofChains count chains).push (noStep label) := by
  have selected : (((ofChains count chains).byParent.chains label).any
      fun entry => entry.2.isReflexive) = (ofChains count chains).hasLoop label :=
    calc
      ((ofChains count chains).byParent.chains label).any (fun entry => entry.2.isReflexive)
      _ = (((ofChains count chains).byParent.chains label).map Prod.snd).any
            (·.isReflexive) := by
        rw [List.any_map]
        rfl
      _ = (ofChains count chains).hasLoop label := by
        rw [ofChains, ChainIndex.map_snd_chains_select _ _ known, List.any_filter]
        rfl
  rw [pushLoop, selected]

/-- A new loop is one of its own label only. -/
theorem hasLoop_concat_noStep {label other : LabelId} (different : label ≠ other) :
    (ofChains count (chains ++ [noStep label])).hasLoop other =
      (ofChains count chains).hasLoop other := by
  simp [hasLoop, noStep, different]

/-- Loops are pushed for the labels that have none at first. -/
theorem foldlM_pushLoop {labels : List LabelId} (known : ∀ label ∈ labels, label < count)
    (distinct : labels.Nodup) :
    labels.foldlM pushLoop (ofChains count chains) =
      (ofChains count chains).pushAll
        ((labels.filter fun label => !(ofChains count chains).hasLoop label).map noStep) := by
  induction labels generalizing chains with
  | nil => rfl
  | cons label rest inductionHypothesis =>
      rw [List.forall_mem_cons] at known
      rw [List.nodup_cons] at distinct
      rw [List.foldlM_cons, pushLoop_ofChains known.1]
      cases looped : (ofChains count chains).hasLoop label with
      | true =>
          rw [List.filter_cons_of_neg (by simp [looped]), if_pos rfl]
          exact inductionHypothesis known.2 distinct.2
      | false =>
          rw [List.filter_cons_of_pos (by simp [looped]), if_neg Bool.false_ne_true,
            List.map_cons, pushAll_cons, push_ofChains]
          split
          · have others : (rest.filter fun other =>
                !(ofChains count (chains ++ [noStep label])).hasLoop other) =
                  rest.filter fun other => !(ofChains count chains).hasLoop other := by
              refine List.filter_congr fun other member => ?_
              rw [hasLoop_concat_noStep]
              rintro rfl
              exact distinct.1 member
            change rest.foldlM pushLoop (ofChains count (chains ++ [noStep label])) =
              (ofChains count (chains ++ [noStep label])).pushAll _
            rw [inductionHypothesis known.2 distinct.2, others]
          · rfl

/-- Pushing loops makes a closure reflexive if there are numbers for all of them. -/
theorem withLoops_ofChains (numbered : chains.length ≤ ruleLimit) :
    (ofChains count chains).withLoops =
      if (ofChains count chains).reflexive.chains.length ≤ ruleLimit then
        .ok (ofChains count chains).reflexive
      else .error (.tooManyRules ruleLimit) := by
  rw [withLoops, labelCount_ofChains,
    foldlM_pushLoop (fun _ => List.mem_range.mp) List.nodup_range, pushAll_ofChains numbered]
  simp only [reflexive, labelCount_ofChains, chains_ofChains]

end

end UnaryClosure

end ChartParsing
