import ChartParsing.Proofs.Unary.BestChains
import ChartParsing.Proofs.Unary.Reflexive

/-!
# The selections of a closure

Beside its chains a closure keeps for each label those that start there and those that end
there.  However often the closure of a grammar has been made reflexive, no two of its chains
join the same labels, and a selection holds each of its chains once, under the number of the
chain (`ChainIndex.Selected`).

The selections of the closure of a grammar are ordered by the label at the other end of a
chain.  A chain without steps that is added later comes behind all others, whatever they lead
to, so the order stays only where these lead to smaller labels
(`UnaryClosure.selections_iterate_reflexive`).
-/

namespace ChartParsing

namespace ChainIndex

variable {σ : Type} {count : Nat} {key other : UnaryChain σ → LabelId}
  {chains : List (UnaryChain σ)} {label : LabelId}

/-! ## What is selected -/

/-- Some entries hold the chains whose `key` is a label, each of them once and under its
number. -/
structure Selected (chains : List (UnaryChain σ)) (key : UnaryChain σ → LabelId)
    (label : LabelId) (entries : List (Nat × UnaryChain σ)) : Prop where
  mem_iff : ∀ number chain,
    (number, chain) ∈ entries ↔ chains[number]? = some chain ∧ key chain = label
  nodup : (entries.map Prod.fst).Nodup

theorem map_fst_numbered (chains : List (UnaryChain σ)) :
    (numbered chains).map Prod.fst = List.range chains.length := by
  rw [numbered, List.map_map, List.range_eq_range']
  exact List.zipIdx_map_snd 0 chains

theorem selected_chains_select (known : label < count) :
    Selected chains key label ((select count key chains).chains label) where
  mem_iff _ _ := mem_chains_select known
  nodup := by
    rw [chains_select key chains known]
    have numbers : ((numbered chains).map Prod.fst).Nodup := by
      rw [map_fst_numbered]
      exact List.nodup_range
    exact numbers.sublist (List.filter_sublist.map Prod.fst)

/-! ## The order of a selection -/

/-- Entries come in the order of a label of their chains. -/
def OrderedBy (other : UnaryChain σ → LabelId) (entries : List (Nat × UnaryChain σ)) : Prop :=
  entries.Pairwise fun first second => other first.2 < other second.2

instance decidableOrderedBy (other : UnaryChain σ → LabelId)
    (entries : List (Nat × UnaryChain σ)) : Decidable (OrderedBy other entries) :=
  inferInstanceAs (Decidable (entries.Pairwise fun first second => other first.2 < other second.2))

/-- A selection is ordered if the chains of one key are. -/
theorem orderedBy_chains_select (known : label < count)
    (ordered : chains.Pairwise fun first second =>
      key first = key second → other first < other second) :
    OrderedBy other ((select count key chains).chains label) := by
  have selected : (chains.filter fun chain => key chain == label).Pairwise
      fun first second => other first < other second := by
    refine (ordered.filter _).imp_of_mem fun {first second} firstMember secondMember less => ?_
    rw [List.mem_filter, beq_iff_eq] at firstMember secondMember
    exact less (firstMember.2.trans secondMember.2.symm)
  rw [← map_snd_chains_select key chains known, List.pairwise_map] at selected
  exact selected

/-- An entry behind all others keeps them ordered if it is above them. -/
theorem orderedBy_concat_iff {entries : List (Nat × UnaryChain σ)}
    (ordered : OrderedBy other entries) (last : Nat × UnaryChain σ) :
    OrderedBy other (entries ++ [last]) ↔ ∀ entry ∈ entries, other entry.2 < other last.2 := by
  unfold OrderedBy at ordered ⊢
  simp [List.pairwise_append, ordered]

end ChainIndex

namespace UnaryClosure

variable {σ : Type} [Score σ] {count : Nat} {key other : UnaryChain σ → LabelId}
  {chains : List (UnaryChain σ)} {label : LabelId}

/-! ## Chains without steps behind all others -/

/-- Numbered from some number on, the chains without steps have the numbers of their labels
after it. -/
theorem map_swap_zipIdx_noStep (start count : Nat) :
    (((List.range count).map noStep).zipIdx start).map Prod.swap =
      (List.range count).map fun label => (start + label, (noStep label : UnaryChain σ)) := by
  apply List.ext_getElem
  · simp
  · intro position _ _
    simp

/-- Behind what a label selects comes its own chain without steps. -/
theorem chains_select_append_noStep (ofLoop : ∀ label, key (noStep label) = label)
    (chains : List (UnaryChain σ)) (known : label < count) :
    (ChainIndex.select count key (chains ++ (List.range count).map noStep)).chains label =
      (ChainIndex.select count key chains).chains label ++
        [(chains.length + label, noStep label)] := by
  have own : ((List.range count).map fun other =>
        (chains.length + other, (noStep other : UnaryChain σ))).filter
          (fun entry => key entry.2 == label) = [(chains.length + label, noStep label)] := by
    rw [List.filter_map]
    change ((List.range count).filter fun other => key (noStep other) == label).map _ = _
    rw [filter_range_noStep ofLoop known]
    rfl
  rw [ChainIndex.chains_select key _ known, ChainIndex.chains_select key _ known,
    ChainIndex.numbered, List.zipIdx_append, List.map_append, List.filter_append, Nat.zero_add,
    map_swap_zipIdx_noStep, own]
  rfl

/-- What the chains without steps do to a selection. -/
theorem orderedBy_append_noStep_iff (ofLoop : ∀ label, key (noStep label) = label)
    (otherOfLoop : ∀ label, other (noStep label) = label)
    (ordered : chains.Pairwise fun first second =>
      key first = key second → other first < other second) (known : label < count) :
    ChainIndex.OrderedBy other
        ((ChainIndex.select count key (chains ++ (List.range count).map noStep)).chains label) ↔
      ∀ chain ∈ chains, key chain = label → other chain < label := by
  rw [chains_select_append_noStep ofLoop chains known,
    ChainIndex.orderedBy_concat_iff (ChainIndex.orderedBy_chains_select known ordered),
    otherOfLoop]
  constructor
  · intro below chain member selected
    obtain ⟨number, listed⟩ :=
      (ChainIndex.exists_mem_chains_select known).mpr ⟨member, selected⟩
    exact below (number, chain) listed
  · rintro below ⟨number, chain⟩ listed
    obtain ⟨member, selected⟩ :=
      (ChainIndex.exists_mem_chains_select known).mp ⟨number, listed⟩
    exact below chain member selected

/-- Chains that lead elsewhere and the chains without steps join different labels. -/
theorem nodup_ends_append_noStep (distinct : (chains.map UnaryChain.ends).Nodup)
    (proper : ∀ chain ∈ chains, chain.parent ≠ chain.child) (count : Nat) :
    ((chains ++ (List.range count).map noStep).map UnaryChain.ends).Nodup := by
  rw [List.map_append, List.nodup_append]
  refine ⟨distinct, ?loops, ?apart⟩
  case loops =>
    rw [List.map_map]
    refine List.nodup_range.map fun first second same => ?_
    exact (Prod.mk.inj same).1
  case apart =>
    intro joined member loop loopMember same
    rcases List.mem_map.mp member with ⟨chain, listed, rfl⟩
    rcases List.mem_map.mp loopMember with ⟨noSteps, loopListed, rfl⟩
    rcases List.mem_map.mp loopListed with ⟨label, -, rfl⟩
    rcases Prod.mk.inj same with ⟨parent, child⟩
    exact proper chain listed (parent.trans child.symm)

/-! ## The closure of a grammar -/

/-- What is behind the selections of a label after a closure without loops has been made
reflexive a number of times. -/
def loopEntries (closure : UnaryClosure σ) (label : LabelId) :
    (times : Nat) → List (Nat × UnaryChain σ)
  | 0 => []
  | _ + 1 => [(closure.chains.length + label, noStep label)]

/-- However often the closure of a grammar is made reflexive, no two of its chains join the
same labels, and every label selects the chains from it and those to it once, under their
numbers.  Its selections begin with those of the closure of the grammar, and the chain
without steps comes last.  So they are ordered by child and by parent at first, and later
where all other labels in them are smaller than their own. -/
theorem selections_iterate_reflexive {grammar : Grammar σ} {closure : UnaryClosure σ}
    (closed : ofGrammar grammar = .ok closure) (times : Nat) :
    ((reflexive^[times] closure).chains.map UnaryChain.ends).Nodup ∧
    ∀ label < grammar.labels.size,
      (ChainIndex.Selected (reflexive^[times] closure).chains UnaryChain.parent label
          ((reflexive^[times] closure).byParent.chains label) ∧
        ChainIndex.Selected (reflexive^[times] closure).chains UnaryChain.child label
          ((reflexive^[times] closure).byChild.chains label)) ∧
      ((reflexive^[times] closure).byParent.chains label =
          closure.byParent.chains label ++ closure.loopEntries label times ∧
        (reflexive^[times] closure).byChild.chains label =
          closure.byChild.chains label ++ closure.loopEntries label times) ∧
      (ChainIndex.OrderedBy UnaryChain.child
          ((reflexive^[times] closure).byParent.chains label) ↔
        times = 0 ∨ ∀ chain ∈ closure.chains, chain.parent = label → chain.child < label) ∧
      (ChainIndex.OrderedBy UnaryChain.parent
          ((reflexive^[times] closure).byChild.chains label) ↔
        times = 0 ∨ ∀ chain ∈ closure.chains, chain.child = label → chain.parent < label) := by
  have loopFree := loopFree_ofGrammar closed
  have ordered := pairwise_ofGrammar closed
  have distinct := nodup_ends_of_pairwise ordered
  have children : closure.chains.Pairwise fun first second =>
      first.parent = second.parent → first.child < second.child :=
    ordered.imp fun before => before.child_lt
  have parents : closure.chains.Pairwise fun first second =>
      first.child = second.child → first.parent < second.parent :=
    ordered.imp fun before => before.parent_lt
  obtain ⟨chains, rfl⟩ : ∃ chains, closure = ofChains grammar.labels.size chains :=
    ⟨_, loopFree.indexed⟩
  cases times with
  | zero =>
      refine ⟨distinct, fun label known => ⟨⟨?_, ?_⟩, ⟨?_, ?_⟩, ?_, ?_⟩⟩
      · exact ChainIndex.selected_chains_select known
      · exact ChainIndex.selected_chains_select known
      · exact (List.append_nil _).symm
      · exact (List.append_nil _).symm
      · exact iff_of_true (ChainIndex.orderedBy_chains_select known children) (Or.inl rfl)
      · exact iff_of_true (ChainIndex.orderedBy_chains_select known parents) (Or.inl rfl)
  | succ times =>
      have later (condition : Prop) : (times + 1 = 0 ∨ condition) ↔ condition :=
        or_iff_right (Nat.succ_ne_zero times)
      rw [iterate_succ_reflexive, loopFree.reflexive_eq]
      refine ⟨nodup_ends_append_noStep distinct loopFree.proper _,
        fun label known => ⟨⟨?_, ?_⟩, ⟨?_, ?_⟩, ?_, ?_⟩⟩
      · exact ChainIndex.selected_chains_select known
      · exact ChainIndex.selected_chains_select known
      · exact chains_select_append_noStep (fun _ => rfl) chains known
      · exact chains_select_append_noStep (fun _ => rfl) chains known
      · rw [later]
        exact orderedBy_append_noStep_iff (fun _ => rfl) (fun _ => rfl) children known
      · rw [later]
        exact orderedBy_append_noStep_iff (fun _ => rfl) (fun _ => rfl) parents known

/-- The closure of a grammar whose rules go round. -/
def cyclicClosure : UnaryClosure ExactScore :=
  (ofGrammar cyclicGrammar).toOption.get (by decide +kernel)

/-- The last of the labels leads to a smaller one only, so its own chain without steps is in
order behind it. -/
theorem selections_iterate_reflexive_cyclicGrammar :
    ofGrammar cyclicGrammar = .ok cyclicClosure ∧ 2 < cyclicGrammar.labels.size ∧
      ChainIndex.Selected (reflexive^[2] cyclicClosure).chains UnaryChain.parent 2
        ((reflexive^[2] cyclicClosure).byParent.chains 2) ∧
      ((reflexive^[2] cyclicClosure).byParent.chains 2).map Prod.fst = [3, 6] ∧
      ChainIndex.OrderedBy UnaryChain.child ((reflexive^[2] cyclicClosure).byParent.chains 2) := by
  have closed : ofGrammar cyclicGrammar = .ok cyclicClosure := eq_ok_toOption_get _
  have known : 2 < cyclicGrammar.labels.size := by decide
  have below : ∀ chain ∈ cyclicClosure.chains, chain.parent = 2 → chain.child < 2 := by
    decide +kernel
  obtain ⟨-, selections⟩ := selections_iterate_reflexive closed 2
  obtain ⟨⟨selected, -⟩, ⟨listed, -⟩, ordered, -⟩ := selections 2 known
  refine ⟨closed, known, selected, ?_, ordered.mpr (Or.inr below)⟩
  rw [listed]
  decide +kernel

/-- A grammar with one rule. -/
def stepGrammar : Grammar ExactScore :=
  .merge "ROOT" [.unary "ROOT" "A" (.finite (mkRat (-1) 1))]

/-- The closure of one rule. -/
def stepClosure : UnaryClosure ExactScore :=
  (ofGrammar stepGrammar).toOption.get (by decide +kernel)

/-- Once the closure is reflexive, the root lists its chain to itself behind the one that leads
to a larger label. -/
theorem reflexive_unordered_stepGrammar :
    ofGrammar stepGrammar = .ok stepClosure ∧ 0 < stepGrammar.labels.size ∧
      ¬ChainIndex.OrderedBy UnaryChain.child ((reflexive^[1] stepClosure).byParent.chains 0) :=
  ⟨eq_ok_toOption_get _, by decide, by decide +kernel⟩

end UnaryClosure

end ChartParsing
