import ChartParsing.ModelError
import ChartParsing.Unary.Reach

/-!
# The closure of unary rules

A chain of unary rules leads from a label step by step to another.  The closure
holds, for every two different labels joined by a chain, one best chain, so that
the parser takes at most one unary step where a grammar may take many.  No chain
leads from a label to itself: taking no step is never worse.  The reflexive
closure makes this alternative explicit as a chain without steps.
-/

namespace ChartParsing

/-- A chain of unary rules from `parent` to `child`, and the labels on its way,
both ends included. -/
structure UnaryChain (σ : Type) where
  parent : LabelId
  child : LabelId
  score : σ
  path : List LabelId

/-- A chain that ends where it starts. -/
def UnaryChain.isReflexive {σ : Type} (chain : UnaryChain σ) : Bool :=
  chain.parent == chain.child

/-- For each label in order, some of the chains of a closure, each with its
number. -/
abbrev ChainIndex (σ : Type) :=
  LabelIndex (Nat × UnaryChain σ)

namespace ChainIndex

variable {σ : Type}

/-- The chains with their numbers, which are their positions. -/
def numbered (chains : List (UnaryChain σ)) : List (Nat × UnaryChain σ) :=
  chains.zipIdx.map Prod.swap

/-- Select for each of the first `count` labels the chains whose `key` it is. -/
def select (count : Nat) (key : UnaryChain σ → LabelId)
    (chains : List (UnaryChain σ)) : ChainIndex σ :=
  (LabelIndex.empty count).insertAll (fun entry => key entry.2) (numbered chains)

/-- The chains selected for a label, with their numbers. -/
@[inline]
def chains (index : ChainIndex σ) (label : LabelId) : List (Nat × UnaryChain σ) :=
  index.entries label

theorem numbered_concat (chains : List (UnaryChain σ)) (chain : UnaryChain σ) :
    numbered (chains ++ [chain]) = numbered chains ++ [(chains.length, chain)] := by
  simp [numbered, List.zipIdx_append]

@[simp]
theorem size_select (count : Nat) (key : UnaryChain σ → LabelId)
    (chains : List (UnaryChain σ)) : (select count key chains).size = count := by
  rw [select, LabelIndex.size_insertAll, LabelIndex.size_empty]

/-- One more chain is put behind those that its key selects. -/
theorem select_concat (count : Nat) (key : UnaryChain σ → LabelId)
    (chains : List (UnaryChain σ)) (chain : UnaryChain σ) :
    select count key (chains ++ [chain]) =
      (select count key chains).insert (key chain) (chains.length, chain) := by
  rw [select, numbered_concat, LabelIndex.insertAll, List.foldl_append]
  rfl

/-- A selection keeps the order of the chains. -/
theorem chains_select {count : Nat} (key : UnaryChain σ → LabelId)
    (chains : List (UnaryChain σ)) {label : LabelId} (bounded : label < count) :
    (select count key chains).chains label =
      (numbered chains).filter fun entry => key entry.2 == label := by
  rw [ChainIndex.chains, select,
    LabelIndex.entries_insertAll _ _ (numbered chains) (by simpa using bounded),
    LabelIndex.entries_empty, List.nil_append]

end ChainIndex

/-- Chains of unary rules, numbered by their position, and their selections by
parent and by child. -/
structure UnaryClosure (σ : Type) where
  chains : List (UnaryChain σ)
  byParent : ChainIndex σ
  byChild : ChainIndex σ

namespace UnaryClosure

variable {σ : Type}

/-- The closure with given chains over `count` labels. -/
def ofChains (count : Nat) (chains : List (UnaryChain σ)) : UnaryClosure σ where
  chains := chains
  byParent := .select count UnaryChain.parent chains
  byChild := .select count UnaryChain.child chains

/-- How many labels the closure ranges over. -/
def labelCount (closure : UnaryClosure σ) : Nat :=
  closure.byParent.size

/-- The closure over `count` labels that holds no chain. -/
def empty (count : Nat) : UnaryClosure σ where
  chains := []
  byParent := .empty count
  byChild := .empty count

/-- Put a chain behind all others, and behind those selected for its ends. -/
def append (closure : UnaryClosure σ) (chain : UnaryChain σ) : UnaryClosure σ where
  chains := closure.chains ++ [chain]
  byParent := closure.byParent.insert chain.parent (closure.chains.length, chain)
  byChild := closure.byChild.insert chain.child (closure.chains.length, chain)

/-- Put a chain behind all others if there is a number left for it. -/
def push (closure : UnaryClosure σ) (chain : UnaryChain σ) :
    Except (ModelError σ) (UnaryClosure σ) :=
  if closure.chains.length < ruleLimit then .ok (closure.append chain)
  else .error (.tooManyRules closure.chains.length)

variable [Score σ]

/-- Push the best chain from a source to a label, if it leads elsewhere and the
label is reached. -/
def pushChain (reach : Reach σ) (source : LabelId) (closure : UnaryClosure σ)
    (child : LabelId) : Except (ModelError σ) (UnaryClosure σ) :=
  let score := reach.score child
  if child = source ∨ Score.isFinite score = false then .ok closure
  else
    match reach.path? source child with
    | none => .error .positiveCycle
    | some path =>
        if Score.isLogProbability score then closure.push ⟨source, child, score, path⟩
        else .error .positiveCycle

/-- Push the best chains from one source, ordered by child. -/
def pushChainsFrom (rules : List (UnaryRule σ)) (count : Nat) (closure : UnaryClosure σ)
    (source : LabelId) : Except (ModelError σ) (UnaryClosure σ) :=
  let reach := Reach.best rules count source
  if reach.isSettled rules then
    (List.range count).foldlM (pushChain reach source) closure
  else .error .positiveCycle

/-- The closure of the unary rules of a grammar, its chains ordered by parent and
then by child. -/
def ofGrammar (grammar : Grammar σ) : Except (ModelError σ) (UnaryClosure σ) :=
  let count := grammar.labels.size
  let rules := UnaryRule.roundOrder grammar.unary
  (List.range count).foldlM (pushChainsFrom rules count) (empty count)

/-- The chain of a label to itself that takes no step. -/
def noStep (label : LabelId) : UnaryChain σ :=
  ⟨label, label, 0, [label]⟩

/-- Push the chain without steps of a label that has no chain to itself. -/
def pushLoop (closure : UnaryClosure σ) (label : LabelId) :
    Except (ModelError σ) (UnaryClosure σ) :=
  if (closure.byParent.chains label).any fun entry => entry.2.isReflexive then .ok closure
  else closure.push (noStep label)

/-- The closure with a chain without steps for every label that has no chain to
itself.  The new chains come behind the others, so these keep their numbers. -/
def withLoops (closure : UnaryClosure σ) : Except (ModelError σ) (UnaryClosure σ) :=
  (List.range closure.labelCount).foldlM pushLoop closure

/-- Whether a label has a chain to itself. -/
def hasLoop (closure : UnaryClosure σ) (label : LabelId) : Bool :=
  closure.chains.any fun chain => chain.parent == label && chain.isReflexive

/-- What a closure with loops is where there are numbers for all of its chains. -/
def reflexive (closure : UnaryClosure σ) : UnaryClosure σ :=
  let missing := (List.range closure.labelCount).filter (!closure.hasLoop ·)
  ofChains closure.labelCount (closure.chains ++ missing.map noStep)

end UnaryClosure

end ChartParsing
