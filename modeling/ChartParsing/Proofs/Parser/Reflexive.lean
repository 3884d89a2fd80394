import ChartParsing.Proofs.Chart.Alike
import ChartParsing.Proofs.Parser.Genuine
import ChartParsing.Proofs.Score.ExactLaws
import ChartParsing.Sample

/-!
# Explicit reflexive chains change no parse

A parser may be given closures in which taking no unary step is a chain of its own.  It
then returns what it returns with the plain closures: the same error, no parse in the same
cases, and the same parses, whatever its configuration.  The scores agree up to a
congruence of scores, which for numbers leaves the sign of a zero open.

Every step of `Parser.parse` is followed in the two parsers side by side; the checks do
not look at closures, and the charts come out alike.
-/

namespace ChartParsing

/-- Two parses are the same, at scores that are not told apart. -/
structure ScoredParse.Alike {σ : Type} (Same : σ → σ → Prop) (parse other : ScoredParse σ) :
    Prop where
  tree : parse.tree = other.tree
  derivation : parse.derivation = other.derivation
  score : Same parse.score other.score
  usedFallback : parse.usedFallback = other.usedFallback

/-- Parsers that agree up to equal scores return the same. -/
theorem ScoredParse.eq_of_agree {ε σ : Type} {outcome other : Except ε (Option (ScoredParse σ))}
    (agree : Agree (Option.Rel (Alike Eq)) outcome other) : outcome = other := by
  cases agree with
  | error error => rfl
  | ok related =>
      cases related with
      | none => rfl
      | @some parse otherParse alike =>
          rcases parse with ⟨tree, derivation, score, usedFallback⟩
          rcases alike with ⟨rfl, rfl, rfl, rfl⟩
          rfl

variable {σ : Type} [Score σ] {Same : σ → σ → Prop} (congruence : Score.Congruence Same)

/-! ## Passes -/

namespace Pass

variable {model : Model σ} {closure other : UnaryClosure σ}
  (closures : closure.Alike Same model.grammar.labels.size other) (words : List String)

include congruence closures

theorem total_alike (pruned : Pruned) :
    Same (total ⟨model.withClosure closure, words, pruned⟩)
      (total ⟨model.withClosure other, words, pruned⟩) :=
  (inside_alike congruence closures words pruned).score .closed model.grammar.root 0
    words.length

/-- A pass returns the same parse with either closure. -/
theorem bestParse?_alike (pruned : Pruned) :
    Agree (Option.Rel (ScoredParse.Alike Same))
      (bestParse? ⟨model.withClosure closure, words, pruned⟩)
      (bestParse? ⟨model.withClosure other, words, pruned⟩) := by
  have totals := total_alike congruence closures words pruned
  have read : derivation? ⟨model.withClosure closure, words, pruned⟩
        (inside ⟨model.withClosure closure, words, pruned⟩) model.grammar.root 0 words.length =
      derivation? ⟨model.withClosure other, words, pruned⟩
        (inside ⟨model.withClosure other, words, pruned⟩) model.grammar.root 0 words.length :=
    derivation?_alike words pruned (inside_alike congruence closures words pruned) _ _ _
  unfold bestParse?
  rw [congruence.isImpossible_eq totals]
  split
  · exact .ok .none
  · dsimp only [length]
    rw [read]
    cases derivation? ⟨model.withClosure other, words, pruned⟩
        (inside ⟨model.withClosure other, words, pruned⟩) model.grammar.root 0 words.length with
    | none => exact .error _
    | some derivation => exact .ok (.some ⟨rfl, rfl, totals, rfl⟩)

/-- The posteriors of a sentence prune the same cells. -/
theorem prunedBelow_posterior_alike (threshold : σ) (toCoarse : Array LabelId) :
    (posterior ⟨model.withClosure closure, words, .nothing⟩).prunedBelow threshold toCoarse =
      (posterior ⟨model.withClosure other, words, .nothing⟩).prunedBelow threshold toCoarse := by
  have insides := inside_alike congruence closures words .nothing
  exact Posterior.prunedBelow_alike congruence insides
    (Model.outside_alike congruence closures words.length insides)
    (total_alike congruence closures words .nothing) threshold toCoarse

end Pass

namespace Parser

/-! ## The steps of parsing -/

/-- The parser whose models have other closures. -/
abbrev withClosures (parser : Parser σ) (coarse fine : UnaryClosure σ) : Parser σ :=
  { parser with
    coarse := parser.coarse.withClosure coarse
    fine := parser.fine.withClosure fine }

/-- Two posteriors prune the same fine cells. -/
def PruneAlike (posterior other : Posterior σ) : Prop :=
  ∀ threshold toCoarse,
    posterior.prunedBelow threshold toCoarse = other.prunedBelow threshold toCoarse

section

variable {parser : Parser σ} {coarse otherCoarse fine otherFine : UnaryClosure σ}
  (coarseAlike : coarse.Alike Same parser.coarse.grammar.labels.size otherCoarse)
  (fineAlike : fine.Alike Same parser.fine.grammar.labels.size otherFine)
  (words : List String)

include congruence

section

include fineAlike

theorem finePass_alike (pruned : Pruned) (spent : Nat) :
    Agree (Option.Rel (ScoredParse.Alike Same))
      ((parser.withClosures coarse fine).finePass words pruned spent)
      ((parser.withClosures otherCoarse otherFine).finePass words pruned spent) := by
  apply Agree.bind_same
  intro _
  apply Agree.bind_same
  intro _
  exact Pass.bestParse?_alike congruence fineAlike words pruned

end

include coarseAlike

/-- The coarse passes spend the same and lead to the same pruning. -/
theorem coarsePass_alike :
    Agree (fun result other => Option.Rel PruneAlike result.1 other.1 ∧ result.2 = other.2)
      ((parser.withClosures coarse fine).coarsePass words)
      ((parser.withClosures otherCoarse otherFine).coarsePass words) := by
  have same := congruence.isImpossible_eq
    (Pass.total_alike congruence coarseAlike words .nothing)
  apply Agree.bind_same
  intro _
  apply Agree.bind_same
  intro insideSpent
  change Agree _
    (if Score.isImpossible (Pass.total ⟨parser.coarse.withClosure coarse, words, .nothing⟩)
      then .ok (none, insideSpent) else _)
    (if Score.isImpossible (Pass.total ⟨parser.coarse.withClosure otherCoarse, words, .nothing⟩)
      then .ok (none, insideSpent) else _)
  rw [same]
  split
  · exact .ok ⟨.none, rfl⟩
  · apply Agree.bind_same
    intro spent
    exact .ok ⟨.some (Pass.prunedBelow_posterior_alike congruence coarseAlike words), rfl⟩

include fineAlike

theorem parsePruned_alike (threshold : σ) :
    Agree (Option.Rel (ScoredParse.Alike Same))
      ((parser.withClosures coarse fine).parsePruned words threshold)
      ((parser.withClosures otherCoarse otherFine).parsePruned words threshold) := by
  apply Agree.bind (coarsePass_alike congruence coarseAlike words)
  rintro ⟨posterior?, spent⟩ ⟨otherPosterior?, _⟩ ⟨pruneAlike, rfl⟩
  cases pruneAlike with
  | none => exact finePass_alike congruence fineAlike words .nothing spent
  | @some posterior otherPosterior pruneAlike =>
      dsimp only
      rw [pruneAlike threshold parser.toCoarse]
      apply Agree.bind (finePass_alike congruence fineAlike words _ spent)
      intro parse? otherParse? alike
      cases alike with
      | some alike => exact .ok (.some alike)
      | none =>
          apply Agree.bind (finePass_alike congruence fineAlike words .nothing 0)
          intro parse? otherParse? alike
          cases alike with
          | none => exact .ok .none
          | some alike => exact .ok (.some ⟨alike.tree, alike.derivation, alike.score, rfl⟩)

/-- Parsers that differ in closures only return the same if these close and open
alike. -/
theorem parse_alike :
    Agree (Option.Rel (ScoredParse.Alike Same))
      ((parser.withClosures coarse fine).parse words)
      ((parser.withClosures otherCoarse otherFine).parse words) := by
  by_cases empty : words = []
  · subst empty
    exact .ok .none
  · rw [parse_of_ne_nil _ empty, parse_of_ne_nil _ empty]
    apply Agree.bind_same
    intro _
    dsimp only
    split
    · exact parsePruned_alike congruence coarseAlike fineAlike words _
    · exact finePass_alike congruence fineAlike words .nothing 0

end

end Parser

/-! ## Reflexive closures -/

namespace Model

theorem iterate_reflexive (model : Model σ) (times : Nat) :
    reflexive^[times] model =
      model.withClosure (UnaryClosure.reflexive^[times] model.closure) := by
  induction times generalizing model with
  | zero => rfl
  | succ times inductionHypothesis => exact inductionHypothesis model.reflexive

/-- The closure of a model has no loops unless it has been made reflexive. -/
theorem loopFree_of_ofGrammar {grammar : Grammar σ} {lexicon : Lexicon σ} {model : Model σ}
    (made : ofGrammar grammar lexicon = .ok model) :
    model.closure.LoopFree model.grammar.labels.size := by
  rcases bind_eq_ok_iff.mp made with ⟨closure, closed, same⟩
  obtain rfl := Except.ok.inj same
  exact UnaryClosure.loopFree_ofGrammar closed

/-- Pushing loops leaves the rest of a model alone. -/
theorem iterate_withLoops_eq_map (model : Model σ) (times : Nat) :
    (fun made => made >>= withLoops)^[times] (.ok model) =
      ((fun made => made >>= UnaryClosure.withLoops)^[times] (.ok model.closure)).map
        model.withClosure := by
  induction times with
  | zero => rfl
  | succ times inductionHypothesis =>
      rw [Function.iterate_succ_apply', Function.iterate_succ_apply', inductionHypothesis]
      cases (fun made => made >>= UnaryClosure.withLoops)^[times] (.ok model.closure) with
      | error error => rfl
      | ok closure =>
          change (closure.withLoops >>= fun looped => pure (model.withClosure looped)) =
            closure.withLoops.map model.withClosure
          cases closure.withLoops <;> rfl

/-- Pushing loops any number of times makes a model reflexive, if there are numbers for all
chains, and fails otherwise. -/
theorem iterate_withLoops {grammar : Grammar σ} {lexicon : Lexicon σ} {model : Model σ}
    (made : ofGrammar grammar lexicon = .ok model) (times : Nat) :
    (fun made => made >>= withLoops)^[times + 1] (.ok model) =
      if model.closure.reflexive.chains.length ≤ ruleLimit then .ok (reflexive^[times + 1] model)
      else .error (.tooManyRules ruleLimit) := by
  rcases bind_eq_ok_iff.mp made with ⟨closure, closed, same⟩
  obtain rfl := Except.ok.inj same
  rw [iterate_withLoops_eq_map, UnaryClosure.iterate_withLoops closed, iterate_reflexive]
  split <;> rfl

end Model

namespace Parser

/-- The parser whose closures have been made reflexive, each a number of times. -/
def withReflexive (coarseTimes fineTimes : Nat) (parser : Parser σ) : Parser σ :=
  { parser with
    coarse := Model.reflexive^[coarseTimes] parser.coarse
    fine := Model.reflexive^[fineTimes] parser.fine }

/-- The same label maps are accepted with reflexive closures. -/
theorem ofModels_iterate_reflexive (coarse fine : Model σ) (rename : String → String)
    (config : Config σ) (coarseTimes fineTimes : Nat) :
    ofModels (Model.reflexive^[coarseTimes] coarse) (Model.reflexive^[fineTimes] fine) rename
        config =
      (ofModels coarse fine rename config).map (withReflexive coarseTimes fineTimes) := by
  unfold ofModels withReflexive
  rw [Model.iterate_reflexive, Model.iterate_reflexive]
  dsimp only
  cases mapLabels coarse.grammar.labels rename fine.grammar.labels.names with
  | error error => rfl
  | ok ids =>
      simp only [bind, Except.bind]
      split
      · rw [← Model.iterate_reflexive, ← Model.iterate_reflexive]
        rfl
      · rfl

/-- Making the closures of two models reflexive, each any number of times, changes neither
which label maps are accepted nor what any sentence is parsed to.  Once a closure has a
chain from every label to itself, another time adds nothing, and no chain changes its
number. -/
theorem reflexive_changes_nothing {coarseGrammar fineGrammar : Grammar σ}
    {coarseLexicon fineLexicon : Lexicon σ} {coarse fine : Model σ}
    (congruence : Score.Congruence Same)
    (coarseMade : Model.ofGrammar coarseGrammar coarseLexicon = .ok coarse)
    (fineMade : Model.ofGrammar fineGrammar fineLexicon = .ok fine)
    (coarseTimes fineTimes : Nat) :
    (∀ rename config,
      ofModels (Model.reflexive^[coarseTimes] coarse) (Model.reflexive^[fineTimes] fine)
          rename config =
        (ofModels coarse fine rename config).map (withReflexive coarseTimes fineTimes)) ∧
    (∀ toCoarse config words,
      Agree (Option.Rel (ScoredParse.Alike Same))
        ((withReflexive coarseTimes fineTimes ⟨coarse, fine, toCoarse, config⟩).parse words)
        (parse ⟨coarse, fine, toCoarse, config⟩ words)) ∧
    ∀ closure : UnaryClosure σ,
      (∀ label < closure.labelCount, closure.reflexive.hasLoop label = true) ∧
      closure.reflexive.reflexive = closure.reflexive ∧
      ∀ (times number : Nat) (chain : UnaryChain σ), closure.chains[number]? = some chain →
        (UnaryClosure.reflexive^[times] closure).chains[number]? = some chain := by
  refine ⟨?maps, ?parses, ?closures⟩
  case maps =>
    exact fun rename config =>
      ofModels_iterate_reflexive coarse fine rename config coarseTimes fineTimes
  case parses =>
    intro toCoarse config words
    have coarseAlike := (Model.loopFree_of_ofGrammar coarseMade).alike_iterate_reflexive
      congruence coarseTimes
    have fineAlike := (Model.loopFree_of_ofGrammar fineMade).alike_iterate_reflexive
      congruence fineTimes
    unfold withReflexive
    rw [Model.iterate_reflexive, Model.iterate_reflexive]
    exact @parse_alike σ _ Same congruence ⟨coarse, fine, toCoarse, config⟩ _ coarse.closure _
      fine.closure coarseAlike fineAlike words
  case closures =>
    intro closure
    refine ⟨fun label => closure.hasLoop_reflexive, closure.reflexive_reflexive, ?_⟩
    intro times number chain found
    exact closure.chains_iterate_reflexive times found

theorem reflexive_changes_nothing_dogs_bark :
    (∀ score : ExactScore, 0 + score = score) ∧
      Model.ofGrammar Sample.Exact.coarseGrammar
        (Sample.Exact.lexicon.project Refinement.coarseLabel).score = .ok Sample.Exact.coarse ∧
      Model.ofGrammar Sample.Exact.grammar Sample.Exact.lexicon.score = .ok Sample.Exact.fine ∧
      ∃ parse,
        (withReflexive 1 2
          (Sample.Exact.parser ⟨.below (.finite (mkRat (-2) 1)), none, none⟩)).parse
            ["dogs", "bark"] = .ok (some parse) ∧
        (Sample.Exact.parser ⟨.below (.finite (mkRat (-2) 1)), none, none⟩).parse
            ["dogs", "bark"] = .ok (some parse) := by
  have neutral (score : ExactScore) : 0 + score = score := zero_add score
  have coarseMade : Model.ofGrammar Sample.Exact.coarseGrammar
      (Sample.Exact.lexicon.project Refinement.coarseLabel).score = .ok Sample.Exact.coarse :=
    eq_ok_toOption_get _
  have fineMade : Model.ofGrammar Sample.Exact.grammar Sample.Exact.lexicon.score =
      .ok Sample.Exact.fine :=
    eq_ok_toOption_get _
  have plain : ((Sample.Exact.parser ⟨.below (.finite (mkRat (-2) 1)), none, none⟩).parse
      ["dogs", "bark"]).map (Option.map ScoredParse.usedFallback) = .ok (some false) := by
    decide +kernel
  rcases exists_of_map_eq_ok plain with ⟨parse, parsed, -⟩
  obtain ⟨-, parses, -⟩ := reflexive_changes_nothing (Score.Congruence.of_zero_add neutral)
    coarseMade fineMade 1 2
  have same := ScoredParse.eq_of_agree (parses #[0, 1, 2, 3, 4, 3, 5]
    ⟨.below (.finite (mkRat (-2) 1)), none, none⟩ ["dogs", "bark"])
  exact ⟨neutral, coarseMade, fineMade, parse, same.trans parsed, parsed⟩

end Parser

end ChartParsing
