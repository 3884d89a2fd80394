import ChartParsing.Parser.Sweeping
import ChartParsing.Proofs.Chart.Extraction
import ChartParsing.Proofs.Chart.OutsideSweep
import ChartParsing.Proofs.Parser.Admissible
import ChartParsing.Proofs.Parser.PrunedScore

/-!
# Parsing with tables is parsing with charts

A parser that works on tables in place gives the answers of one that checks the taggings,
charges the cost and reads the finished charts (`Parser.Numbered.sweep_eq_parse`), whatever the
layout of the tables: the same parses at the same scores, the same absence of a parse and the
same errors.  Nothing is asked of scores beyond `Score.Lawful` but that no score other than the
impossible one is as low as it.

The sentence and the closures are taken to be within the numbers that a cell can keep
(`Parser.Numbered`).  The closures of accepted models are (`Parser.numbered_ofModels`).
-/

namespace ChartParsing

variable {σ : Type} [Score σ]

namespace Sweep

variable {sweep : Sweep σ} {pruned : Pruned}

/-- A sweep fails as the checks before a pass do, and leaves tables that hold its chart. -/
theorem inside_agree [Score.Descending σ] (fits : sweep.Fits) (follows : sweep.Follows pruned)
    (lowest : ∀ score : σ, score ≤ impossible → score = impossible) {spent : Nat}
    (within : sweep.config.Within spent) :
    Agree (fun total work => work.1 = total ∧ sweep.Holds pruned work.2)
      (do
        (sweep.pass pruned).checkTaggings
        sweep.config.charge spent (sweep.pass pruned).cost)
      (sweep.inside spent) := by
  rw [← insideSpending_eq follows within]
  exact inside_spends fits follows lowest spent

/-- The tables hold the scores of both stages. -/
theorem Holds.score {tables : InsideTables sweep.shape σ} (holds : sweep.Holds pruned tables)
    (stage : Stage) {label start right : Nat} (valid : sweep.shape.Valid label start right) :
    tables.score stage label start right =
      (sweep.pass pruned).inside.score stage label start (sweep.words.length - right) := by
  cases stage with
  | built => exact (holds.built valid).score
  | closed => exact (holds.closed valid).score

/-! ## Derivations -/

omit [Score σ] in
/-- No number stands for a word. -/
theorem constructionOf?_ne_word (grammar : Grammar σ) (label ordinal middle : Nat) :
    constructionOf? grammar label ordinal middle ≠ some .word := by
  unfold constructionOf?
  split
  · exact fun same => nomatch same
  · intro same
    rcases Option.map_eq_some_iff.mp same with ⟨rule, -, same⟩
    cases same

omit [Score σ] in
/-- A number stands for a rule of the label. -/
theorem mem_of_constructionOf? {grammar : Grammar σ} {label ordinal place middle : Nat}
    {rule : BinaryRule σ}
    (found : constructionOf? grammar label ordinal place = some (.split rule middle)) :
    rule ∈ grammar.byParent.rules label := by
  unfold constructionOf? at found
  split at found
  · cases found
  · rcases Option.map_eq_some_iff.mp found with ⟨listed, member, same⟩
    cases same
    exact List.mem_of_getElem? member

omit [Score σ] in
/-- A number stands for a step down to a known label. -/
theorem base_lt_of_closingOf? {closure : UnaryClosure σ} {label number count : Nat}
    (known : label < count) (chainsKnown : ∀ chain ∈ closure.chains, chain.child < count)
    {closing : Closing σ} (found : closingOf? closure number = some closing) :
    closing.base label < count := by
  unfold closingOf? at found
  split at found
  · obtain rfl := Option.some.inj found
    exact known
  · split at found
    · cases found
    · rcases Option.map_eq_some_iff.mp found with ⟨chain, listed, rfl⟩
      exact chainsKnown chain (List.mem_of_getElem? listed)

section

variable {tables : InsideTables sweep.shape σ} (holds : sweep.Holds pruned tables)
  {numbers : Backpointers sweep.shape} (kept : tables.backpointers? = some numbers)
  {label start right : Nat} (valid : sweep.shape.Valid label start right)

include holds kept valid

theorem closing?_eq_choice :
    numbers.closing? sweep.model.closure label start right =
      ((sweep.pass pruned).inside.closed label start (sweep.words.length - right)).choice :=
  (holds.closed valid).choice _ (by rw [InsideTables.closedAt, kept]; rfl)

theorem construction?_eq_choice (several : start + right ≠ sweep.words.length - 1) :
    numbers.construction? sweep.model.grammar label start right =
      ((sweep.pass pruned).inside.built label start (sweep.words.length - right)).choice :=
  (holds.built valid).choice several _ (by rw [InsideTables.builtAt, kept]; rfl)

/-- What a derivation has below its unary step is rebuilt from the numbers, if the derivations
of narrower spans are. -/
theorem builtTree_of_rebuilt (fits : sweep.Fits) {tree : Tree String}
    (narrower : ∀ {part partStart partRight : Nat} {below : Tree String},
      sweep.shape.Valid part partStart partRight →
      sweep.words.length - partStart - partRight < sweep.words.length - start - right →
      (sweep.pass pruned).derivation? (sweep.pass pruned).inside part partStart
        (sweep.words.length - partRight) = some below →
      sweep.closedTree numbers part partStart partRight = .ok below)
    (rebuilt : (sweep.pass pruned).Rebuilt (sweep.pass pruned).inside label start
      (sweep.words.length - right) tree) :
    sweep.builtTree numbers label start right = .ok tree := by
  have inside : start + right < sweep.words.length := valid.inside
  rw [builtTree]
  cases rebuilt with
  | word word =>
      by_cases last : start + right = sweep.words.length - 1
      · exact if_pos last
      · have stands := construction?_eq_choice holds kept valid last
        exact absurd (stands.trans word) (constructionOf?_ne_word _ _ _ _)
  | @split rule middle left beside split after before leftDerived rightDerived =>
      have last : start + right ≠ sweep.words.length - 1 := by omega
      have stands := construction?_eq_choice holds kept valid last
      rcases fits.grammar.parts_of_mem_byParent valid.known
        (mem_of_constructionOf? (stands.trans split)) with ⟨leftKnown, rightKnown, -⟩
      have leftValid : sweep.shape.Valid rule.left start (sweep.words.length - middle) :=
        ⟨leftKnown, by change _ < sweep.words.length; omega⟩
      have rightValid : sweep.shape.Valid rule.right middle right :=
        ⟨rightKnown, by change _ < sweep.words.length; omega⟩
      have back : sweep.words.length - (sweep.words.length - middle) = middle := by omega
      rw [if_neg last, stands, split]
      dsimp only
      rw [dif_pos ⟨after, before⟩, narrower leftValid (by omega) (back.symm ▸ leftDerived),
        narrower rightValid (by omega) rightDerived]
      rfl

/-- The tree that the choices of a chart lead to is rebuilt from the numbers. -/
theorem closedTree_of_derivation? (fits : sweep.Fits) {tree : Tree String}
    (derived : (sweep.pass pruned).derivation? (sweep.pass pruned).inside label start
      (sweep.words.length - right) = some tree) :
    sweep.closedTree numbers label start right = .ok tree := by
  induction width : sweep.words.length - start - right using Nat.strong_induction_on
    generalizing label start right tree with
  | _ width inductionHypothesis =>
    obtain ⟨closing, below, closed, rebuilt, rfl⟩ := Pass.exists_rebuilt_of_derivation? derived
    have chosen := (closing?_eq_choice holds kept valid).trans closed
    have baseValid : sweep.shape.Valid (closing.base label) start right :=
      ⟨base_lt_of_closingOf? valid.known (fun chain member =>
        (fits.closure.known chain member).2) chosen, valid.inside⟩
    have found := builtTree_of_rebuilt holds kept baseValid fits
      (fun partValid less derived =>
        inductionHypothesis _ (width ▸ less) partValid derived rfl) rebuilt
    rw [closedTree, chosen]
    dsimp only
    rw [found]
    rfl

end

/-- A possible sentence has a derivation, which is rebuilt from the numbers that are kept. -/
theorem exists_closedTree [Score.Lawful σ] (built : sweep.model.IsBuilt)
    (nonempty : sweep.words ≠ []) (fits : sweep.Fits) {tables : InsideTables sweep.shape σ}
    (holds : sweep.Holds pruned tables) (keeps : sweep.keepsChoices = true)
    (accepted : (sweep.pass pruned).taggingError? = none)
    (possible : ¬Score.isImpossible ((sweep.pass pruned).inside.score .closed
      sweep.model.grammar.root 0 sweep.words.length) = true) :
    ∃ numbers tree, tables.backpointers? = some numbers ∧
      (sweep.pass pruned).derivation? (sweep.pass pruned).inside sweep.model.grammar.root 0
        sweep.words.length = some tree ∧
      sweep.closedTree numbers sweep.model.grammar.root 0 0 = .ok tree := by
  have length : 0 < sweep.words.length := List.length_pos_of_ne_nil nonempty
  have rootValid : sweep.shape.Valid sweep.model.grammar.root 0 0 :=
    ⟨built.wellFormed.rooted, length⟩
  obtain ⟨numbers, kept⟩ := Option.isSome_iff_exists.mp (holds.kept.trans keeps)
  have notImpossible : (sweep.pass pruned).inside.score .closed sweep.model.grammar.root 0
      sweep.words.length ≠ impossible := by
    intro same
    rw [same] at possible
    exact possible (decide_eq_true (Score.le_refl Score.impossible_nonpos))
  obtain ⟨tree, derived⟩ := Pass.exists_derivation?
    (Pass.nonpositive_of_isBuilt built accepted) length (Nat.le_refl _) built.wellFormed.rooted
    notImpossible
  exact ⟨numbers, tree, kept, derived,
    closedTree_of_derivation? holds kept rootValid fits derived⟩

end Sweep

/-- Coarse tables tell of a constituent what coarse charts tell of it. -/
def TablePosterior.Shows {shape : ChartShape} (tables : TablePosterior shape σ)
    (posterior : Posterior σ) : Prop :=
  ∀ stage {label start right}, shape.Valid label start right →
    tables.marginal stage label start right =
      posterior.marginal stage label start (shape.length - right)

namespace Parser

variable [Score.Lawful σ] {parser : Parser σ} {layout : ChartLayout} {words : List String}

section

variable (lowest : ∀ score : σ, score ≤ impossible → score = impossible) (nonempty : words ≠ [])

include lowest nonempty

/-- Sweeping with the fine model finds what the fine pass finds. -/
theorem sweepFine_eq_finePass (built : parser.fine.IsBuilt)
    {skips : Stage → LabelId → Nat → Nat → Bool} {pruned : Pruned}
    (fits : (parser.fineSweep layout words skips).Fits)
    (follows : (parser.fineSweep layout words skips).Follows pruned) {spent : Nat}
    (within : parser.config.Within spent) :
    parser.sweepFine layout words skips spent = parser.finePass words pruned spent := by
  have length : 0 < words.length := List.length_pos_of_ne_nil nonempty
  have rootValid : (parser.fineSweep layout words skips).shape.Valid
      parser.fine.grammar.root 0 0 := ⟨built.wellFormed.rooted, length⟩
  unfold sweepFine finePass
  dsimp only
  rw [← bind_assoc]
  symm
  apply (Sweep.inside_agree fits follows lowest within).known.bind_eq
  rintro _ ⟨total, tables⟩ ⟨passed, rfl, holds⟩
  rcases bind_eq_ok_iff.mp passed with ⟨_, accepted, -⟩
  have score : tables.score .closed parser.fine.grammar.root 0 0 =
      (parser.fine.pass words pruned).inside.score .closed parser.fine.grammar.root 0
        words.length := (holds.closed rootValid).score
  dsimp only
  rw [← score]
  split
  · rfl
  · rename_i possible
    rw [score] at possible
    obtain ⟨numbers, tree, kept, derived, rebuilt⟩ := Sweep.exists_closedTree built nonempty
      fits holds rfl (Pass.checkTaggings_eq_ok_iff.mp accepted) possible
    rw [derived, kept]
    dsimp only
    rw [rebuilt]
    rfl

/-- Sweeping with the coarse model finds what the coarse pass finds, within the budget. -/
theorem sweepCoarse_agree (fits : (parser.coarseSweep layout words).Fits) :
    Agree (fun expected found =>
        Option.Rel (fun posterior tables => tables.Shows posterior) expected.1 found.1 ∧
          expected.2 = found.2 ∧ parser.config.Within found.2)
      (parser.coarsePass words) (parser.sweepCoarse layout words) := by
  have length : 0 < words.length := List.length_pos_of_ne_nil nonempty
  have rootValid : (parser.coarseSweep layout words).shape.Valid
      parser.coarse.grammar.root 0 0 := ⟨fits.grammar.rooted, length⟩
  have follows : (parser.coarseSweep layout words).Follows .nothing := fun _ _ _ _ _ => rfl
  unfold coarsePass sweepCoarse
  dsimp only
  rw [← bind_assoc]
  apply (Sweep.inside_agree fits follows lowest Config.within_zero).known.bind
  rintro _ ⟨spent, tables⟩ ⟨passed, rfl, holds⟩
  rcases bind_eq_ok_iff.mp passed with ⟨_, -, charged⟩
  have within : parser.config.Within spent := Config.within_of_charge charged
  have score : tables.score .closed parser.coarse.grammar.root 0 0 =
      (parser.coarse.pass words .nothing).inside.score .closed parser.coarse.grammar.root 0
        words.length := (holds.closed rootValid).score
  dsimp only
  rw [← score]
  split
  · exact .ok ⟨.none, rfl, within⟩
  · have surrounded := Sweep.outside_spends fits holds spent length
    rw [Sweep.outsideSpending_eq within] at surrounded
    apply surrounded.known.bind
    rintro _ ⟨total, outside⟩ ⟨charged, rfl, around⟩
    refine .ok ⟨.some fun stage label start right valid => ?_, rfl,
      Config.within_of_charge charged⟩
    unfold TablePosterior.marginal Posterior.marginal
    dsimp only
    rw [around .built valid, holds.score stage valid]

end

/-! ## Parsers -/

/-- The models of a parser are built, their chains have numbers, and fine labels have coarse
ones. -/
structure Numbered (parser : Parser σ) : Prop where
  coarse : parser.coarse.IsBuilt
  fine : parser.fine.IsBuilt
  coarseChains : parser.coarse.closure.chains.length ≤ ruleLimit
  fineChains : parser.fine.closure.chains.length ≤ ruleLimit
  mapped : ∀ label < parser.fine.grammar.labels.size,
    parser.toCoarse.getD label 0 < parser.coarse.grammar.labels.size

/-- Parsers of accepted models are made with fine labels that have coarse ones. -/
theorem numbered_ofModels {coarse fine : Model σ} {rename : String → String}
    {config : Config σ} (coarseAccepted : coarse.IsAccepted) (fineAccepted : fine.IsAccepted)
    (made : ofModels coarse fine rename config = .ok parser) : parser.Numbered := by
  rcases ofModels_eq_ok_iff.mp made with ⟨ids, mapped, -, rfl⟩
  obtain ⟨coarseBuilt, coarseChains⟩ := coarseAccepted.isBuilt_and_numbered
  obtain ⟨fineBuilt, fineChains⟩ := fineAccepted.isBuilt_and_numbered
  have distinct := coarseBuilt.wellFormed.distinct
  have members := mapped_of_mapLabels_eq_ok distinct mapped
  obtain rfl := Except.ok.inj ((mapLabels_eq_ok distinct members).symm.trans mapped)
  refine ⟨coarseBuilt, fineBuilt, coarseChains, fineChains, fun label known => ?_⟩
  have listed : label < fine.grammar.labels.names.length := known
  simpa [listed] using Vocabulary.idxOf_lt_size (members _ (List.getElem_mem listed))

namespace Numbered

variable (numbered : parser.Numbered) (short : words.length ≤ ruleLimit)

include numbered short

theorem fits_coarse : (parser.coarseSweep layout words).Fits :=
  ⟨numbered.coarse.wellFormed, numbered.coarse.bounded, numbered.coarseChains, short⟩

theorem fits_fine (skips : Stage → LabelId → Nat → Nat → Bool) :
    (parser.fineSweep layout words skips).Fits :=
  ⟨numbered.fine.wellFormed, numbered.fine.bounded, numbered.fineChains, short⟩

omit [Score.Lawful σ] short in
/-- Below a threshold the coarse tables leave out the cells that the coarse charts leave out. -/
theorem follows_skipsBelow
    {tables : TablePosterior (parser.coarseSweep layout words).shape σ} {posterior : Posterior σ}
    (shows : tables.Shows posterior) (threshold : σ) :
    (parser.fineSweep layout words (tables.skipsBelow threshold parser.toCoarse)).Follows
      (posterior.prunedBelow threshold parser.toCoarse) := by
  intro stage label start right valid
  have coarseValid : (parser.coarseSweep layout words).shape.Valid
      (parser.toCoarse.getD label 0) start right :=
    ⟨numbered.mapped label valid.known, valid.inside⟩
  exact congrArg (fun marginal => decide (marginal < threshold)) (shows stage coarseValid)

variable (lowest : ∀ score : σ, score ≤ impossible → score = impossible)

include lowest

theorem sweepExhaustively_eq (nonempty : words ≠ []) :
    parser.sweepExhaustively layout words = parser.parseExhaustively words :=
  sweepFine_eq_finePass lowest nonempty numbered.fine (numbered.fits_fine short _)
    (fun _ _ _ _ _ => rfl) Config.within_zero

theorem sweepPruned_eq (nonempty : words ≠ []) (threshold : σ) :
    parser.sweepPruned layout words threshold = parser.parsePruned words threshold := by
  symm
  apply (sweepCoarse_agree lowest nonempty (numbered.fits_coarse short)).bind_eq
  rintro ⟨posterior?, _⟩ ⟨tables?, spent⟩ ⟨shows, rfl, within⟩
  cases shows with
  | none =>
      exact (sweepFine_eq_finePass lowest nonempty numbered.fine (numbered.fits_fine short _)
        (fun _ _ _ _ _ => rfl) within).symm
  | some shows =>
      have fine := sweepFine_eq_finePass lowest nonempty numbered.fine (numbered.fits_fine short _)
        (numbered.follows_skipsBelow shows threshold) within
      have exhaustive : parser.sweepExhaustively layout words = _ :=
        numbered.sweepExhaustively_eq short lowest nonempty
      refine (congrArg (· >>= _) fine.symm).trans (congrArg (_ >>= ·) (funext fun found? => ?_))
      cases found? with
      | none => exact congrArg (· >>= _) exhaustive.symm
      | some parse => rfl

/-- A parser that fills tables in place answers as one that reads finished charts. -/
theorem sweep_eq_parse (layout : ChartLayout) :
    parser.sweep layout words = parser.parse words := by
  by_cases empty : words = []
  · subst empty
    rfl
  · have notEmpty : ¬words.isEmpty := by simpa using empty
    rw [parse_of_ne_nil _ empty]
    refine (if_neg notEmpty).trans (congrArg (_ >>= ·) (funext fun _ => ?_))
    cases parser.config.pruning with
    | below threshold => exact numbered.sweepPruned_eq short lowest empty threshold
    | disabled => exact numbered.sweepExhaustively_eq short lowest empty

end Numbered

/-- The sample parser is made of accepted models. -/
theorem sweep_sample (config : Config ExactScore) (layout : ChartLayout) {words : List String}
    (short : words.length ≤ ruleLimit) :
    (Sample.Exact.parser config).sweep layout words =
      (Sample.Exact.parser config).parse words := by
  have coarseAccepted : Sample.Exact.coarse.IsAccepted :=
    .ofGrammar ⟨_, _, Grammar.project_sample⟩ (eq_ok_toOption_get _)
  have fineAccepted : Sample.Exact.fine.IsAccepted :=
    .ofGrammar Grammar.isDeclared_sample (eq_ok_toOption_get _)
  have numbered := numbered_ofModels coarseAccepted fineAccepted (ofModels_sample config)
  exact numbered.sweep_eq_parse short (fun _ => ExactScore.eq_impossible_of_le) layout

end Parser

end ChartParsing
