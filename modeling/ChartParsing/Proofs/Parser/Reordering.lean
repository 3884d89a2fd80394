import ChartParsing.Proofs.Chart.Covering
import ChartParsing.Proofs.Parser.Unlimited
import ChartParsing.Proofs.Reordering

/-!
# Parsing with reordered models

The order of the declarations and entries behind a parser decides how labels and rules are
numbered, and in which order the charts are filled.  It decides nothing else
(`Parser.order_irrelevant`): each of two reordered models covers the other, so that their
marginals agree, the same cells are pruned, and the passes over what is left score the same.
Only among derivations with the same score may the parsers choose differently.
-/

namespace ChartParsing

/-! ## Models that cover each other -/

namespace Model

/-- Two models that have been built and accept a sentence, each of which covers the other
without renaming any label. -/
structure Interchangeable (model other : Model ExactScore) (words : List String) : Prop where
  built : model.IsBuilt
  otherBuilt : other.IsBuilt
  accepts : model.Accepts words
  otherAccepts : other.Accepts words
  covers : other.Covers model id
  covered : model.Covers other id

theorem Reordered.accepts {model other : Model ExactScore} {words : List String}
    (reordered : model.Reordered other) (nonempty : words ≠ []) : model.Accepts words where
  sound := reordered.sound
  nonempty := nonempty
  taggings _ := Pass.taggingError?_of_nonpositive reordered.lexicon_nonpositive

theorem Reordered.interchangeable {model other : Model ExactScore} {words : List String}
    (reordered : model.Reordered other) (nonempty : words ≠ []) :
    model.Interchangeable other words where
  built := reordered.isBuilt
  otherBuilt := reordered.symm.isBuilt
  accepts := reordered.accepts nonempty
  otherAccepts := reordered.symm.accepts nonempty
  covers := reordered.covers
  covered := reordered.symm.covers

namespace Interchangeable

variable {model other : Model ExactScore} {words : List String}
  (interchangeable : model.Interchangeable other words)

include interchangeable

theorem symm : other.Interchangeable model words :=
  ⟨interchangeable.otherBuilt, interchangeable.built, interchangeable.otherAccepts,
    interchangeable.accepts, interchangeable.covered, interchangeable.covers⟩

theorem bestScore_eq : model.bestScore words = other.bestScore words :=
  ExactScore.le_antisymm
    (Parser.bestScore_le_bestScore interchangeable.covers interchangeable.accepts
      interchangeable.otherAccepts)
    (Parser.bestScore_le_bestScore interchangeable.covered interchangeable.otherAccepts
      interchangeable.accepts)

section

variable {stage : Stage} {label image : LabelId} {start stop : Nat}
  (known : label < model.grammar.labels.size) (imageKnown : image < other.grammar.labels.size)
  (named : other.grammar.labels.name image = model.grammar.labels.name label)
  (nonempty : start < stop) (bounded : stop ≤ words.length)

include known imageKnown named nonempty bounded

/-- The best parse through a node is no better than that through the node of the same name
under the other model. -/
theorem outside_add_inside_le :
    (model.pass words .nothing).outside.score .built label start stop +
        (model.pass words .nothing).inside.score stage label start stop ≤
      (other.pass words .nothing).outside.score .built image start stop +
        (other.pass words .nothing).inside.score stage image start stop := by
  have accepts := interchangeable.accepts
  have otherAccepts := interchangeable.otherAccepts
  apply (accepts.isBestOf_scoresThrough known nonempty bounded stage).le_of_matched
    (otherAccepts.isBestOf_scoresThrough imageKnown nonempty bounded stage)
  intro score through
  exact interchangeable.covers.exists_scoresThrough otherAccepts.sound.grammar
    accepts.sound.grammar named through

/-- Nodes of the same name have the same marginal. -/
theorem marginal_eq :
    (model.pass words .nothing).posterior.marginal stage label start stop =
      (other.pass words .nothing).posterior.marginal stage image start stop := by
  have sums :
      (model.pass words .nothing).outside.score .built label start stop +
          (model.pass words .nothing).inside.score stage label start stop =
        (other.pass words .nothing).outside.score .built image start stop +
          (other.pass words .nothing).inside.score stage image start stop :=
    ExactScore.le_antisymm
      (interchangeable.outside_add_inside_le known imageKnown named nonempty bounded)
      (interchangeable.symm.outside_add_inside_le imageKnown known named.symm nonempty bounded)
  have totals : (model.pass words .nothing).total = (other.pass words .nothing).total :=
    interchangeable.bestScore_eq
  rw [Pass.marginal_posterior, Pass.marginal_posterior, sums, totals]

end

end Interchangeable

/-- Two prunings drop the same cells, where labels of the same name are the same. -/
def PrunesAlike (model other : Model ExactScore) (words : List String)
    (pruned otherPruned : Pruned) : Prop :=
  ∀ stage, ∀ label < model.grammar.labels.size, ∀ image < other.grammar.labels.size,
    other.grammar.labels.name image = model.grammar.labels.name label →
    ∀ start stop, start < stop → stop ≤ words.length →
      pruned stage label start stop = otherPruned stage image start stop

section

variable {model other : Model ExactScore} {words : List String} {pruned otherPruned : Pruned}

theorem prunesAlike_nothing : model.PrunesAlike other words .nothing .nothing :=
  fun _ _ _ _ _ _ _ _ _ _ => rfl

theorem PrunesAlike.symm (alike : model.PrunesAlike other words pruned otherPruned) :
    other.PrunesAlike model words otherPruned pruned :=
  fun stage image imageKnown label known named start stop nonempty bounded =>
    (alike stage label known image imageKnown named.symm start stop nonempty bounded).symm

/-- A pruned pass covers that over a model which its model covers and which is pruned
alike. -/
theorem PrunesAlike.pass_covers (alike : model.PrunesAlike other words pruned otherPruned)
    (covers : other.Covers model id) :
    (other.pass words otherPruned).Covers (model.pass words pruned) id where
  model := covers
  words := rfl
  kept stage label known image imageKnown named start stop nonempty bounded kept :=
    (alike stage label known image imageKnown named start stop nonempty bounded).symm.trans kept

/-- Passes that are pruned alike score the same. -/
theorem Interchangeable.total_eq (interchangeable : model.Interchangeable other words)
    (alike : model.PrunesAlike other words pruned otherPruned) :
    (model.pass words pruned).total = (other.pass words otherPruned).total := by
  have accepts := interchangeable.accepts
  have otherAccepts := interchangeable.otherAccepts
  apply ExactScore.le_antisymm
  · exact (alike.pass_covers interchangeable.covers).total_le otherAccepts.sound
      (otherAccepts.nonpositive _) accepts.sound (accepts.nonpositive _) accepts.nonempty
  · exact (alike.symm.pass_covers interchangeable.covered).total_le accepts.sound
      (accepts.nonpositive _) otherAccepts.sound (otherAccepts.nonpositive _) accepts.nonempty

end

end Model

/-! ## Outcomes -/

/-- What a parse tells besides the derivation that it chooses. -/
def ScoredParse.outcome {σ : Type} (parse : ScoredParse σ) : σ × Bool :=
  (parse.score, parse.usedFallback)

/-- The outcome of a parse after a fallback depends on that of the parse. -/
theorem ScoredParse.map_outcome_retried {σ : Type} (found? : Option (ScoredParse σ)) :
    (found?.map ScoredParse.retried).map ScoredParse.outcome =
      (found?.map ScoredParse.outcome).map fun outcome => (outcome.1, true) := by
  cases found? <;> rfl

/-- The outcome of a pass is a function of the score of its root cell. -/
theorem Pass.map_outcome_of_bestParse? {σ : Type} [Score σ] {pass : Pass σ}
    {found? : Option (ScoredParse σ)} (returned : pass.bestParse? = .ok found?) :
    found?.map ScoredParse.outcome =
      if Score.isImpossible pass.total then none else some (pass.total, false) := by
  cases found? with
  | none =>
      rw [if_pos (Pass.bestParse?_eq_none_iff.mp returned)]
      rfl
  | some parse =>
      obtain ⟨score, direct, possible⟩ := Pass.of_bestParse?_eq_some returned
      have outcome : parse.outcome = (pass.total, false) := Prod.ext score direct
      rw [possible]
      exact congrArg some outcome

/-- Passes over interchangeable models that are pruned alike have the same outcome. -/
theorem Model.Interchangeable.exists_bestParse? {model other : Model ExactScore}
    {words : List String} (interchangeable : model.Interchangeable other words)
    {pruned otherPruned : Pruned} (alike : model.PrunesAlike other words pruned otherPruned) :
    ∃ found? otherFound?, (model.pass words pruned).bestParse? = .ok found? ∧
      (other.pass words otherPruned).bestParse? = .ok otherFound? ∧
      found?.map ScoredParse.outcome = otherFound?.map ScoredParse.outcome := by
  have nonempty := interchangeable.accepts.nonempty
  obtain ⟨found?, found⟩ : ∃ found?, (model.pass words pruned).bestParse? = .ok found? :=
    Pass.exists_bestParse? interchangeable.built (interchangeable.accepts.taggings pruned)
      nonempty
  obtain ⟨otherFound?, otherFound⟩ :
      ∃ found?, (other.pass words otherPruned).bestParse? = .ok found? :=
    Pass.exists_bestParse? interchangeable.otherBuilt
      (interchangeable.otherAccepts.taggings otherPruned) nonempty
  refine ⟨found?, otherFound?, found, otherFound, ?_⟩
  rw [Pass.map_outcome_of_bestParse? found, Pass.map_outcome_of_bestParse? otherFound,
    interchangeable.total_eq alike]

/-! ## Parsers -/

namespace Parser

variable {coarse otherCoarse fine otherFine : Model ExactScore} {rename : String → String}
  {words : List String}

/-- A renaming stays one between models with the same labels. -/
theorem Renames.of_covers (renames : Renames coarse fine rename)
    (coarseCovers : otherCoarse.Covers coarse id) (fineCovered : fine.Covers otherFine id) :
    Renames otherCoarse otherFine rename where
  labels _ member :=
    coarseCovers.grammar.mem_labels (renames.labels _ (fineCovered.grammar.mem_labels member))
  root :=
    coarseCovers.grammar.root.trans
      (renames.root.trans (congrArg rename fineCovered.grammar.root))

/-- A threshold prunes the same cells of reordered models. -/
theorem prunesAlike_prunedBelow (coarses : coarse.Interchangeable otherCoarse words)
    {toCoarse otherToCoarse : Array LabelId} (maps : Maps coarse fine rename toCoarse)
    (otherMaps : Maps otherCoarse otherFine rename otherToCoarse) (threshold : ExactScore) :
    fine.PrunesAlike otherFine words
      ((coarse.pass words .nothing).posterior.prunedBelow threshold toCoarse)
      ((otherCoarse.pass words .nothing).posterior.prunedBelow threshold otherToCoarse) := by
  intro stage label known image imageKnown named start stop nonempty bounded
  obtain ⟨coarseKnown, coarseNamed⟩ := maps label known
  obtain ⟨otherKnown, otherNamed⟩ := otherMaps image imageKnown
  have sameCoarse : otherCoarse.grammar.labels.name (otherToCoarse.getD image 0) =
      coarse.grammar.labels.name (toCoarse.getD label 0) := by
    rw [otherNamed, coarseNamed, named]
  rw [Posterior.prunedBelow, Posterior.prunedBelow,
    coarses.marginal_eq coarseKnown otherKnown sameCoarse nonempty bounded]

/-- Parsers of interchangeable models find parses of the same outcome, or none. -/
theorem exists_parse_of_interchangeable (pruning : Pruning ExactScore)
    (coarses : coarse.Interchangeable otherCoarse words)
    (fines : fine.Interchangeable otherFine words) {toCoarse otherToCoarse : Array LabelId}
    (maps : Maps coarse fine rename toCoarse)
    (otherMaps : Maps otherCoarse otherFine rename otherToCoarse) :
    ∃ found? otherFound?,
      (mk coarse fine toCoarse ⟨pruning, none, none⟩).parse words = .ok found? ∧
      (mk otherCoarse otherFine otherToCoarse ⟨pruning, none, none⟩).parse words =
        .ok otherFound? ∧
      found?.map ScoredParse.outcome = otherFound?.map ScoredParse.outcome := by
  have nonempty := fines.accepts.nonempty
  have accepted := fines.accepts.taggings
  have otherAccepted := fines.otherAccepts.taggings
  obtain ⟨whole?, otherWhole?, whole, otherWhole, wholes⟩ :=
    fines.exists_bestParse? Model.prunesAlike_nothing
  cases pruning with
  | disabled =>
      exact ⟨whole?, otherWhole?,
        (parse_eq_of_disabled rfl nonempty (accepted _)).trans whole,
        (parse_eq_of_disabled rfl nonempty (otherAccepted _)).trans otherWhole, wholes⟩
  | below threshold =>
      obtain ⟨pruned?, otherPruned?, pruned, otherPruned, pruneds⟩ :=
        fines.exists_bestParse? (prunesAlike_prunedBelow coarses maps otherMaps threshold)
      refine ⟨_, _,
        parse_eq_of_below rfl nonempty (coarses.accepts.taggings _) accepted whole pruned,
        parse_eq_of_below rfl nonempty (coarses.otherAccepts.taggings _) otherAccepted
          otherWhole otherPruned, ?_⟩
      -- Whether there is a coarse parse is the same for both.
      rw [coarses.total_eq Model.prunesAlike_nothing]
      split
      · exact wholes
      · rw [Option.map_or, Option.map_or, ScoredParse.map_outcome_retried,
          ScoredParse.map_outcome_retried, pruneds, wholes]

/-- Reordering the declarations and entries behind a parser, or repeating some of them,
leaves what it finds: the reordered models make up a parser too, it finds a parse where the
first one does, with the same score, and it falls back where the first one does. -/
theorem order_irrelevant {parser : Parser ExactScore} {pruning : Pruning ExactScore}
    (coarseReordered : coarse.Reordered otherCoarse) (fineReordered : fine.Reordered otherFine)
    (made : ofModels coarse fine rename ⟨pruning, none, none⟩ = .ok parser) :
    ∃ other, ofModels otherCoarse otherFine rename ⟨pruning, none, none⟩ = .ok other ∧
      ∀ words, ∃ found? otherFound?,
        parser.parse words = .ok found? ∧ other.parse words = .ok otherFound? ∧
        found?.isSome = otherFound?.isSome ∧
        ∀ found otherFound, found? = some found → otherFound? = some otherFound →
          found.score = otherFound.score ∧ found.usedFallback = otherFound.usedFallback := by
  obtain ⟨renames, rfl⟩ := (ofModels_eq_ok_iff_renames coarseReordered.sound.grammar
    fineReordered.sound.grammar).mp made
  have otherRenames := renames.of_covers coarseReordered.covers fineReordered.symm.covers
  refine ⟨_, (ofModels_eq_ok_iff_renames coarseReordered.symm.sound.grammar
    fineReordered.symm.sound.grammar).mpr ⟨otherRenames, rfl⟩, ?_⟩
  intro words
  by_cases empty : words = []
  · subst empty
    refine ⟨none, none, rfl, rfl, rfl, ?_⟩
    rintro found otherFound ⟨⟩
  obtain ⟨found?, otherFound?, parsed, otherParsed, same⟩ :=
    exists_parse_of_interchangeable pruning (coarseReordered.interchangeable empty)
      (fineReordered.interchangeable empty) (maps_of_labels renames.labels)
      (maps_of_labels otherRenames.labels)
  refine ⟨found?, otherFound?, parsed, otherParsed, ?alike, ?outcomes⟩
  case alike =>
    have both := congrArg Option.isSome same
    rw [Option.isSome_map, Option.isSome_map] at both
    exact both
  case outcomes =>
    rintro found otherFound rfl rfl
    exact Prod.ext_iff.mp (Option.some.inj same)

/-- The sample is declared backwards and twice over, and its lexicon entered backwards, so
that most labels are numbered anew. -/
theorem order_irrelevant_dogs_bark :
    ∃ otherCoarse otherFine other found otherFound,
      Sample.Exact.coarse.Reordered otherCoarse ∧ Sample.Exact.fine.Reordered otherFine ∧
      Sample.Exact.fine.grammar.labels.names ≠ otherFine.grammar.labels.names ∧
      ofModels otherCoarse otherFine Refinement.coarseLabel
        ⟨.below (.finite (mkRat (-1) 8)), none, none⟩ = .ok other ∧
      (Sample.Exact.parser ⟨.below (.finite (mkRat (-1) 8)), none, none⟩).parse
        ["dogs", "bark"] = .ok (some found) ∧
      other.parse ["dogs", "bark"] = .ok (some otherFound) ∧
      found.score = otherFound.score ∧ found.usedFallback = otherFound.usedFallback := by
  have grammars : Sample.Exact.grammar.Reordered
      (.merge "ROOT" (Sample.Exact.declarations.reverse ++ Sample.Exact.declarations)) :=
    .declare (fun _ => by rw [List.mem_append, List.mem_reverse, or_self])
      (Grammar.declare_eq_ok_iff.mpr ⟨by decide +kernel, rfl⟩)
      (Grammar.declare_eq_ok_iff.mpr ⟨by decide +kernel, rfl⟩)
  have lexicons : Sample.Exact.lexicon.Reordered ⟨.ofList Sample.Exact.taggings.reverse, .empty⟩ :=
    .ofEntries (fun _ => List.mem_reverse.symm)
      (TableLexicon.ofEntries_eq_ok_iff.mpr ⟨by decide +kernel, rfl⟩)
      (TableLexicon.ofEntries_eq_ok_iff.mpr ⟨by decide +kernel, rfl⟩)
  have coarseReordered : Sample.Exact.coarse.Reordered _ :=
    .intro (.project Refinement.coarseLabel grammars Grammar.project_sample
        (Grammar.declare_eq_ok_iff.mpr ⟨by decide +kernel, rfl⟩))
      (.table (.project Refinement.coarseLabel lexicons)) Model.IsModelOf.sample_coarse
      (Model.IsModelOf.of_toOption (by decide +kernel))
  have fineReordered : Sample.Exact.fine.Reordered _ :=
    .intro grammars (.table lexicons) Model.IsModelOf.sample_fine
      (Model.IsModelOf.of_toOption (by decide +kernel))
  obtain ⟨other, made, same⟩ := order_irrelevant coarseReordered fineReordered
    (ofModels_sample ⟨.below (.finite (mkRat (-1) 8)), none, none⟩)
  obtain ⟨found?, otherFound?, parsed, otherParsed, both, outcomes⟩ := same ["dogs", "bark"]
  have isParsed : ((Sample.Exact.parser ⟨.below (.finite (mkRat (-1) 8)), none, none⟩).parse
      ["dogs", "bark"]).map Option.isSome = .ok true := by
    decide +kernel
  rw [parsed] at isParsed
  rcases Option.isSome_iff_exists.mp (Except.ok.inj isParsed) with ⟨found, rfl⟩
  rcases Option.isSome_iff_exists.mp both.symm with ⟨otherFound, rfl⟩
  exact ⟨_, _, other, found, otherFound, coarseReordered, fineReordered, by decide +kernel, made,
    parsed, otherParsed, outcomes found otherFound rfl rfl⟩

end Parser

end ChartParsing
