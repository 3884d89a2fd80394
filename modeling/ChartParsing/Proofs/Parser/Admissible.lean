import ChartParsing.Proofs.Chart.Covering
import ChartParsing.Proofs.Parser.Marginal
import ChartParsing.Proofs.Projection
import ChartParsing.Proofs.Unary.Bounds

/-!
# Pruning by a projection is admissible

The coarse model of a parser is often a projection of the fine one.  After its labels
have been renamed, the best fine parse is a coarse parse at no worse a score, so each
of its nodes has a coarse marginal of at least the fine score relative to the coarse
one.  Below that threshold nothing of the best fine parse is pruned, and the parser
returns a parse with its score at the first attempt.
-/

namespace ChartParsing

variable {grammar coarseGrammar : Grammar ExactScore} {lexicon : TableLexicon ExactScore}
  {rename : String → String} {fine coarse : Model ExactScore}

/-! ## Models of a projection -/

namespace Model

theorem tagScore_of_isModelOf (wellFormed : lexicon.WellFormed)
    (isModel : IsModelOf grammar lexicon.score fine) (word tag : String) :
    fine.tagScore word tag = lexicon.score word tag :=
  tagScore_of_table wellFormed (fun _ => ExactScore.isUndefined_eq_false) isModel.lexicon_eq
    word tag

/-- The model of a projection covers the model that it is made of. -/
theorem covers_of_project (built : lexicon.IsBuilt)
    (projected : grammar.project rename = .ok coarseGrammar)
    (fineModel : IsModelOf grammar lexicon.score fine)
    (coarseModel : IsModelOf coarseGrammar (lexicon.project rename).score coarse) :
    coarse.Covers fine rename := by
  apply covers_of_projected (TableLexicon.wellFormed_of_isBuilt built)
    (fun _ => ExactScore.isUndefined_eq_false) _ fineModel.lexicon_eq coarseModel.lexicon_eq
  rw [fineModel.grammar_eq, coarseModel.grammar_eq]
  exact projected

/-- A model covers that of its projection if no label changes. -/
theorem covers_project_of_unchanged (declared : grammar.IsDeclared) (built : lexicon.IsBuilt)
    (projected : grammar.project rename = .ok coarseGrammar)
    (unchanged : ∀ label, rename label = label)
    (fineModel : IsModelOf grammar lexicon.score fine)
    (coarseModel : IsModelOf coarseGrammar (lexicon.project rename).score coarse) :
    fine.Covers coarse rename := by
  have wellFormed := TableLexicon.wellFormed_of_isBuilt built
  constructor
  case grammar =>
    rw [fineModel.grammar_eq, coarseModel.grammar_eq]
    exact Grammar.covers_project_of_unchanged (Grammar.wellFormed_of_isDeclared declared)
      unchanged projected
  case tags =>
    intro word tag
    rw [tagScore_of_isModelOf wellFormed fineModel,
      tagScore_of_isModelOf (wellFormed.project rename) coarseModel, unchanged]
    exact TableLexicon.score_project_le_score wellFormed unchanged word tag
  case tagsNonpos =>
    intro word tag
    rw [tagScore_of_isModelOf wellFormed fineModel]
    exact TableLexicon.score_nonpos wellFormed word tag

end Model

namespace Parser

/-! ## Mapping labels -/

/-- Labels whose renamings are all there are mapped to their numbers. -/
theorem mapLabels_eq_ok {σ : Type} {labels : Vocabulary} (distinct : labels.names.Nodup)
    {names : List String} (mapped : ∀ name ∈ names, rename name ∈ labels.names) :
    mapLabels labels rename names =
      (.ok (names.map fun name => labels.names.idxOf (rename name)) :
        Except (ModelError σ) (List LabelId)) := by
  induction names with
  | nil => rfl
  | cons name rest inductionHypothesis =>
      have member := mapped name List.mem_cons_self
      have found : labels.id? (rename name) = some (labels.names.idxOf (rename name)) :=
        (Vocabulary.id?_eq_some_iff distinct).mpr
          ⟨Vocabulary.idxOf_lt_size member, Vocabulary.name_idxOf member⟩
      rw [mapLabels, found]
      dsimp only
      rw [inductionHypothesis fun name member => mapped name (List.mem_cons_of_mem _ member)]
      rfl

/-- Labels are mapped only where their renamings are all there. -/
theorem mapped_of_mapLabels_eq_ok {σ : Type} {labels : Vocabulary}
    (distinct : labels.names.Nodup) {names : List String} {ids : List LabelId}
    (mapped : mapLabels labels rename names = (.ok ids : Except (ModelError σ) (List LabelId))) :
    ∀ name ∈ names, rename name ∈ labels.names := by
  induction names generalizing ids with
  | nil => exact fun _ member => nomatch member
  | cons first rest inductionHypothesis =>
      rw [mapLabels] at mapped
      split at mapped
      · cases mapped
      · rename_i id found
        rcases bind_eq_ok_iff.mp mapped with ⟨restIds, restMapped, -⟩
        rcases (Vocabulary.id?_eq_some_iff distinct).mp found with ⟨known, named⟩
        rw [List.forall_mem_cons]
        exact ⟨named ▸ Vocabulary.name_mem known, inductionHypothesis restMapped⟩

/-- A parser is made of two models if the label map is accepted and keeps the root. -/
theorem ofModels_eq_ok_iff {σ : Type} {coarse fine : Model σ} {rename : String → String}
    {config : Config σ} {parser : Parser σ} :
    ofModels coarse fine rename config = .ok parser ↔
      ∃ ids, mapLabels coarse.grammar.labels rename fine.grammar.labels.names =
          (.ok ids : Except (ModelError σ) (List LabelId)) ∧
        ids.toArray.getD fine.grammar.root 0 = coarse.grammar.root ∧
        parser = ⟨coarse, fine, ids.toArray, config⟩ := by
  constructor
  · intro made
    rcases bind_eq_ok_iff.mp made with ⟨ids, mapped, made⟩
    dsimp only at made
    split at made
    · rename_i root
      exact ⟨ids, mapped, root, (Except.ok.inj made).symm⟩
    · cases made
  · rintro ⟨ids, mapped, root, rfl⟩
    exact bind_eq_ok_iff.mpr ⟨ids, mapped, if_pos root⟩

/-- The coarse labels of the fine ones under a renaming. -/
def coarseLabels (coarse fine : Model ExactScore) (rename : String → String) :
    Array LabelId :=
  (fine.grammar.labels.names.map fun name =>
    coarse.grammar.labels.names.idxOf (rename name)).toArray

/-- A label map gives each fine label the coarse label that it is renamed to. -/
def Maps (coarse fine : Model ExactScore) (rename : String → String)
    (toCoarse : Array LabelId) : Prop :=
  ∀ label < fine.grammar.labels.size,
    toCoarse.getD label 0 < coarse.grammar.labels.size ∧
      coarse.grammar.labels.name (toCoarse.getD label 0) =
        rename (fine.grammar.labels.name label)

/-- A renaming takes every fine label to a coarse one, and the root to the root. -/
structure Renames (coarse fine : Model ExactScore) (rename : String → String) : Prop where
  labels : ∀ name ∈ fine.grammar.labels.names, rename name ∈ coarse.grammar.labels.names
  root : coarse.grammar.rootName = rename fine.grammar.rootName

theorem renames_of_covers (covers : coarse.Covers fine rename) : Renames coarse fine rename :=
  ⟨fun _ => covers.grammar.mem_labels, covers.grammar.root⟩

theorem maps_of_labels
    (labels : ∀ name ∈ fine.grammar.labels.names, rename name ∈ coarse.grammar.labels.names) :
    Maps coarse fine rename (coarseLabels coarse fine rename) := by
  intro label known
  have member := labels _ (Vocabulary.name_mem known)
  have found : (coarseLabels coarse fine rename).getD label 0 =
      coarse.grammar.labels.names.idxOf (rename (fine.grammar.labels.name label)) := by
    rw [Vocabulary.name_eq_getElem known]
    change label < fine.grammar.labels.names.length at known
    simp [coarseLabels, known]
  rw [found]
  exact ⟨Vocabulary.idxOf_lt_size member, Vocabulary.name_idxOf member⟩

theorem maps_coarseLabels (covers : coarse.Covers fine rename) :
    Maps coarse fine rename (coarseLabels coarse fine rename) :=
  maps_of_labels (renames_of_covers covers).labels

/-- A parser is made of two models just if the renaming is accepted. -/
theorem ofModels_eq_ok_iff_renames (coarseWellFormed : coarse.grammar.WellFormed)
    (fineWellFormed : fine.grammar.WellFormed) {config : Config ExactScore}
    {parser : Parser ExactScore} :
    ofModels coarse fine rename config = .ok parser ↔
      Renames coarse fine rename ∧
        parser = ⟨coarse, fine, coarseLabels coarse fine rename, config⟩ := by
  have root_iff (labels : ∀ name ∈ fine.grammar.labels.names,
      rename name ∈ coarse.grammar.labels.names) :
      (coarseLabels coarse fine rename).getD fine.grammar.root 0 = coarse.grammar.root ↔
        coarse.grammar.rootName = rename fine.grammar.rootName := by
    obtain ⟨known, named⟩ := maps_of_labels labels fine.grammar.root fineWellFormed.rooted
    constructor
    · intro same
      rw [same] at named
      exact named
    · intro kept
      exact Vocabulary.name_injective coarseWellFormed.distinct known coarseWellFormed.rooted
        (named.trans kept.symm)
  rw [ofModels_eq_ok_iff]
  constructor
  · rintro ⟨ids, mapped, root, rfl⟩
    have labels := mapped_of_mapLabels_eq_ok coarseWellFormed.distinct mapped
    obtain rfl := Except.ok.inj
      ((mapLabels_eq_ok coarseWellFormed.distinct labels).symm.trans mapped)
    exact ⟨⟨labels, (root_iff labels).mp root⟩, rfl⟩
  · rintro ⟨renames, rfl⟩
    exact ⟨_, mapLabels_eq_ok coarseWellFormed.distinct renames.labels,
      (root_iff renames.labels).mpr renames.root, rfl⟩

/-- A model that covers another one is accepted as its coarse model. -/
theorem ofModels_eq_ok (covers : coarse.Covers fine rename)
    (coarseWellFormed : coarse.grammar.WellFormed) (fineWellFormed : fine.grammar.WellFormed)
    (config : Config ExactScore) :
    ofModels coarse fine rename config =
      .ok ⟨coarse, fine, coarseLabels coarse fine rename, config⟩ :=
  (ofModels_eq_ok_iff_renames coarseWellFormed fineWellFormed).mpr
    ⟨renames_of_covers covers, rfl⟩

/-- The sample models make up the sample parser. -/
theorem ofModels_sample (config : Config ExactScore) :
    ofModels Sample.Exact.coarse Sample.Exact.fine Refinement.coarseLabel config =
      .ok (Sample.Exact.parser config) := by
  have labels : coarseLabels Sample.Exact.coarse Sample.Exact.fine Refinement.coarseLabel =
      #[0, 1, 2, 3, 4, 3, 5] := by
    decide +kernel
  rw [ofModels_eq_ok
    (Model.covers_of_project TableLexicon.isBuilt_sample Grammar.project_sample
      Model.IsModelOf.sample_fine Model.IsModelOf.sample_coarse)
    Model.isBuilt_sample_coarse.wellFormed Model.isBuilt_sample_fine.wellFormed, labels]
  rfl

/-! ## What pruning keeps -/

section

variable {words : List String} (covers : coarse.Covers fine rename)
  (fineAccepts : fine.Accepts words) (coarseAccepts : coarse.Accepts words)

include covers fineAccepts coarseAccepts

/-- The best parse under a model that covers another one is no worse. -/
theorem bestScore_le_bestScore : fine.bestScore words ≤ coarse.bestScore words := by
  apply fineAccepts.isBestOf_bestScore.le_of_matched coarseAccepts.isBestOf_bestScore
  rintro score ⟨tree, parse⟩
  obtain ⟨best, image, le⟩ :=
    covers.exists_isParse coarseAccepts.sound.grammar fineAccepts.sound.grammar parse
  exact ⟨best, ⟨_, image⟩, le⟩

/-- A sentence with a fine parse has a coarse one. -/
theorem possible_of_covers (possible : fine.bestScore words ≠ impossible) :
    coarse.bestScore words ≠ impossible :=
  coarseAccepts.isFinite_bestScore_iff.mp
    (ExactScore.isFinite_of_le (fineAccepts.isFinite_bestScore_iff.mpr possible)
      (bestScore_le_bestScore covers fineAccepts coarseAccepts)
      coarseAccepts.isBestOf_bestScore.nonpos)

/-- Nothing of a fine parse is pruned below its score relative to the best coarse
parse. -/
theorem keeps_prunedBelow (possible : coarse.bestScore words ≠ impossible)
    {toCoarse : Array LabelId} (maps : Maps coarse fine rename toCoarse)
    {tree : Tree String} {score threshold : ExactScore}
    (parse : fine.IsParse words tree score)
    (admissible : threshold ≤ score + -coarse.bestScore words) :
    (fine.pass words
      ((coarse.pass words .nothing).posterior.prunedBelow threshold toCoarse)).Keeps 0
        tree := by
  intro place node member inner label known named
  rcases maps label known with ⟨imageKnown, imageNamed⟩
  have kept (stage : Stage) (expanded : stage = .built → node.isUnaryStep = false) :
      (coarse.pass words .nothing).posterior.prunedBelow threshold toCoarse stage label place
        (place + node.leaves.length) = false := by
    obtain ⟨best, through, le⟩ := covers.exists_scoresThrough coarseAccepts.sound.grammar
      fineAccepts.sound.grammar imageNamed
      ⟨tree, parse, node, member, inner, named.symm, rfl, expanded⟩
    have bound := Pass.le_outside_add_inside coarseAccepts.sound
      (coarseAccepts.nonpositive .nothing) rfl imageKnown
      (coarseAccepts.length_pos .nothing) through
    rw [Posterior.prunedBelow, decide_eq_false_iff_not, Pass.marginal_posterior]
    apply ExactScore.not_lt_of_le
    exact ExactScore.le_trans admissible
      (ExactScore.add_neg_le_add_neg (ExactScore.le_trans le bound)
        (coarseAccepts.isFinite_bestScore_iff.mpr possible))
  constructor
  · exact kept .closed fun same => nomatch same
  · exact fun expanded => kept .built fun _ => expanded

end

/-- A pruned pass that keeps a best parse finds one with its score. -/
theorem exists_bestParse?_of_keeps {words : List String} {pruned : Pruned}
    (accepts : fine.Accepts words) (possible : fine.bestScore words ≠ impossible)
    {tree : Tree String} (parse : fine.IsParse words tree (fine.bestScore words))
    (keeps : (fine.pass words pruned).Keeps 0 tree) :
    ∃ found, (fine.pass words pruned).bestParse? = .ok (some found) ∧
      found.score = fine.bestScore words ∧ found.usedFallback = false := by
  have nonpositive := accepts.nonpositive pruned
  have admits : (fine.pass words pruned).Admits .closed fine.grammar.root 0 words.length tree
      (fine.bestScore words) :=
    Pass.admits_of_isParse accepts.sound.grammar parse keeps
  have le := admits.score_le accepts.sound nonpositive
  have totalNonpos := admits.inside_nonpos accepts.sound nonpositive
  rcases Pass.bestParse?_cases accepts.sound (accepts.taggings pruned) with
    ⟨same, -⟩ | ⟨derivation, -, found, returned⟩
  · have finite := ExactScore.isFinite_of_le (accepts.isFinite_bestScore_iff.mpr possible) le
      totalNonpos
    exact absurd same ((ExactScore.isFinite_iff_of_nonpos totalNonpos).mp finite)
  · have worse := accepts.isBestOf_bestScore.bound _ ⟨derivation, found⟩
    exact ⟨_, returned, ExactScore.le_antisymm worse le, rfl⟩

/-- A pruned pass that finds a parse returns it. -/
theorem parse_of_below {parser : Parser ExactScore} {words : List String}
    {threshold : ExactScore} (config : parser.config = ⟨.below threshold, none, none⟩)
    (nonempty : words ≠ []) {posterior : Posterior ExactScore} {spent : Nat}
    (coarsePassed : parser.coarsePass words = .ok (some posterior, spent))
    {parse : ScoredParse ExactScore}
    (finePassed : parser.finePass words (posterior.prunedBelow threshold parser.toCoarse)
      spent = .ok (some parse)) : parser.parse words = .ok (some parse) := by
  rw [parse_of_ne_nil parser nonempty, config, Config.checkLength_of_unlimited rfl]
  change parser.parsePruned words threshold = _
  rw [parsePruned, coarsePassed]
  change (parser.finePass words _ spent >>= _) = _
  rw [finePassed]
  rfl

/-- Pruning below the score of the best fine parse relative to the best coarse one loses
nothing. -/
theorem exists_parse_of_admissible {parser : Parser ExactScore} {words : List String}
    {threshold : ExactScore} (config : parser.config = ⟨.below threshold, none, none⟩)
    (covers : parser.coarse.Covers parser.fine rename)
    (maps : Maps parser.coarse parser.fine rename parser.toCoarse)
    (fineAccepts : parser.fine.Accepts words) (coarseAccepts : parser.coarse.Accepts words)
    (possible : parser.fine.bestScore words ≠ impossible)
    (admissible :
      threshold ≤ parser.fine.bestScore words + -parser.coarse.bestScore words) :
    ∃ parse, parser.parse words = .ok (some parse) ∧
      parse.score = parser.fine.bestScore words ∧ parse.usedFallback = false := by
  have unlimited : parser.config.maxEdges = none := by rw [config]
  have coarsePossible := possible_of_covers covers fineAccepts coarseAccepts possible
  have isImpossible_iff :=
    ExactScore.isImpossible_iff_of_nonpos coarseAccepts.isBestOf_bestScore.nonpos
  rcases fineAccepts.isBestOf_bestScore.attained.resolve_left possible with ⟨tree, best⟩
  obtain ⟨spent, coarsePassed⟩ := exists_coarsePass_of_unlimited unlimited
    (coarseAccepts.taggings .nothing)
    (Bool.not_eq_true _ ▸ mt isImpossible_iff.mp coarsePossible)
  obtain ⟨found, returned, score, firstAttempt⟩ :=
    exists_bestParse?_of_keeps fineAccepts possible best
      (keeps_prunedBelow covers fineAccepts coarseAccepts coarsePossible maps best admissible)
  have parsed : parser.parse words = .ok (some found) := by
    apply parse_of_below config fineAccepts.nonempty coarsePassed
    rw [finePass_of_unlimited unlimited spent (fineAccepts.taggings _)]
    exact returned
  exact ⟨found, parsed, score, firstAttempt⟩

/-! ## Pruning by a projection -/

/-- If the best fine parse scores `best.score`, the best coarse parse scores no worse, and
pruning below the difference of the two returns a parse with that score at the first
attempt.  Where no label changes, the two scores agree. -/
theorem pruning_admissible (declared : grammar.IsDeclared) (built : lexicon.IsBuilt)
    (projected : grammar.project rename = .ok coarseGrammar)
    (fineModel : Model.IsModelOf grammar lexicon.score fine)
    (coarseModel : Model.IsModelOf coarseGrammar (lexicon.project rename).score coarse)
    (words : List String) :
    (∀ config, ∃ parser, ofModels coarse fine rename config = .ok parser) ∧
    ∀ best, (exhaustive fine).parse words = .ok (some best) →
      ∃ coarseBest, (exhaustive coarse).parse words = .ok (some coarseBest) ∧
        best.score ≤ coarseBest.score ∧
        ((∀ label, rename label = label) → coarseBest.score = best.score) ∧
        ∀ threshold parser,
          ofModels coarse fine rename ⟨.below threshold, none, none⟩ = .ok parser →
          threshold ≤ best.score + -coarseBest.score ∨
            (∀ label, rename label = label) ∧ threshold ≤ 0 →
          ∃ parse, parser.parse words = .ok (some parse) ∧ parse.score = best.score ∧
            parse.usedFallback = false := by
  have wellFormed := TableLexicon.wellFormed_of_isBuilt built
  have projectedDeclared : coarseGrammar.IsDeclared := ⟨_, _, projected⟩
  have covers := Model.covers_of_project built projected fineModel coarseModel
  have made := ofModels_eq_ok covers (coarseModel.sound projectedDeclared).grammar
    (fineModel.sound declared).grammar
  refine ⟨fun config => ⟨_, made config⟩, ?_⟩
  intro best exhausted
  have nonempty : words ≠ [] := by
    rintro rfl
    cases exhausted
  have fineAccepts := Model.accepts_of_isModelOf declared fineModel
    (TableLexicon.nonpositive_score wellFormed) nonempty
  have coarseAccepts := Model.accepts_of_isModelOf projectedDeclared coarseModel
    (TableLexicon.nonpositive_score (wellFormed.project rename)) nonempty
  have le := bestScore_le_bestScore covers fineAccepts coarseAccepts
  rcases exhaustive_cases fineAccepts with ⟨-, returned⟩ | ⟨derivation, possible, -, returned⟩
  · cases returned.symm.trans exhausted
  · obtain rfl := Option.some.inj (Except.ok.inj (returned.symm.trans exhausted))
    rcases exhaustive_cases coarseAccepts with
      ⟨same, -⟩ | ⟨coarseDerivation, -, -, coarseReturned⟩
    · exact absurd same (possible_of_covers covers fineAccepts coarseAccepts possible)
    · have sameScore (unchanged : ∀ label, rename label = label) :
          coarse.bestScore words = fine.bestScore words :=
        ExactScore.le_antisymm
          (bestScore_le_bestScore
            (Model.covers_project_of_unchanged declared built projected unchanged fineModel
              coarseModel)
            coarseAccepts fineAccepts)
          le
      refine ⟨_, coarseReturned, le, sameScore, ?_⟩
      intro threshold parser models admissible
      obtain rfl := Except.ok.inj ((made _).symm.trans models)
      have below : threshold ≤ fine.bestScore words + -coarse.bestScore words := by
        rcases admissible with admissible | ⟨unchanged, nonpos⟩
        · exact admissible
        · rw [sameScore unchanged,
            ExactScore.add_neg_self (fineAccepts.isFinite_bestScore_iff.mpr possible)]
          exact nonpos
      exact exists_parse_of_admissible rfl covers (maps_coarseLabels covers) fineAccepts
        coarseAccepts possible below

/-- Two labels of the sample become one, which saves the coarse parse a rule. -/
theorem pruning_admissible_dogs_bark :
    ∃ best coarseBest,
      (exhaustive Sample.Exact.fine).parse ["dogs", "bark"] = .ok (some best) ∧
      (exhaustive Sample.Exact.coarse).parse ["dogs", "bark"] = .ok (some coarseBest) ∧
      best.score ≤ coarseBest.score ∧
      ∃ parser,
        ofModels Sample.Exact.coarse Sample.Exact.fine Refinement.coarseLabel
          ⟨.below (.finite (-1 / 8)), none, none⟩ = .ok parser ∧
        ∃ parse, parser.parse ["dogs", "bark"] = .ok (some parse) ∧
          parse.score = best.score ∧ parse.usedFallback = false := by
  obtain ⟨models, admissible⟩ := pruning_admissible Grammar.isDeclared_sample
    TableLexicon.isBuilt_sample Grammar.project_sample Model.IsModelOf.sample_fine
    Model.IsModelOf.sample_coarse ["dogs", "bark"]
  have fineScore : ((exhaustive Sample.Exact.fine).parse ["dogs", "bark"]).map
      (Option.map ScoredParse.score) = .ok (some (.finite (-89 / 24))) := by
    decide +kernel
  have coarseScore : ((exhaustive Sample.Exact.coarse).parse ["dogs", "bark"]).map
      (Option.map ScoredParse.score) = .ok (some (.finite (-86 / 24))) := by
    decide +kernel
  rcases exists_of_map_eq_ok fineScore with ⟨best, found, score⟩
  rcases admissible best found with ⟨coarseBest, coarseFound, le, -, pruned⟩
  rcases exists_of_map_eq_ok coarseScore with ⟨_, coarseAgain, same⟩
  obtain rfl := Option.some.inj (Except.ok.inj (coarseFound.symm.trans coarseAgain))
  rcases models ⟨.below (.finite (-1 / 8)), none, none⟩ with ⟨parser, made⟩
  have below : .finite (-1 / 8) ≤ best.score + -coarseBest.score := by
    rw [score, same]
    decide +kernel
  exact ⟨best, coarseBest, found, coarseFound, le, parser, made,
    pruned (.finite (-1 / 8)) parser made (Or.inl below)⟩

end Parser

end ChartParsing
