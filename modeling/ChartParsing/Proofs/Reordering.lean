import ChartParsing.Proofs.Parser.Admissible

/-!
# The order of declarations and entries

A grammar is declared, and a lexicon entered, in some order, which decides how labels and
rules are numbered.  `Grammar.Reordered` and `TableLexicon.Reordered` relate what is made of
the same declarations and entries in different orders, with any of them repeated.  More
declarations cover fewer, so that each of two reordered grammars covers the other under the
renaming that changes nothing, and likewise for lexicons and models
(`Model.Reordered.covers`).
-/

namespace ChartParsing

variable {σ : Type} [Score σ]

/-! ## Lexicons -/

namespace TableLexicon

/-- Another lexicon knows the same words and scores no tagging worse. -/
structure AtMost (lexicon other : TableLexicon σ) : Prop where
  known : lexicon.known.AtMost other.known
  unknown : lexicon.unknown.AtMost other.unknown
  words : ∀ word, other.knows word = true → lexicon.knows word = true

theorem AtMost.score_le [Score.Monotone σ] {lexicon other : TableLexicon σ}
    (atMost : lexicon.AtMost other) (wellFormed : lexicon.WellFormed)
    (otherWellFormed : other.WellFormed) (word tag : String) :
    lexicon.score word tag ≤ other.score word tag := by
  by_cases known : lexicon.knows word = true
  · have otherKnown : other.knows word = true := by
      rcases (knows_iff wellFormed.knownDistinct).mp known with ⟨tag, score, found⟩
      rcases atMost.known (word, tag) score found with ⟨best, bestFound, -⟩
      exact (knows_iff otherWellFormed.knownDistinct).mpr ⟨tag, best, bestFound⟩
    rw [score_of_knows known, score_of_knows otherKnown]
    exact atMost.known.getD_find?_le otherWellFormed.knownNonpositive (word, tag)
  · rw [score_of_not_knows known, score_of_not_knows (mt (atMost.words word) known)]
    exact atMost.unknown.getD_find?_le otherWellFormed.unknownNonpositive tag

/-- A lexicon has the words and the best scores of its entries, in whatever order they
come. -/
theorem atMost_ofEntries [Score.Monotone σ] {entries others : List ((String × String) × σ)}
    {lexicon other : TableLexicon σ} (same : ∀ entry, entry ∈ entries ↔ entry ∈ others)
    (made : ofEntries entries = .ok lexicon) (otherMade : ofEntries others = .ok other) :
    lexicon.AtMost other := by
  rcases ofEntries_eq_ok_iff.mp made with ⟨accepted, rfl⟩
  rcases ofEntries_eq_ok_iff.mp otherMade with ⟨otherAccepted, rfl⟩
  constructor
  case known =>
    exact ScoreTable.atMost_ofList (fun entry => (same entry).mp)
      (nonpos_of_entryError? otherAccepted)
  case unknown => exact ScoreTable.atMost_empty _
  case words =>
    intro word known
    rcases (knows_iff (ScoreTable.distinct_ofList others)).mp known with ⟨tag, score, found⟩
    obtain ⟨best, bestFound, -⟩ := ScoreTable.exists_find?_ofList (nonpos_of_entryError? accepted)
      ((same _).mpr (ScoreTable.mem_of_find?_ofList found))
    exact (knows_iff (ScoreTable.distinct_ofList entries)).mpr ⟨tag, best, bestFound⟩

theorem AtMost.withUnknownWords [Score.Monotone σ]
    {lexicon other extended otherExtended : TableLexicon σ} {scores : List (String × σ)}
    (atMost : lexicon.AtMost other) (made : lexicon.withUnknownWords scores = .ok extended)
    (otherMade : other.withUnknownWords scores = .ok otherExtended) :
    extended.AtMost otherExtended := by
  rcases withUnknownWords_eq_ok_iff.mp made with ⟨accepted, rfl⟩
  rcases withUnknownWords_eq_ok_iff.mp otherMade with ⟨-, rfl⟩
  exact ⟨atMost.known, atMost.unknown.foldl_set (nonpos_of_withUnknownWords accepted),
    atMost.words⟩

theorem AtMost.project [Score.Monotone σ] {lexicon other : TableLexicon σ}
    (atMost : lexicon.AtMost other) (wellFormed : lexicon.WellFormed)
    (otherWellFormed : other.WellFormed) (rename : String → String) :
    (lexicon.project rename).AtMost (other.project rename) := by
  constructor
  case known =>
    rw [known_project, known_project]
    exact atMost.known.rekey wellFormed.knownDistinct otherWellFormed.knownDistinct
      otherWellFormed.knownNonpositive _
  case unknown =>
    rw [unknown_project, unknown_project]
    exact atMost.unknown.rekey wellFormed.unknownDistinct otherWellFormed.unknownDistinct
      otherWellFormed.unknownNonpositive rename
  case words =>
    intro word known
    rw [knows_project otherWellFormed] at known
    rw [knows_project wellFormed]
    exact atMost.words word known

/-- Two lexicons that are made in the same way, of the same entries in any order and with
any of them repeated. -/
inductive Reordered : TableLexicon σ → TableLexicon σ → Prop
  | ofEntries {entries others : List ((String × String) × σ)}
      {lexicon other : TableLexicon σ} :
      (∀ entry, entry ∈ entries ↔ entry ∈ others) → ofEntries entries = .ok lexicon →
      ofEntries others = .ok other → Reordered lexicon other
  | withUnknownWords {lexicon other extended otherExtended : TableLexicon σ}
      {scores : List (String × σ)} :
      Reordered lexicon other → lexicon.withUnknownWords scores = .ok extended →
      other.withUnknownWords scores = .ok otherExtended → Reordered extended otherExtended
  | project {lexicon other : TableLexicon σ} (rename : String → String) :
      Reordered lexicon other → Reordered (lexicon.project rename) (other.project rename)

namespace Reordered

variable {lexicon other : TableLexicon σ} (reordered : lexicon.Reordered other)

include reordered

theorem symm : other.Reordered lexicon := by
  induction reordered with
  | ofEntries same made otherMade =>
      exact .ofEntries (fun entry => (same entry).symm) otherMade made
  | withUnknownWords _ made otherMade inductionHypothesis =>
      exact .withUnknownWords inductionHypothesis otherMade made
  | project rename _ inductionHypothesis => exact .project rename inductionHypothesis

theorem isBuilt : lexicon.IsBuilt := by
  induction reordered with
  | ofEntries _ made _ => exact .ofEntries made
  | withUnknownWords _ made _ inductionHypothesis =>
      exact .withUnknownWords inductionHypothesis made
  | project rename _ inductionHypothesis => exact .project rename inductionHypothesis

theorem atMost [Score.Monotone σ] : lexicon.AtMost other := by
  induction reordered with
  | ofEntries same made otherMade => exact atMost_ofEntries same made otherMade
  | withUnknownWords _ made otherMade inductionHypothesis =>
      exact inductionHypothesis.withUnknownWords made otherMade
  | project rename reordered inductionHypothesis =>
      exact inductionHypothesis.project (wellFormed_of_isBuilt reordered.isBuilt)
        (wellFormed_of_isBuilt reordered.symm.isBuilt) rename

end Reordered

end TableLexicon

/-! ## Grammars -/

namespace Grammar

/-- More declarations cover fewer, in whatever order they come. -/
theorem covers_merge [Score.Monotone σ] {root : String}
    {declarations others : List (Declaration σ)} (included : declarations ⊆ others)
    (accepted : declarationError? others = none) :
    (merge root others).Covers (merge root declarations) id := by
  constructor
  case root =>
    exact (Vocabulary.name_ofList_zero _ _).trans (Vocabulary.name_ofList_zero _ _).symm
  case labels =>
    intro label known
    have mentions : declarations.flatMap Declaration.mentions ⊆
        others.flatMap Declaration.mentions := by
      intro name member
      rcases List.mem_flatMap.mp member with ⟨declaration, declared, mentioned⟩
      exact List.mem_flatMap.mpr ⟨declaration, included declared, mentioned⟩
    exact Vocabulary.mem_names_ofList.mpr (List.cons_subset_cons root mentions
      (Vocabulary.mem_names_ofList.mp (Vocabulary.name_mem known)))
  case binary =>
    intro rule member
    obtain ⟨_, _, _, declared, rfl, rfl, rfl⟩ := exists_named_binary_declaration member
    exact exists_binary_of_declaration accepted (included declared)
  case unary =>
    intro rule member
    obtain ⟨_, _, declared, rfl, rfl⟩ := exists_named_unary_declaration member
    exact exists_unary_of_declaration accepted (included declared)

/-- A grammar that covers another one still does after both have been projected. -/
theorem Covers.project [Score.Monotone σ] {grammar other projected otherProjected : Grammar σ}
    {rename : String → String} (covers : other.Covers grammar id)
    (wellFormed : grammar.WellFormed) (made : grammar.project rename = .ok projected)
    (otherMade : other.project rename = .ok otherProjected) :
    otherProjected.Covers projected id := by
  have renamed := covers_of_project otherMade
  constructor
  case root =>
    exact renamed.root.trans ((congrArg rename covers.root).trans (rootName_of_project made).symm)
  case labels =>
    intro label known
    obtain ⟨original, listed, same⟩ :=
      exists_label_of_project wellFormed made (Vocabulary.name_mem known)
    rw [← same]
    exact renamed.mem_labels (covers.mem_labels listed)
  case binary =>
    intro rule member
    obtain ⟨original, listed, parent, left, right, score⟩ := exists_binary_of_project made member
    obtain ⟨image, imageListed, imageParent, imageLeft, imageRight, le⟩ :=
      covers.binary original listed
    obtain ⟨best, bestListed, bestParent, bestLeft, bestRight, bestLe⟩ :=
      renamed.binary image imageListed
    refine ⟨best, bestListed, ?_, ?_, ?_, ?_⟩
    · exact bestParent.trans ((congrArg rename imageParent).trans parent.symm)
    · exact bestLeft.trans ((congrArg rename imageLeft).trans left.symm)
    · exact bestRight.trans ((congrArg rename imageRight).trans right.symm)
    · rw [← score]
      exact Score.Monotone.le_trans le bestLe
  case unary =>
    intro rule member
    obtain ⟨original, listed, parent, child, score⟩ := exists_unary_of_project made member
    obtain ⟨image, imageListed, imageParent, imageChild, le⟩ := covers.unary original listed
    obtain ⟨best, bestListed, bestParent, bestChild, bestLe⟩ := renamed.unary image imageListed
    refine ⟨best, bestListed, ?_, ?_, ?_⟩
    · exact bestParent.trans ((congrArg rename imageParent).trans parent.symm)
    · exact bestChild.trans ((congrArg rename imageChild).trans child.symm)
    · rw [← score]
      exact Score.Monotone.le_trans le bestLe

/-- Two grammars that are made in the same way, of the same declarations in any order and
with any of them repeated. -/
inductive Reordered : Grammar σ → Grammar σ → Prop
  | declare {root : String} {declarations others : List (Declaration σ)}
      {grammar other : Grammar σ} :
      (∀ declaration, declaration ∈ declarations ↔ declaration ∈ others) →
      declare root declarations = .ok grammar → declare root others = .ok other →
      Reordered grammar other
  | project {grammar other projected otherProjected : Grammar σ}
      (rename : String → String) :
      Reordered grammar other → grammar.project rename = .ok projected →
      other.project rename = .ok otherProjected → Reordered projected otherProjected

namespace Reordered

variable {grammar other : Grammar σ} (reordered : grammar.Reordered other)

include reordered

theorem symm : other.Reordered grammar := by
  induction reordered with
  | declare same made otherMade =>
      exact .declare (fun declaration => (same declaration).symm) otherMade made
  | project rename _ made otherMade inductionHypothesis =>
      exact .project rename inductionHypothesis otherMade made

theorem isDeclared : grammar.IsDeclared := by
  cases reordered with
  | declare _ made _ => exact ⟨_, _, made⟩
  | project rename _ made _ => exact ⟨_, _, made⟩

theorem covers [Score.Monotone σ] : other.Covers grammar id := by
  induction reordered with
  | declare same made otherMade =>
      rcases declare_eq_ok_iff.mp made with ⟨-, rfl⟩
      rcases declare_eq_ok_iff.mp otherMade with ⟨⟨accepted, -⟩, rfl⟩
      exact covers_merge (fun declaration => (same declaration).mp) accepted
  | project rename reordered made otherMade inductionHypothesis =>
      exact inductionHypothesis.project (wellFormed_of_isDeclared reordered.isDeclared) made
        otherMade

end Reordered

end Grammar

/-! ## Models -/

/-- Two lexicons that answer alike: tables of reordered entries, or one lexicon of any kind
that scores nothing above zero. -/
inductive Lexicon.Reordered : Lexicon ExactScore → Lexicon ExactScore → Prop
  | table {lexicon other : TableLexicon ExactScore} :
      lexicon.Reordered other → Reordered lexicon.score other.score
  | same {lexicon : Lexicon ExactScore} : lexicon.Nonpositive → Reordered lexicon lexicon

namespace Lexicon.Reordered

variable {lexicon other : Lexicon ExactScore} (reordered : lexicon.Reordered other)

include reordered

theorem symm : other.Reordered lexicon := by
  cases reordered with
  | table reordered => exact .table reordered.symm
  | same nonpositive => exact .same nonpositive

theorem nonpositive : lexicon.Nonpositive := by
  cases reordered with
  | table reordered =>
      exact TableLexicon.nonpositive_score (TableLexicon.wellFormed_of_isBuilt reordered.isBuilt)
  | same nonpositive => exact nonpositive

end Lexicon.Reordered

namespace Model

/-- Two models of reordered grammars and lexicons. -/
inductive Reordered (model other : Model ExactScore) : Prop
  | intro {grammar otherGrammar : Grammar ExactScore}
      {lexicon otherLexicon : Lexicon ExactScore} :
      grammar.Reordered otherGrammar → lexicon.Reordered otherLexicon →
      IsModelOf grammar lexicon model → IsModelOf otherGrammar otherLexicon other →
      Reordered model other

namespace Reordered

variable {model other : Model ExactScore} (reordered : model.Reordered other)

include reordered

theorem symm : other.Reordered model := by
  rcases reordered with ⟨grammars, lexicons, isModel, isOther⟩
  exact ⟨grammars.symm, lexicons.symm, isOther, isModel⟩

theorem sound : model.Sound := by
  rcases reordered with ⟨grammars, -, isModel, -⟩
  exact isModel.sound grammars.isDeclared

theorem isBuilt : model.IsBuilt := by
  rcases reordered with ⟨grammars, -, isModel, -⟩
  exact isModel.isBuilt grammars.isDeclared

theorem lexicon_nonpositive : model.lexicon.Nonpositive := by
  rcases reordered with ⟨-, lexicons, isModel, -⟩
  rw [isModel.lexicon_eq]
  exact lexicons.nonpositive

theorem tagScore_nonpos (word tag : String) : model.tagScore word tag ≤ 0 :=
  Pass.tagScore_nonpos_of_not_pos
    (Pass.not_tagScore_pos reordered.lexicon_nonpositive word tag)

theorem tagScore_le (word tag : String) : model.tagScore word tag ≤ other.tagScore word tag := by
  have nonpos := reordered.tagScore_nonpos word tag
  rcases reordered with ⟨-, lexicons, isModel, isOther⟩
  cases lexicons with
  | table lexicons =>
      have wellFormed := TableLexicon.wellFormed_of_isBuilt lexicons.isBuilt
      have otherWellFormed := TableLexicon.wellFormed_of_isBuilt lexicons.symm.isBuilt
      rw [tagScore_of_isModelOf wellFormed isModel,
        tagScore_of_isModelOf otherWellFormed isOther]
      exact lexicons.atMost.score_le wellFormed otherWellFormed word tag
  | same nonpositive =>
      have same : other.tagScore word tag = model.tagScore word tag := by
        rw [tagScore, tagScore, isOther.lexicon_eq, isModel.lexicon_eq]
      rw [same]
      exact ExactScore.le_refl nonpos

theorem covers : other.Covers model id where
  grammar := by
    rcases reordered with ⟨grammars, -, isModel, isOther⟩
    rw [isModel.grammar_eq, isOther.grammar_eq]
    exact grammars.covers
  tags := reordered.tagScore_le
  tagsNonpos := reordered.symm.tagScore_nonpos

end Reordered

end Model

end ChartParsing
