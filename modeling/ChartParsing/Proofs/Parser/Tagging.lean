import ChartParsing.Proofs.Parser.Cost

/-!
# Tags that score above zero

A lexicon that scores a word above zero is broken, and a parser says so.  Every pass looks at
its tags before it fills a cell, by position and then by label, so the error names the first of
them (`Pass.taggingError?_eq_some_iff`) whatever the sentence would cost.  No other step of a
parse makes such an error (`Parser.exists_taggingError?_of_parse`).
-/

namespace ChartParsing

/-- What is found below a bound is found at the smallest number at which there is anything. -/
theorem findSome?_range_eq_some_iff {α : Type} {find : Nat → Option α} {bound : Nat}
    {found : α} :
    (List.range bound).findSome? find = some found ↔
      ∃ index < bound, find index = some found ∧ ∀ earlier < index, find earlier = none := by
  induction bound with
  | zero => simp
  | succ bound inductionHypothesis =>
      rw [List.range_succ, List.findSome?_append, Option.or_eq_some_iff, inductionHypothesis,
        List.findSome?_singleton, List.findSome?_eq_none_iff]
      simp only [List.mem_range]
      constructor
      · rintro (⟨index, below, here, before⟩ | ⟨before, here⟩)
        · exact ⟨index, Nat.lt_succ_of_lt below, here, before⟩
        · exact ⟨bound, Nat.lt_succ_self bound, here, before⟩
      · rintro ⟨index, below, here, before⟩
        rcases Nat.lt_succ_iff_lt_or_eq.mp below with below | rfl
        · exact Or.inl ⟨index, below, here, before⟩
        · exact Or.inr ⟨before, here⟩

variable {σ : Type} [Score σ]

/-! ## The first tag -/

namespace Model

/-- The lexicon gives a word a value above zero under a tag. -/
def ScoresPositive (model : Model σ) (word tag : String) : Prop :=
  Score.isUndefined (model.lexicon word tag) = false ∧ 0 < model.lexicon word tag

instance (model : Model σ) (word tag : String) : Decidable (model.ScoresPositive word tag) :=
  inferInstanceAs (Decidable (_ ∧ _))

/-- The word at a position of a sentence has a positive score under a label of the grammar. -/
structure PositiveAt (model : Model σ) (words : List String) (position : Nat)
    (label : LabelId) : Prop where
  inside : position < words.length
  known : label < model.grammar.labels.size
  positive : model.ScoresPositive (words.getD position "") (model.grammar.labels.name label)

/-- The first positive score of a sentence, by position and then by label. -/
structure FirstPositiveAt (model : Model σ) (words : List String) (position : Nat)
    (label : LabelId) : Prop where
  here : model.PositiveAt words position label
  first : ∀ other otherLabel, model.PositiveAt words other otherLabel →
    position < other ∨ position = other ∧ label ≤ otherLabel

/-- The error that names the word at a position and a label. -/
def taggingErrorAt (model : Model σ) (words : List String) (position : Nat) (label : LabelId) :
    ParseError σ :=
  let word := words.getD position ""
  let tag := model.grammar.labels.name label
  .positiveTaggingScore position word tag (model.lexicon word tag)

variable {model : Model σ} {words : List String} {position : Nat} {label : LabelId}

/-- A tag scores above zero if the lexicon gives it a value above zero. -/
theorem tagScore_pos_iff [Score.Monotone σ] {word tag : String} :
    0 < model.tagScore word tag ↔ model.ScoresPositive word tag := by
  rw [tagScore, Score.orImpossible, ScoresPositive]
  cases Score.isUndefined (model.lexicon word tag) with
  | false => simp
  | true => simpa using Score.not_pos_of_nonpos Score.impossible_nonpos

/-- A positive score is the one in the lexicon. -/
theorem ScoresPositive.tagScore_eq {word tag : String} (positive : model.ScoresPositive word tag) :
    model.tagScore word tag = model.lexicon word tag := by
  rw [tagScore, Score.orImpossible, positive.1]
  rfl

end Model

namespace Pass

variable [Score.Monotone σ] {model : Model σ} {words : List String} {position : Nat}
  {label : LabelId} {error : ParseError σ}

theorem taggingErrorAt?_eq_none_iff :
    (model.pass words .nothing).taggingErrorAt? position label = none ↔
      ¬model.ScoresPositive (words.getD position "") (model.grammar.labels.name label) := by
  rw [← Model.tagScore_pos_iff]
  simp [taggingErrorAt?, Pruned.nothing]

theorem taggingErrorAt?_eq_some_iff :
    (model.pass words .nothing).taggingErrorAt? position label = some error ↔
      model.ScoresPositive (words.getD position "") (model.grammar.labels.name label) ∧
        model.taggingErrorAt words position label = error := by
  by_cases positive :
    model.ScoresPositive (words.getD position "") (model.grammar.labels.name label)
  · have named : (model.pass words .nothing).taggingErrorAt? position label =
        some (model.taggingErrorAt words position label) := by
      simp only [taggingErrorAt?, Model.taggingErrorAt, Pruned.nothing, positive.tagScore_eq,
        positive.2, Bool.false_eq_true, if_false, if_true]
    rw [named, Option.some.injEq, and_iff_right positive]
  · rw [taggingErrorAt?_eq_none_iff.mpr positive]
    simp only [reduceCtorEq, positive, false_and]

/-- An unpruned pass names the first positive score. -/
theorem taggingError?_eq_some_iff :
    (model.pass words .nothing).taggingError? = some error ↔
      ∃ position label, model.FirstPositiveAt words position label ∧
        model.taggingErrorAt words position label = error := by
  rw [taggingError?_eq_findSome?, findSome?_range_eq_some_iff]
  simp only [findSome?_range_eq_some_iff, taggingErrorAt?_eq_some_iff, taggingErrorAt?_eq_none_iff,
    List.findSome?_eq_none_iff, List.mem_range]
  -- Nothing is found at any label of the earlier positions nor at the smaller labels of this one.
  constructor
  · rintro ⟨position, inside, ⟨label, known, ⟨positive, same⟩, smaller⟩, before⟩
    refine ⟨position, label, ⟨⟨inside, known, positive⟩, ?_⟩, same⟩
    rintro other otherLabel ⟨otherInside, otherKnown, otherPositive⟩
    rcases Nat.lt_trichotomy position other with less | rfl | greater
    · exact Or.inl less
    · exact Or.inr ⟨rfl, Nat.le_of_not_lt fun less => smaller otherLabel less otherPositive⟩
    · exact absurd otherPositive (before other greater otherLabel otherKnown)
  · rintro ⟨position, label, ⟨⟨inside, known, positive⟩, first⟩, same⟩
    refine ⟨position, inside, ⟨label, known, ⟨positive, same⟩, ?_⟩, ?_⟩
    · intro smaller less otherPositive
      rcases first position smaller ⟨inside, Nat.lt_trans less known, otherPositive⟩ with
        later | ⟨-, le⟩
      · exact Nat.lt_irrefl _ later
      · exact Nat.not_le_of_lt less le
    · intro before less otherLabel otherKnown otherPositive
      rcases first before otherLabel ⟨Nat.lt_trans less inside, otherKnown, otherPositive⟩ with
        later | ⟨same, -⟩
      · exact Nat.lt_asymm less later
      · exact Nat.ne_of_gt less same

/-- Where the lexicon gives a sentence no positive score, no pass of it complains. -/
theorem taggingError?_eq_none_of_no_positive
    (nowhere : ∀ position label, ¬model.PositiveAt words position label) (pruned : Pruned) :
    (model.pass words pruned).taggingError? = none := by
  rw [taggingError?_eq_none_iff]
  intro label known position inside _ positive
  exact nowhere position label ⟨inside, known, Model.tagScore_pos_iff.mp positive⟩

end Pass

/-- A sentence with a positive score has a first one. -/
theorem Model.PositiveAt.exists_first [Score.Monotone σ] {model : Model σ} {words : List String}
    {position : Nat} {label : LabelId} (positive : model.PositiveAt words position label) :
    ∃ first firstLabel, model.FirstPositiveAt words first firstLabel := by
  cases found : (model.pass words .nothing).taggingError? with
  | some error =>
      obtain ⟨first, firstLabel, isFirst, -⟩ := Pass.taggingError?_eq_some_iff.mp found
      exact ⟨first, firstLabel, isFirst⟩
  | none =>
      exact absurd (tagScore_pos_iff.mpr positive.positive)
        (Pass.taggingError?_eq_none_iff.mp found label positive.known position positive.inside rfl)

/-! ## The error of a parse -/

namespace Parser

variable {parser : Parser σ} {words : List String} {error : ParseError σ} {position : Nat}
  {word tag : String} {score : σ}

/-- A fine pass fails for its first positive score before it costs anything. -/
theorem finePass_of_taggingError? {pruned : Pruned} {spent : Nat}
    (found : (parser.fine.pass words pruned).taggingError? = some error) :
    parser.finePass words pruned spent = .error error :=
  bind_eq_error_iff.mpr (Or.inl (Pass.checkTaggings_eq_error_iff.mpr found))

/-- The coarse pass fails for its first positive score before it costs anything. -/
theorem coarsePass_of_taggingError?
    (found : (parser.coarse.pass words .nothing).taggingError? = some error) :
    parser.coarsePass words = .error error :=
  bind_eq_error_iff.mpr (Or.inl (Pass.checkTaggings_eq_error_iff.mpr found))

/-- A fine pass that complains about a tag has met it among its taggings. -/
theorem taggingError?_of_finePass {pruned : Pruned} {spent : Nat}
    (failed : parser.finePass words pruned spent =
      .error (.positiveTaggingScore position word tag score)) :
    (parser.fine.pass words pruned).taggingError? =
      some (.positiveTaggingScore position word tag score) := by
  rcases finePass_eq_error_cases failed with found | ⟨_, -, same, -⟩ | ⟨-, failed⟩
  · exact found
  · cases same
  · obtain ⟨_, _, _, same⟩ := Pass.exists_missing_of_bestParse? failed
    cases same

/-- A coarse pass that complains about a tag has met it among its taggings. -/
theorem taggingError?_of_coarsePass
    (failed : parser.coarsePass words =
      .error (.positiveTaggingScore position word tag score)) :
    (parser.coarse.pass words .nothing).taggingError? =
      some (.positiveTaggingScore position word tag score) := by
  rcases coarsePass_eq_error_cases failed with found | ⟨_, -, same, -⟩
  · exact found
  · cases same

/-- A complaint about a tag comes from the taggings of a pass. -/
theorem exists_taggingError?_of_parse
    (failed : parser.parse words = .error (.positiveTaggingScore position word tag score)) :
    (parser.coarse.pass words .nothing).taggingError? =
        some (.positiveTaggingScore position word tag score) ∨
      ∃ pruned, (parser.fine.pass words pruned).taggingError? =
        some (.positiveTaggingScore position word tag score) := by
  rcases parse_eq_error_cases failed with ⟨_, -, same⟩ | failed | ⟨pruned, spent, failed⟩
  · cases same
  · exact Or.inl (taggingError?_of_coarsePass failed)
  · exact Or.inr ⟨pruned, taggingError?_of_finePass failed⟩

section

variable (within : ∀ longest, parser.config.maxLength = some longest → words.length ≤ longest)

include within

/-- Without pruning, a sentence that is not too long fails for the first positive score of the
fine lexicon, and for a tag in no other way. -/
theorem parse_eq_tagging_iff_of_disabled (disabled : parser.config.pruning = .disabled) :
    parser.parse words = .error (.positiveTaggingScore position word tag score) ↔
      (parser.fine.pass words .nothing).taggingError? =
        some (.positiveTaggingScore position word tag score) := by
  by_cases empty : words = []
  · subst empty
    constructor
    · intro failed
      cases failed
    · intro found
      cases found
  · rw [parse_of_ne_nil parser empty, Config.checkLength_of_le within, disabled]
    exact ⟨taggingError?_of_finePass, finePass_of_taggingError?⟩

/-- With a threshold, a sentence that is not too long fails for the first positive score of the
coarse lexicon. -/
theorem parse_of_coarse_taggingError? {threshold : σ}
    (pruning : parser.config.pruning = .below threshold)
    (found : (parser.coarse.pass words .nothing).taggingError? = some error) :
    parser.parse words = .error error := by
  have nonempty : words ≠ [] := by
    rintro rfl
    cases found
  have failed := coarsePass_of_taggingError? found
  rw [parse_of_ne_nil parser nonempty, pruning]
  refine bind_eq_error_iff.mpr (Or.inr ⟨(), Config.checkLength_of_le within, ?_⟩)
  exact bind_eq_error_iff.mpr (Or.inl failed)

end

/-- Positive scores are found whatever the budget.  Without pruning a sentence that is not too
long fails for a tag exactly if the fine lexicon has a positive score for it, and the error names
the first; with a threshold it fails for the first positive score of the coarse lexicon, if there
is any; and it does not fail for a tag if neither lexicon has a positive score for it. -/
theorem parse_finds_positive_tags [Score.Monotone σ] (parser : Parser σ) (words : List String)
    (within : ∀ longest, parser.config.maxLength = some longest → words.length ≤ longest) :
    (parser.config.pruning = .disabled →
      ((∃ position word tag score,
          parser.parse words = .error (.positiveTaggingScore position word tag score)) ↔
        ∃ position label, parser.fine.PositiveAt words position label) ∧
      ∀ position word tag score,
        parser.parse words = .error (.positiveTaggingScore position word tag score) ↔
          ∃ first label, parser.fine.FirstPositiveAt words first label ∧
            parser.fine.taggingErrorAt words first label =
              .positiveTaggingScore position word tag score) ∧
    (∀ threshold, parser.config.pruning = .below threshold →
      (∃ position label, parser.coarse.PositiveAt words position label) →
      ∃ position label, parser.coarse.FirstPositiveAt words position label ∧
        parser.parse words = .error (parser.coarse.taggingErrorAt words position label)) ∧
    ((∀ position label, ¬parser.coarse.PositiveAt words position label ∧
        ¬parser.fine.PositiveAt words position label) →
      ∀ position word tag score,
        parser.parse words ≠ .error (.positiveTaggingScore position word tag score)) := by
  refine ⟨fun disabled => ⟨⟨?_, ?_⟩, ?_⟩, ?_, ?_⟩
  · rintro ⟨position, word, tag, score, failed⟩
    obtain ⟨first, label, isFirst, -⟩ := Pass.taggingError?_eq_some_iff.mp
      ((parse_eq_tagging_iff_of_disabled within disabled).mp failed)
    exact ⟨first, label, isFirst.here⟩
  · rintro ⟨position, label, positive⟩
    obtain ⟨first, firstLabel, isFirst⟩ := positive.exists_first
    exact ⟨_, _, _, _, (parse_eq_tagging_iff_of_disabled within disabled).mpr
      (Pass.taggingError?_eq_some_iff.mpr ⟨first, firstLabel, isFirst, rfl⟩)⟩
  · intro position word tag score
    rw [parse_eq_tagging_iff_of_disabled within disabled, Pass.taggingError?_eq_some_iff]
  · rintro threshold pruning ⟨position, label, positive⟩
    obtain ⟨first, firstLabel, isFirst⟩ := positive.exists_first
    exact ⟨first, firstLabel, isFirst, parse_of_coarse_taggingError? within pruning
      (Pass.taggingError?_eq_some_iff.mpr ⟨first, firstLabel, isFirst, rfl⟩)⟩
  · intro nowhere position word tag score failed
    rcases exists_taggingError?_of_parse failed with found | ⟨pruned, found⟩
    · rw [Pass.taggingError?_eq_none_of_no_positive fun position label =>
        (nowhere position label).1] at found
      cases found
    · rw [Pass.taggingError?_eq_none_of_no_positive fun position label =>
        (nowhere position label).2] at found
      cases found

/-- A lexicon that has no value for one word and scores another one above zero under two
tags. -/
def generousLexicon : Lexicon ExactScore := fun word tag =>
  if word = "dogs" then .undefined
  else if tag = "VP" ∨ tag = "VP^VP" ∨ tag = "V^VP" then .finite (mkRat 1 2)
  else .finite (mkRat (-1) 1)

/-- The sample grammars with that lexicon. -/
def generousParser (pruning : Pruning ExactScore) : Parser ExactScore :=
  ⟨{ Sample.Exact.coarse with lexicon := generousLexicon },
    { Sample.Exact.fine with lexicon := generousLexicon }, #[0, 1, 2, 3, 4, 3, 5],
    ⟨pruning, some 2, some 0⟩⟩

/-- With no edges to spend, the second word is named under the smaller of its two fine labels,
or under its coarse label. -/
theorem parse_finds_positive_tags_dogs_bark :
    (generousParser .disabled).parse ["dogs", "bark"] =
        .error (.positiveTaggingScore 1 "bark" "VP^VP" (.finite (mkRat 1 2))) ∧
      ∃ position label,
        (generousParser (.below 0)).coarse.FirstPositiveAt ["dogs", "bark"] position label ∧
        (generousParser (.below 0)).parse ["dogs", "bark"] = .error
          ((generousParser (.below 0)).coarse.taggingErrorAt ["dogs", "bark"] position label) := by
  have within (pruning : Pruning ExactScore) : ∀ longest,
      (generousParser pruning).config.maxLength = some longest →
        ["dogs", "bark"].length ≤ longest := by
    rintro longest ⟨⟩
    decide
  constructor
  · have first : ∀ other < 2, ∀ label < (generousParser .disabled).fine.grammar.labels.size,
        (generousParser .disabled).fine.ScoresPositive (["dogs", "bark"].getD other "")
            ((generousParser .disabled).fine.grammar.labels.name label) →
          1 < other ∨ 1 = other ∧ 5 ≤ label := by
      decide +kernel
    refine (((parse_finds_positive_tags _ _ (within .disabled)).1 rfl).2 _ _ _ _).mpr
      ⟨1, 5, ⟨⟨by decide, by decide +kernel, by decide +kernel⟩, ?_⟩, by decide +kernel⟩
    rintro other label ⟨inside, known, positive⟩
    exact first other inside label known positive
  · exact (parse_finds_positive_tags _ _ (within (.below 0))).2.1 0 rfl
      ⟨1, 3, by decide, by decide +kernel, by decide +kernel⟩

end Parser

end ChartParsing
