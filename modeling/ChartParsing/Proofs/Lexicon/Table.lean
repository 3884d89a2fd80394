import ChartParsing.Lexicon.Table
import ChartParsing.Proofs.Score.ExactLaws
import ChartParsing.Proofs.ScoreTable
import ChartParsing.Sample

/-!
# Lexicons given by a table

A table that has been entered lists each pair once and no score above zero, and it
keeps this when unknown words are entered and when tags are renamed.  A renamed table
knows the same words, and no tagging scores better before the renaming than after it
(`TableLexicon.score_le_score_project`).
-/

namespace ChartParsing

/-- A lexicon that scores nothing above zero. -/
def Lexicon.Nonpositive {σ : Type} [Score σ] (lexicon : Lexicon σ) : Prop :=
  ∀ word tag, ¬0 < lexicon word tag

namespace TableLexicon

variable {σ : Type} [Score σ]

/-- The lexicons that can be made: from a list of entries, by entering unknown words
and by renaming tags. -/
inductive IsBuilt : TableLexicon σ → Prop
  | ofEntries {entries : List ((String × String) × σ)} {lexicon : TableLexicon σ} :
      ofEntries entries = .ok lexicon → IsBuilt lexicon
  | withUnknownWords {lexicon extended : TableLexicon σ} {scores : List (String × σ)} :
      IsBuilt lexicon → lexicon.withUnknownWords scores = .ok extended → IsBuilt extended
  | project {lexicon : TableLexicon σ} (rename : String → String) :
      IsBuilt lexicon → IsBuilt (lexicon.project rename)

/-- What holds of every lexicon that can be made. -/
structure WellFormed (lexicon : TableLexicon σ) : Prop where
  knownDistinct : lexicon.known.Distinct
  unknownDistinct : lexicon.unknown.Distinct
  knownNonpositive : lexicon.known.Nonpositive
  unknownNonpositive : lexicon.unknown.Nonpositive

/-! ## Making a lexicon -/

/-- Entries are accepted if no score is above zero. -/
theorem nonpos_of_entryError? {entries : List ((String × String) × σ)}
    (accepted : entryError? entries = none) : ∀ entry ∈ entries, entry.2 ≤ 0 := by
  rintro ⟨⟨word, tag⟩, score⟩ member
  have noError := List.findSome?_eq_none_iff.mp accepted _ member
  dsimp only at noError
  split at noError
  · rename_i valid
    exact Score.nonpos_of_isLogProbability valid
  · cases noError

theorem ofEntries_eq_ok_iff {entries : List ((String × String) × σ)}
    {lexicon : TableLexicon σ} :
    ofEntries entries = .ok lexicon ↔
      entryError? entries = none ∧ ⟨.ofList entries, .empty⟩ = lexicon := by
  unfold ofEntries
  cases entryError? entries <;> simp

/-- Scores for unknown words are accepted if no score is above zero, and known words keep
theirs. -/
theorem withUnknownWords_eq_ok_iff {lexicon extended : TableLexicon σ}
    {scores : List (String × σ)} :
    lexicon.withUnknownWords scores = .ok extended ↔
      entryError? (scores.map fun entry => ((unknownWord, entry.1), entry.2)) = none ∧
        { lexicon with
          unknown := scores.foldl (fun table entry => table.set entry.1 entry.2)
            lexicon.unknown } = extended := by
  unfold withUnknownWords
  cases entryError? (scores.map fun entry => ((unknownWord, entry.1), entry.2)) <;> simp

theorem nonpos_of_withUnknownWords {scores : List (String × σ)}
    (accepted :
      entryError? (scores.map fun entry => ((unknownWord, entry.1), entry.2)) = none) :
    ∀ entry ∈ scores, entry.2 ≤ 0 :=
  fun entry member => nonpos_of_entryError? accepted _ (List.mem_map.mpr ⟨entry, member, rfl⟩)

/-- The sample lexicon can be made. -/
theorem isBuilt_sample : Sample.Exact.lexicon.IsBuilt :=
  .ofEntries (ofEntries_eq_ok_iff.mpr ⟨by decide +kernel, rfl⟩)

theorem known_project (lexicon : TableLexicon σ) (rename : String → String) :
    (lexicon.project rename).known =
      lexicon.known.rekey fun entry => (entry.1, rename entry.2) :=
  rfl

theorem unknown_project (lexicon : TableLexicon σ) (rename : String → String) :
    (lexicon.project rename).unknown = lexicon.unknown.rekey rename :=
  rfl

theorem WellFormed.project {lexicon : TableLexicon σ} (wellFormed : lexicon.WellFormed)
    (rename : String → String) : (lexicon.project rename).WellFormed := by
  constructor
  case knownDistinct =>
    rw [known_project]
    exact ScoreTable.distinct_rekey
  case unknownDistinct =>
    rw [unknown_project]
    exact ScoreTable.distinct_rekey
  case knownNonpositive =>
    rw [known_project]
    exact ScoreTable.nonpositive_rekey wellFormed.knownDistinct wellFormed.knownNonpositive
  case unknownNonpositive =>
    rw [unknown_project]
    exact ScoreTable.nonpositive_rekey wellFormed.unknownDistinct
      wellFormed.unknownNonpositive

/-- A lexicon that can be made is well formed. -/
theorem wellFormed_of_isBuilt {lexicon : TableLexicon σ} (built : lexicon.IsBuilt) :
    lexicon.WellFormed := by
  induction built with
  | @ofEntries entries lexicon made =>
      rcases ofEntries_eq_ok_iff.mp made with ⟨accepted, rfl⟩
      exact ⟨ScoreTable.distinct_ofList entries, ScoreTable.distinct_empty,
        ScoreTable.nonpositive_ofList (nonpos_of_entryError? accepted),
        ScoreTable.nonpositive_empty⟩
  | @withUnknownWords lexicon extended scores _ made inductionHypothesis =>
      rcases withUnknownWords_eq_ok_iff.mp made with ⟨accepted, rfl⟩
      exact ⟨inductionHypothesis.knownDistinct,
        ScoreTable.distinct_foldl_set inductionHypothesis.unknownDistinct scores,
        inductionHypothesis.knownNonpositive,
        ScoreTable.nonpositive_foldl_set inductionHypothesis.unknownNonpositive
          (nonpos_of_withUnknownWords accepted)⟩
  | project rename _ inductionHypothesis => exact inductionHypothesis.project rename

/-! ## Scores -/

theorem score_of_knows {lexicon : TableLexicon σ} {word : String}
    (known : lexicon.knows word = true) (tag : String) :
    lexicon.score word tag = (lexicon.known.find? (word, tag)).getD impossible := by
  rw [score, if_pos known]

theorem score_of_not_knows {lexicon : TableLexicon σ} {word : String}
    (unknown : ¬lexicon.knows word = true) (tag : String) :
    lexicon.score word tag = (lexicon.unknown.find? tag).getD impossible := by
  rw [score, if_neg unknown]

omit [Score σ] in
/-- A word is known if it has a score under some tag. -/
theorem knows_iff {lexicon : TableLexicon σ} (distinct : lexicon.known.Distinct)
    {word : String} :
    lexicon.knows word = true ↔
      ∃ tag score, lexicon.known.find? (word, tag) = some score := by
  rw [knows, List.any_eq_true]
  constructor
  · rintro ⟨⟨⟨found, tag⟩, score⟩, member, same⟩
    obtain rfl := eq_of_beq same
    exact ⟨tag, score, (ScoreTable.find?_eq_some_iff distinct).mpr member⟩
  · rintro ⟨tag, score, found⟩
    exact ⟨((word, tag), score), (ScoreTable.find?_eq_some_iff distinct).mp found,
      beq_self_eq_true word⟩

variable [Score.Monotone σ] {lexicon : TableLexicon σ} (wellFormed : lexicon.WellFormed)

include wellFormed

theorem score_nonpos (word tag : String) : lexicon.score word tag ≤ 0 := by
  by_cases known : lexicon.knows word = true
  · rw [score_of_knows known]
    exact ScoreTable.getD_find?_nonpos wellFormed.knownNonpositive (word, tag)
  · rw [score_of_not_knows known]
    exact ScoreTable.getD_find?_nonpos wellFormed.unknownNonpositive tag

theorem nonpositive_score : lexicon.score.Nonpositive :=
  fun word tag => Score.not_pos_of_nonpos (score_nonpos wellFormed word tag)

/-- Renaming tags neither adds nor removes a word. -/
theorem knows_project (rename : String → String) (word : String) :
    (lexicon.project rename).knows word = true ↔ lexicon.knows word = true := by
  rw [knows_iff wellFormed.knownDistinct, knows_iff (wellFormed.project rename).knownDistinct,
    known_project]
  constructor
  · rintro ⟨tag, score, found⟩
    obtain ⟨⟨originalWord, original⟩, same, originalFound⟩ :=
      ScoreTable.exists_find?_of_find?_rekey wellFormed.knownDistinct found
    rcases Prod.mk.inj same with ⟨rfl, -⟩
    exact ⟨original, score, originalFound⟩
  · rintro ⟨tag, score, found⟩
    obtain ⟨best, bestFound, -⟩ := ScoreTable.exists_find?_rekey wellFormed.knownDistinct
      wellFormed.knownNonpositive (fun entry => (entry.1, rename entry.2)) found
    exact ⟨rename tag, best, bestFound⟩

/-- No tagging scores better before its tag is renamed than after it. -/
theorem score_le_score_project (rename : String → String) (word tag : String) :
    lexicon.score word tag ≤ (lexicon.project rename).score word (rename tag) := by
  have sameWords := knows_project wellFormed rename word
  by_cases known : lexicon.knows word = true
  · rw [score_of_knows known, score_of_knows (sameWords.mpr known), known_project]
    exact ScoreTable.getD_find?_le_rekey wellFormed.knownDistinct
      wellFormed.knownNonpositive (fun entry => (entry.1, rename entry.2)) (word, tag)
  · rw [score_of_not_knows known, score_of_not_knows (mt sameWords.mp known),
      unknown_project]
    exact ScoreTable.getD_find?_le_rekey wellFormed.unknownDistinct
      wellFormed.unknownNonpositive rename tag

/-- If no tag changes, no tagging scores better after the renaming than before it. -/
theorem score_project_le_score {rename : String → String} (unchanged : ∀ tag, rename tag = tag)
    (word tag : String) : (lexicon.project rename).score word tag ≤ lexicon.score word tag := by
  have sameWords := knows_project wellFormed rename word
  by_cases known : lexicon.knows word = true
  · rw [score_of_knows known, score_of_knows (sameWords.mpr known), known_project]
    exact ScoreTable.getD_find?_rekey_le wellFormed.knownDistinct
      wellFormed.knownNonpositive (fun entry => congrArg (Prod.mk entry.1) (unchanged entry.2))
      (word, tag)
  · rw [score_of_not_knows known, score_of_not_knows (mt sameWords.mp known),
      unknown_project]
    exact ScoreTable.getD_find?_rekey_le wellFormed.unknownDistinct
      wellFormed.unknownNonpositive unchanged tag

end TableLexicon

end ChartParsing
