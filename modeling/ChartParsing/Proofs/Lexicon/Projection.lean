import ChartParsing.Proofs.Lexicon.Table
import ChartParsing.Proofs.Merging

/-!
# Renaming the tags of a lexicon twice

The tables of a lexicon have no order of their own: a projection may enter their entries in any
order (`TableLexicon.ProjectsTo`).  Whatever the orders are, projecting twice gives a lexicon
with the words, the pairs and the scores of projecting once by the composed renaming
(`TableLexicon.alike_of_projectsTo_projectsTo`).
-/

namespace ChartParsing.TableLexicon

variable {σ : Type} [Score σ]

/-- Another lexicon lists the entries of the same tables, each in any order. -/
structure Relisted (lexicon other : TableLexicon σ) : Prop where
  known : lexicon.known.entries.Perm other.known.entries
  unknown : lexicon.unknown.entries.Perm other.unknown.entries

/-- A lexicon is a projection of another one, the entries of whose tables may have been taken in
any order. -/
def ProjectsTo (lexicon : TableLexicon σ) (rename : String → String)
    (projected : TableLexicon σ) : Prop :=
  ∃ relisted, lexicon.Relisted relisted ∧ relisted.project rename = projected

/-- Taking the entries in the order in which they are listed is one way to project. -/
theorem projectsTo_project (lexicon : TableLexicon σ) (rename : String → String) :
    lexicon.ProjectsTo rename (lexicon.project rename) :=
  ⟨lexicon, ⟨.refl _, .refl _⟩, rfl⟩

/-- Two lexicons know the same words and have the same entries, each pair once, and their scores
of pairs and of tags for unknown words tie. -/
structure Alike (lexicon other : TableLexicon σ) : Prop where
  words : ∀ word, lexicon.knows word = other.knows word
  pairs : lexicon.known.keys.Perm other.known.keys
  known : ∀ word tag, Option.Rel Score.Ties (lexicon.known.find? (word, tag))
    (other.known.find? (word, tag))
  unknown : ∀ tag, Option.Rel Score.Ties (lexicon.unknown.find? tag) (other.unknown.find? tag)

/-- Two lexicons are alike if their tables score alike. -/
theorem WellFormed.alike {lexicon other : TableLexicon σ} (wellFormed : lexicon.WellFormed)
    (otherWellFormed : other.WellFormed) (known : lexicon.known.ScoresAlike other.known)
    (unknown : lexicon.unknown.ScoresAlike other.unknown) : lexicon.Alike other := by
  constructor
  case words =>
    intro word
    rw [Bool.eq_iff_iff, knows_iff wellFormed.knownDistinct,
      knows_iff otherWellFormed.knownDistinct]
    exact exists_congr fun tag => known.exists_find?_iff (word, tag)
  case pairs =>
    exact known.perm_keys wellFormed.knownDistinct otherWellFormed.knownDistinct
  case known => exact fun word tag => known.rel_find? (word, tag)
  case unknown => exact unknown.rel_find?

theorem WellFormed.relisted {lexicon other : TableLexicon σ} (wellFormed : lexicon.WellFormed)
    (permuted : lexicon.Relisted other) : other.WellFormed where
  knownDistinct := wellFormed.knownDistinct.of_perm permuted.known
  unknownDistinct := wellFormed.unknownDistinct.of_perm permuted.unknown
  knownNonpositive := wellFormed.knownNonpositive.of_perm wellFormed.knownDistinct permuted.known
  unknownNonpositive :=
    wellFormed.unknownNonpositive.of_perm wellFormed.unknownDistinct permuted.unknown

theorem WellFormed.projectsTo {lexicon projected : TableLexicon σ} {rename : String → String}
    (wellFormed : lexicon.WellFormed) (projects : lexicon.ProjectsTo rename projected) :
    projected.WellFormed := by
  rcases projects with ⟨relisted, permuted, rfl⟩
  exact (wellFormed.relisted permuted).project rename

/-- Projecting twice is projecting once by the composed renaming, in whatever order each
projection takes the entries. -/
theorem alike_of_projectsTo_projectsTo [Score.Monotone σ]
    {lexicon once twice direct : TableLexicon σ} {rename outer : String → String}
    (wellFormed : lexicon.WellFormed) (first : lexicon.ProjectsTo rename once)
    (second : once.ProjectsTo outer twice) (atOnce : lexicon.ProjectsTo (outer ∘ rename) direct) :
    twice.Alike direct := by
  have twiceWellFormed := (wellFormed.projectsTo first).projectsTo second
  apply twiceWellFormed.alike (wellFormed.projectsTo atOnce)
  all_goals
    rcases first with ⟨relisted, permuted, rfl⟩
    rcases second with ⟨onceRelisted, oncePermuted, rfl⟩
    rcases atOnce with ⟨directRelisted, directPermuted, rfl⟩
  case known =>
    have listed := oncePermuted.known
    rw [known_project] at listed ⊢
    exact ScoreTable.scoresAlike_rekey_rekey_of_perm wellFormed.knownDistinct
      wellFormed.knownNonpositive permuted.known listed directPermuted.known
  case unknown =>
    have listed := oncePermuted.unknown
    rw [unknown_project] at listed ⊢
    exact ScoreTable.scoresAlike_rekey_rekey_of_perm wellFormed.unknownDistinct
      wellFormed.unknownNonpositive permuted.unknown listed directPermuted.unknown

end ChartParsing.TableLexicon
