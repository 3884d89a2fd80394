import ChartParsing.Model
import ChartParsing.Proofs.Grammar.WellFormed

/-!
# Derivations

`Model.Derives` is the relation behind `Model.scoreDerivation?`: a word under a tag,
a unary rule over a derivation, or a binary rule over two.  It speaks of the numbers
of labels and of the rules of the grammar, where the function looks up names, and
`Model.scoreDerivation?_eq_some_iff` proves the two equal for well-formed grammars.

A parse of a sentence is a derivation of the root over the words of the sentence.
-/

namespace ChartParsing.Model

variable {σ : Type} [Score σ]

/-- The derivations of a label under a model, with their scores. -/
inductive Derives (model : Model σ) : LabelId → Tree String → σ → Prop
  | word {label : LabelId} (word : String) :
      label < model.grammar.labels.size →
      Derives model label (.node (model.grammar.labels.name label) [.leaf word])
        (model.tagScore word (model.grammar.labels.name label))
  | unary {rule : UnaryRule σ} {child : Tree String} {score : σ} :
      rule ∈ model.grammar.unary → Derives model rule.child child score →
      Derives model rule.parent
        (.node (model.grammar.labels.name rule.parent) [child]) (rule.score + score)
  | binary {rule : BinaryRule σ} {left right : Tree String} {leftScore rightScore : σ} :
      rule ∈ model.grammar.binary → Derives model rule.left left leftScore →
      Derives model rule.right right rightScore →
      Derives model rule.parent
        (.node (model.grammar.labels.name rule.parent) [left, right])
        (rule.score + leftScore + rightScore)

/-! ## Scoring one node -/

theorem scoreDerivation?_word (model : Model σ) (tag word : String) :
    model.scoreDerivation? (.node tag [.leaf word]) =
      (model.grammar.labels.id? tag).map fun _ => model.tagScore word tag := by
  unfold scoreDerivation?
  cases model.grammar.labels.id? tag <;> rfl

theorem scoreDerivation?_unary (model : Model σ) (label : String) {child : Tree String}
    (inner : child.isLeaf = false) :
    model.scoreDerivation? (.node label [child]) =
      (do
        let parentId ← model.grammar.labels.id? label
        let childId ← model.grammar.labels.id? child.label
        let rule ← model.grammar.unaryScore? parentId childId
        let below ← model.scoreDerivation? child
        return rule + below) := by
  rcases child with ⟨childLabel, children⟩
  cases children with
  | nil => cases inner
  | cons first rest =>
      rw [scoreDerivation?]
      exact fun word same => nomatch same

theorem scoreDerivation?_binary (model : Model σ) (label : String)
    (left right : Tree String) :
    model.scoreDerivation? (.node label [left, right]) =
      (do
        let parentId ← model.grammar.labels.id? label
        let leftId ← model.grammar.labels.id? left.label
        let rightId ← model.grammar.labels.id? right.label
        let rule ← model.grammar.binaryScore? parentId leftId rightId
        let below ← model.scoreDerivation? left
        let beside ← model.scoreDerivation? right
        return rule + below + beside) := by
  rw [scoreDerivation?]

namespace Derives

variable {model : Model σ} {label : LabelId} {tree : Tree String} {score : σ}

theorem label_eq (derives : model.Derives label tree score) :
    tree.label = model.grammar.labels.name label := by
  cases derives <;> rfl

theorem isLeaf (derives : model.Derives label tree score) : tree.isLeaf = false := by
  cases derives <;> rfl

theorem known (wellFormed : model.grammar.WellFormed)
    (derives : model.Derives label tree score) :
    label < model.grammar.labels.size := by
  cases derives with
  | word _ known => exact known
  | unary member => exact (wellFormed.unaryKnown _ member).1
  | binary member => exact (wellFormed.binaryKnown _ member).1

theorem id?_label (wellFormed : model.grammar.WellFormed)
    (derives : model.Derives label tree score) :
    model.grammar.labels.id? tree.label = some label := by
  rw [derives.label_eq]
  exact Vocabulary.id?_name wellFormed.distinct (derives.known wellFormed)

/-- A derivation has the score that it is derived with. -/
theorem scoreDerivation?_eq (wellFormed : model.grammar.WellFormed)
    (derives : model.Derives label tree score) :
    model.scoreDerivation? tree = some score := by
  have named {id : LabelId} (known : id < model.grammar.labels.size) :=
    Vocabulary.id?_name wellFormed.distinct known
  induction derives with
  | word word known => rw [scoreDerivation?_word, named known, Option.map_some]
  | unary member below inductionHypothesis =>
      rw [scoreDerivation?_unary _ _ below.isLeaf,
        named (wellFormed.unaryKnown _ member).1, below.id?_label wellFormed,
        inductionHypothesis]
      simp [wellFormed.unaryScored _ member]
  | binary member left right leftHypothesis rightHypothesis =>
      rw [scoreDerivation?_binary, named (wellFormed.binaryKnown _ member).1,
        left.id?_label wellFormed, right.id?_label wellFormed, leftHypothesis,
        rightHypothesis]
      simp [wellFormed.binaryScored _ member]

end Derives

/-- What has a score is a derivation of the label on top of it. -/
theorem derives_of_scoreDerivation? {model : Model σ} (wellFormed : model.grammar.WellFormed)
    {tree : Tree String} {score : σ} (scored : model.scoreDerivation? tree = some score) :
    ∃ label, model.Derives label tree score := by
  have idOf {name : String} {id : LabelId}
      (found : model.grammar.labels.id? name = some id) :=
    (Vocabulary.id?_eq_some_iff wellFormed.distinct).mp found
  fun_induction model.scoreDerivation? tree generalizing score with
  | case1 tag word =>
      rcases Option.bind_eq_some_iff.mp scored with ⟨label, found, same⟩
      obtain rfl := Option.some.inj same
      rcases idOf found with ⟨known, rfl⟩
      exact ⟨label, .word word known⟩
  | case2 name child inner inductionHypothesis =>
      rcases Option.bind_eq_some_iff.mp scored with ⟨parent, parentFound, scored⟩
      rcases Option.bind_eq_some_iff.mp scored with ⟨below, belowFound, scored⟩
      rcases Option.bind_eq_some_iff.mp scored with ⟨rule, ruleFound, scored⟩
      rcases Option.bind_eq_some_iff.mp scored with ⟨rest, restScored, same⟩
      obtain rfl := Option.some.inj same
      rcases inductionHypothesis restScored with ⟨label, derives⟩
      rcases idOf parentFound with ⟨-, rfl⟩
      obtain rfl := Option.some.inj (belowFound.symm.trans (derives.id?_label wellFormed))
      exact ⟨parent, .unary (Grammar.exists_of_unaryScore? ruleFound) derives⟩
  | case3 name left right leftHypothesis rightHypothesis =>
      rcases Option.bind_eq_some_iff.mp scored with ⟨parent, parentFound, scored⟩
      rcases Option.bind_eq_some_iff.mp scored with ⟨leftId, leftFound, scored⟩
      rcases Option.bind_eq_some_iff.mp scored with ⟨rightId, rightFound, scored⟩
      rcases Option.bind_eq_some_iff.mp scored with ⟨rule, ruleFound, scored⟩
      rcases Option.bind_eq_some_iff.mp scored with ⟨below, leftScored, scored⟩
      rcases Option.bind_eq_some_iff.mp scored with ⟨beside, rightScored, same⟩
      obtain rfl := Option.some.inj same
      rcases leftHypothesis leftScored with ⟨leftLabel, leftDerives⟩
      rcases rightHypothesis rightScored with ⟨rightLabel, rightDerives⟩
      rcases idOf parentFound with ⟨-, rfl⟩
      obtain rfl :=
        Option.some.inj (leftFound.symm.trans (leftDerives.id?_label wellFormed))
      obtain rfl :=
        Option.some.inj (rightFound.symm.trans (rightDerives.id?_label wellFormed))
      exact ⟨parent, .binary (Grammar.exists_of_binaryScore? ruleFound) leftDerives
        rightDerives⟩
  | case4 => cases scored

/-- The trees that have a score are the derivations of labels. -/
theorem scoreDerivation?_eq_some_iff {model : Model σ}
    (wellFormed : model.grammar.WellFormed) {tree : Tree String} {score : σ} :
    model.scoreDerivation? tree = some score ↔
      ∃ label, model.Derives label tree score := by
  constructor
  · exact derives_of_scoreDerivation? wellFormed
  · rintro ⟨label, derives⟩
    exact derives.scoreDerivation?_eq wellFormed

/-! ## Parses -/

/-- The trees over the words of a sentence with the root on top that have a score. -/
structure IsParse (model : Model σ) (words : List String) (tree : Tree String)
    (score : σ) : Prop where
  label : tree.label = model.grammar.rootName
  leaves : tree.leaves = words
  scored : model.scoreDerivation? tree = some score

/-- The finite scores of the parses of a sentence. -/
def parseScores (model : Model σ) (words : List String) : Set σ :=
  {score | Score.isFinite score = true ∧ ∃ tree, model.IsParse words tree score}

theorem isParse_iff_derives {model : Model σ} (wellFormed : model.grammar.WellFormed)
    {words : List String} {tree : Tree String} {score : σ} :
    model.IsParse words tree score ↔
      model.Derives model.grammar.root tree score ∧ tree.leaves = words := by
  constructor
  · intro parse
    rcases derives_of_scoreDerivation? wellFormed parse.scored with ⟨label, derives⟩
    have same := Vocabulary.name_injective wellFormed.distinct (derives.known wellFormed)
      wellFormed.rooted (derives.label_eq.symm.trans parse.label)
    exact ⟨same ▸ derives, parse.leaves⟩
  · rintro ⟨derives, leaves⟩
    exact ⟨derives.label_eq, leaves, derives.scoreDerivation?_eq wellFormed⟩

end ChartParsing.Model
