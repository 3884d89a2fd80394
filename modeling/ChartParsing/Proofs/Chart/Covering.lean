import ChartParsing.Proofs.Chart.Marginal
import ChartParsing.Proofs.Projection

/-!
# Passes that cover others

A pass covers another one over the same words if its model covers the model of the other
one and it keeps every cell that the other one keeps, up to a renaming of labels.  What the
other pass admits into a cell it then admits into the cell of the renamed label, at no worse
a score, and so no cell scores worse (`Pass.Covers.score_le`).  Chains of unary rules are
followed rule by rule, as the chart does not look at the labels on their way.
-/

namespace ChartParsing

/-- The rules of a grammar that covers another one lead from label to label as those of the
other one do. -/
theorem Grammar.Covers.exists_leads {coarse fine : Grammar ExactScore}
    {rename : String → String} (covers : coarse.Covers fine rename)
    (wellFormed : coarse.WellFormed) {source target : LabelId} {path : List LabelId}
    {chain : ExactScore} (leads : UnaryRule.Leads fine.unary source target path chain)
    {image : LabelId} (known : image < coarse.labels.size)
    (named : coarse.labels.name image = rename (fine.labels.name source)) :
    ∃ targetImage < coarse.labels.size,
      coarse.labels.name targetImage = rename (fine.labels.name target) ∧
      ∃ imagePath best, UnaryRule.Leads coarse.unary image targetImage imagePath best ∧
        chain ≤ best := by
  induction leads generalizing image with
  | stay label =>
      exact ⟨image, known, named, [image], 0, .stay image,
        ExactScore.le_refl Score.Lawful.zero_nonpos⟩
  | @step rule target path chain member rest inductionHypothesis =>
      obtain ⟨found, foundMember, parent, child, le⟩ := covers.unary rule member
      rcases wellFormed.unaryKnown found foundMember with ⟨parentKnown, childKnown⟩
      obtain rfl : found.parent = image :=
        Vocabulary.name_injective wellFormed.distinct parentKnown known
          (parent.trans named.symm)
      obtain ⟨targetImage, targetKnown, targetNamed, imagePath, best, imageLeads, chainLe⟩ :=
        inductionHypothesis childKnown child
      have bestNonpos := imageLeads.nonpos fun _ member => wellFormed.unary_nonpos member
      exact ⟨targetImage, targetKnown, targetNamed, _, _, .step foundMember imageLeads,
        ExactScore.add_le_add (wellFormed.unary_nonpos foundMember) bestNonpos le chainLe⟩

namespace Pass

/-- A pass keeps the labels, rules, tags and cells of another one under a renaming. -/
structure Covers (coarse fine : Pass ExactScore) (rename : String → String) : Prop where
  model : coarse.model.Covers fine.model rename
  words : coarse.words = fine.words
  kept : ∀ stage, ∀ label < fine.model.grammar.labels.size,
    ∀ image < coarse.model.grammar.labels.size,
    coarse.model.grammar.labels.name image = rename (fine.model.grammar.labels.name label) →
    ∀ start stop, start < stop → stop ≤ fine.length →
      fine.pruned stage label start stop = false →
      coarse.pruned stage image start stop = false

namespace Covers

variable {coarse fine : Pass ExactScore} {rename : String → String}
  (covers : coarse.Covers fine rename)

include covers

/-- What a pass admits is admitted by every pass that covers it, at no worse a score. -/
theorem exists_admits (wellFormed : coarse.model.grammar.WellFormed)
    (fineWellFormed : fine.model.grammar.WellFormed) {stage : Stage} {label : LabelId}
    {start stop : Nat} {tree : Tree String} {score : ExactScore}
    (admits : fine.Admits stage label start stop tree score) {image : LabelId}
    (known : image < coarse.model.grammar.labels.size)
    (named : coarse.model.grammar.labels.name image =
      rename (fine.model.grammar.labels.name label)) :
    ∃ imageTree best, coarse.Admits stage image start stop imageTree best ∧ best ≤ 0 ∧
      score ≤ best := by
  -- The cell of the image is kept where that of the label is.
  have keeps {stage : Stage} {label image : LabelId} {start stop : Nat} {tree : Tree String}
      {score : ExactScore} (admits : fine.Admits stage label start stop tree score)
      (kept : fine.pruned stage label start stop = false)
      (known : image < coarse.model.grammar.labels.size)
      (named : coarse.model.grammar.labels.name image =
        rename (fine.model.grammar.labels.name label)) :
      coarse.pruned stage image start stop = false :=
    covers.kept stage label (admits.known fineWellFormed) image known named start stop
      admits.bounds.1 admits.bounds.2 kept
  induction admits generalizing image with
  | @word label start word labelKnown found kept =>
      have imageKept := keeps (.word labelKnown found kept) kept known named
      refine ⟨_, _, .word known (covers.words ▸ found) imageKept,
        covers.model.tagsNonpos word _, ?_⟩
      rw [named]
      exact covers.model.tags word _
  | @split rule start middle stop left right leftScore rightScore member kept leftAdmits
      rightAdmits leftHypothesis rightHypothesis =>
      have imageKept := keeps (.split member kept leftAdmits rightAdmits) kept known named
      obtain ⟨found, foundMember, parent, leftNamed, rightNamed, le⟩ :=
        covers.model.grammar.binary rule member
      obtain ⟨parentKnown, leftKnown, rightKnown⟩ := wellFormed.binaryKnown found foundMember
      obtain rfl : found.parent = image :=
        Vocabulary.name_injective wellFormed.distinct parentKnown known
          (parent.trans named.symm)
      obtain ⟨leftTree, leftBest, leftImage, leftNonpos, leftLe⟩ :=
        leftHypothesis leftKnown leftNamed
      obtain ⟨rightTree, rightBest, rightImage, rightNonpos, rightLe⟩ :=
        rightHypothesis rightKnown rightNamed
      have ruleNonpos := wellFormed.binary_nonpos foundMember
      have halfNonpos := Score.add_nonpos ruleNonpos leftNonpos
      exact ⟨_, _, .split foundMember imageKept leftImage rightImage,
        Score.add_nonpos halfNonpos rightNonpos,
        ExactScore.add_le_add halfNonpos rightNonpos
          (ExactScore.add_le_add ruleNonpos leftNonpos le leftLe) rightLe⟩
  | @close label base start stop path tree chain score labelKnown kept leads below
      inductionHypothesis =>
      have imageKept := keeps (.close labelKnown kept leads below) kept known named
      obtain ⟨baseImage, baseKnown, baseNamed, imagePath, best, imageLeads, chainLe⟩ :=
        covers.model.grammar.exists_leads wellFormed leads known named
      obtain ⟨imageTree, belowBest, imageBelow, belowNonpos, belowLe⟩ :=
        inductionHypothesis baseKnown baseNamed
      have bestNonpos := imageLeads.nonpos fun _ member => wellFormed.unary_nonpos member
      exact ⟨_, _, .close known imageKept imageLeads imageBelow,
        Score.add_nonpos bestNonpos belowNonpos,
        ExactScore.add_le_add bestNonpos belowNonpos chainLe belowLe⟩

variable (sound : coarse.model.Sound) (nonpositive : coarse.Nonpositive)
  (fineSound : fine.model.Sound) (fineNonpositive : fine.Nonpositive)

include sound nonpositive fineSound fineNonpositive

/-- No cell scores better than that of its label's image. -/
theorem score_le {label image : LabelId} {start stop : Nat}
    (labelKnown : label < fine.model.grammar.labels.size)
    (known : image < coarse.model.grammar.labels.size)
    (named : coarse.model.grammar.labels.name image =
      rename (fine.model.grammar.labels.name label))
    (nonempty : start < stop) (bounded : stop ≤ fine.length) (stage : Stage) :
    fine.inside.score stage label start stop ≤ coarse.inside.score stage image start stop := by
  have imageBounded : stop ≤ coarse.length := by
    rw [length, covers.words]
    exact bounded
  rcases (isBestOf_admits fineSound fineNonpositive nonempty bounded labelKnown stage).attained
    with same | ⟨tree, admits⟩
  · rw [same]
    exact ExactScore.impossible_le
      (score_nonpos nonpositive nonempty imageBounded known stage)
  · obtain ⟨imageTree, best, image, -, le⟩ :=
      covers.exists_admits sound.grammar fineSound.grammar admits known named
    exact ExactScore.le_trans le (image.score_le sound nonpositive)

/-- The root cell scores no better than that of a pass that covers it. -/
theorem total_le (nonempty : fine.words ≠ []) : fine.total ≤ coarse.total := by
  have sameLength : coarse.length = fine.length := congrArg List.length covers.words
  rw [total, total, sameLength]
  exact covers.score_le sound nonpositive fineSound fineNonpositive fineSound.grammar.rooted
    sound.grammar.rooted covers.model.grammar.root (List.length_pos_of_ne_nil nonempty)
    (Nat.le_refl _) .closed

end Covers

end Pass

/-! ## Parses through a node -/

namespace Model.Covers

variable {coarse fine : Model ExactScore} {rename : String → String}
  (covers : coarse.Covers fine rename) (wellFormed : coarse.grammar.WellFormed)
  (fineWellFormed : fine.grammar.WellFormed)

include covers wellFormed fineWellFormed

/-- A parse through a node has an image through the image of the node, at no worse a
score. -/
theorem exists_scoresThrough {words : List String} {stage : Stage} {label image : LabelId}
    {start stop : Nat}
    (named : coarse.grammar.labels.name image = rename (fine.grammar.labels.name label))
    {score : ExactScore} (through : score ∈ fine.scoresThrough words stage label start stop) :
    ∃ best ∈ coarse.scoresThrough words stage image start stop, score ≤ best := by
  obtain ⟨tree, parse, node, placed, inner, labelled, wide, built⟩ := through
  obtain ⟨best, imageParse, le⟩ := covers.exists_isParse wellFormed fineWellFormed parse
  refine ⟨best, ⟨_, imageParse, node.relabel rename, ?_, Tree.isLeaf_relabel.trans inner, ?_,
    ?_, ?_⟩, le⟩
  · exact Tree.mem_placed_relabel rename tree 0 placed
  · rw [Tree.label_relabel inner, named, labelled]
  · rw [Tree.leaves_relabel]
    exact wide
  · exact fun isBuilt => Tree.isUnaryStep_relabel.trans (built isBuilt)

end Model.Covers

end ChartParsing
