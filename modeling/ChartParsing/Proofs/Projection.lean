import ChartParsing.Grammar.Projection
import ChartParsing.Proofs.Derivation
import ChartParsing.Proofs.Lexicon.Table
import ChartParsing.Proofs.Tree.Relabel

/-!
# What a projection keeps

`Grammar.Covers` says that a grammar has every label and every rule of another one
under a renaming, each rule at a score that is no worse, and `Model.Covers` says the
same of two models and their tags.  A projection covers what it is made of, and if the
renaming changes no label, the two cover each other.  Over a model that covers another
one, a derivation scores at least as well after its labels have been renamed
(`Model.Covers.exists_derives`), so a projection lowers the score of no derivation
(`Model.projection_lowers_no_derivation`).
-/

namespace ChartParsing

variable {σ : Type} [Score σ]

namespace Grammar

/-- The coarse grammar has the labels and the rules of the fine one under a renaming,
and no rule is worse. -/
structure Covers (coarse fine : Grammar σ) (rename : String → String) : Prop where
  root : coarse.rootName = rename fine.rootName
  labels : ∀ label < fine.labels.size,
    rename (fine.labels.name label) ∈ coarse.labels.names
  binary : ∀ rule ∈ fine.binary, ∃ image ∈ coarse.binary,
    coarse.labels.name image.parent = rename (fine.labels.name rule.parent) ∧
      coarse.labels.name image.left = rename (fine.labels.name rule.left) ∧
      coarse.labels.name image.right = rename (fine.labels.name rule.right) ∧
      rule.score ≤ image.score
  unary : ∀ rule ∈ fine.unary, ∃ image ∈ coarse.unary,
    coarse.labels.name image.parent = rename (fine.labels.name rule.parent) ∧
      coarse.labels.name image.child = rename (fine.labels.name rule.child) ∧
      rule.score ≤ image.score

variable {fine coarse : Grammar σ} {rename : String → String}

theorem Covers.mem_labels (covers : coarse.Covers fine rename) {name : String}
    (member : name ∈ fine.labels.names) : rename name ∈ coarse.labels.names := by
  rw [← Vocabulary.name_idxOf member]
  exact covers.labels _ (Vocabulary.idxOf_lt_size member)

omit [Score σ] in
theorem label_mem_renamedDeclarations {name : String} :
    .label name ∈ fine.renamedDeclarations rename ↔
      ∃ label ∈ fine.labels.names, rename label = name := by
  simp [renamedDeclarations]

omit [Score σ] in
theorem binary_mem_renamedDeclarations {parent left right : String} {score : σ} :
    .binary parent left right score ∈ fine.renamedDeclarations rename ↔
      ∃ rule ∈ fine.binary, rename (fine.labels.name rule.parent) = parent ∧
        rename (fine.labels.name rule.left) = left ∧
        rename (fine.labels.name rule.right) = right ∧ rule.score = score := by
  simp [renamedDeclarations]

omit [Score σ] in
theorem unary_mem_renamedDeclarations {parent child : String} {score : σ} :
    .unary parent child score ∈ fine.renamedDeclarations rename ↔
      ∃ rule ∈ fine.unary, rename (fine.labels.name rule.parent) = parent ∧
        rename (fine.labels.name rule.child) = child ∧ rule.score = score := by
  simp [renamedDeclarations]

omit [Score σ] in
/-- The binary rules among the renamed declarations are the renamed binary rules. -/
theorem filterMap_binaryEntry?_renamedDeclarations (fine : Grammar σ)
    (rename : String → String) (labels : Vocabulary) :
    (fine.renamedDeclarations rename).filterMap (Declaration.binaryEntry? labels) =
      fine.binary.map fun rule =>
        ((labels.names.idxOf (rename (fine.labels.name rule.parent)),
          labels.names.idxOf (rename (fine.labels.name rule.left)),
          labels.names.idxOf (rename (fine.labels.name rule.right))), rule.score) := by
  simp [renamedDeclarations, List.filterMap_append, List.filterMap_map, Function.comp_def,
    Declaration.binaryEntry?]

/-- Renaming makes no score invalid and no two rules of one, so that every well-formed grammar
has a projection under every renaming. -/
theorem exists_project (wellFormed : fine.WellFormed) (rename : String → String) :
    ∃ coarse, fine.project rename = .ok coarse := by
  have accepted : declarationError? (fine.renamedDeclarations rename) = none := by
    rw [declarationError?_eq_none_iff]
    constructor
    · intro declaration declared
      cases declaration with
      | label name => rfl
      | unary parent child score => rfl
      | binary parent left right score =>
          rcases binary_mem_renamedDeclarations.mp declared with ⟨rule, listed, -, -, -, rfl⟩
          simp [Declaration.binaryError?, wellFormed.binaryValid rule listed]
    · intro declaration declared
      cases declaration with
      | label name => rfl
      | binary parent left right score => rfl
      | unary parent child score =>
          rcases unary_mem_renamedDeclarations.mp declared with ⟨rule, listed, -, -, rfl⟩
          simp [Declaration.unaryError?, wellFormed.unaryValid rule listed]
  have merged : (merge (rename fine.rootName) (fine.renamedDeclarations rename)).binary.length ≤
      fine.binary.length := by
    have merged := length_binary_merge_le (rename fine.rootName) (fine.renamedDeclarations rename)
    rw [filterMap_binaryEntry?_renamedDeclarations, List.length_map] at merged
    exact merged
  exact ⟨_, declare_eq_ok_iff.mpr ⟨⟨accepted, merged.trans wellFormed.numbered⟩, rfl⟩⟩

/-- The root of a projection is the renamed root. -/
theorem rootName_of_project (projected : fine.project rename = .ok coarse) :
    coarse.rootName = rename fine.rootName := by
  rcases declare_eq_ok_iff.mp projected with ⟨-, rfl⟩
  exact Vocabulary.name_ofList_zero _ _

/-- A projection covers the grammar that it is made of. -/
theorem covers_of_project [Score.Monotone σ] (projected : fine.project rename = .ok coarse) :
    coarse.Covers fine rename := by
  have root := rootName_of_project projected
  rcases declare_eq_ok_iff.mp projected with ⟨⟨accepted, -⟩, rfl⟩
  constructor
  case root => exact root
  case labels =>
    intro label known
    exact mem_declaredLabels
      (label_mem_renamedDeclarations.mpr ⟨_, Vocabulary.name_mem known, rfl⟩)
      List.mem_cons_self
  case binary =>
    intro rule member
    exact exists_binary_of_declaration accepted
      (binary_mem_renamedDeclarations.mpr ⟨rule, member, rfl, rfl, rfl, rfl⟩)
  case unary =>
    intro rule member
    exact exists_unary_of_declaration accepted
      (unary_mem_renamedDeclarations.mpr ⟨rule, member, rfl, rfl, rfl⟩)

/-- Every label of a projection is a renamed one. -/
theorem exists_label_of_project (wellFormed : fine.WellFormed)
    (projected : fine.project rename = .ok coarse) {name : String}
    (member : name ∈ coarse.labels.names) : ∃ label ∈ fine.labels.names, rename label = name := by
  have renamed {label : LabelId} (known : label < fine.labels.size) :
      ∃ name ∈ fine.labels.names, rename name = rename (fine.labels.name label) :=
    ⟨_, Vocabulary.name_mem known, rfl⟩
  rcases declare_eq_ok_iff.mp projected with ⟨-, rfl⟩
  rcases List.mem_cons.mp (Vocabulary.mem_names_ofList.mp member) with rfl | mentioned
  · exact renamed wellFormed.rooted
  · rcases List.mem_flatMap.mp mentioned with ⟨declaration, declared, mentioned⟩
    cases declaration with
    | label other =>
        obtain rfl := List.mem_singleton.mp mentioned
        exact label_mem_renamedDeclarations.mp declared
    | unary parent child score =>
        rcases unary_mem_renamedDeclarations.mp declared with ⟨rule, listed, rfl, rfl, -⟩
        rcases wellFormed.unaryKnown rule listed with ⟨parentKnown, childKnown⟩
        simp only [Declaration.mentions, List.mem_cons, List.not_mem_nil, or_false]
          at mentioned
        rcases mentioned with rfl | rfl
        · exact renamed parentKnown
        · exact renamed childKnown
    | binary parent left right score =>
        obtain ⟨rule, listed, rfl, rfl, rfl, -⟩ := binary_mem_renamedDeclarations.mp declared
        obtain ⟨parentKnown, leftKnown, rightKnown⟩ := wellFormed.binaryKnown rule listed
        simp only [Declaration.mentions, List.mem_cons, List.not_mem_nil, or_false]
          at mentioned
        rcases mentioned with rfl | rfl | rfl
        · exact renamed parentKnown
        · exact renamed leftKnown
        · exact renamed rightKnown

/-- A rule of a projection is a renamed one with its score. -/
theorem exists_binary_of_project (projected : fine.project rename = .ok coarse)
    {rule : BinaryRule σ} (member : rule ∈ coarse.binary) :
    ∃ original ∈ fine.binary,
      coarse.labels.name rule.parent = rename (fine.labels.name original.parent) ∧
        coarse.labels.name rule.left = rename (fine.labels.name original.left) ∧
        coarse.labels.name rule.right = rename (fine.labels.name original.right) ∧
        original.score = rule.score := by
  rcases declare_eq_ok_iff.mp projected with ⟨-, rfl⟩
  obtain ⟨_, _, _, declared, rfl, rfl, rfl⟩ := exists_named_binary_declaration member
  obtain ⟨original, listed, parent, left, right, score⟩ :=
    binary_mem_renamedDeclarations.mp declared
  exact ⟨original, listed, parent.symm, left.symm, right.symm, score⟩

theorem exists_unary_of_project (projected : fine.project rename = .ok coarse)
    {rule : UnaryRule σ} (member : rule ∈ coarse.unary) :
    ∃ original ∈ fine.unary,
      coarse.labels.name rule.parent = rename (fine.labels.name original.parent) ∧
        coarse.labels.name rule.child = rename (fine.labels.name original.child) ∧
        original.score = rule.score := by
  rcases declare_eq_ok_iff.mp projected with ⟨-, rfl⟩
  obtain ⟨_, _, declared, rfl, rfl⟩ := exists_named_unary_declaration member
  obtain ⟨original, listed, parent, child, score⟩ := unary_mem_renamedDeclarations.mp declared
  exact ⟨original, listed, parent.symm, child.symm, score⟩

/-- A grammar covers its projection if no label changes. -/
theorem covers_project_of_unchanged [Score.Monotone σ] (wellFormed : fine.WellFormed)
    (unchanged : ∀ label, rename label = label)
    (projected : fine.project rename = .ok coarse) : fine.Covers coarse rename := by
  constructor
  case root => rw [rootName_of_project projected, unchanged, unchanged]
  case labels =>
    intro label known
    obtain ⟨original, listed, same⟩ :=
      exists_label_of_project wellFormed projected (Vocabulary.name_mem known)
    rw [← same, unchanged, unchanged]
    exact listed
  case binary =>
    intro rule member
    obtain ⟨original, listed, parent, left, right, score⟩ :=
      exists_binary_of_project projected member
    refine ⟨original, listed, ?_, ?_, ?_, ?_⟩
    · rw [parent, unchanged, unchanged]
    · rw [left, unchanged, unchanged]
    · rw [right, unchanged, unchanged]
    · rw [← score]
      exact Score.le_refl (wellFormed.binary_nonpos listed)
  case unary =>
    intro rule member
    obtain ⟨original, listed, parent, child, score⟩ :=
      exists_unary_of_project projected member
    refine ⟨original, listed, ?_, ?_, ?_⟩
    · rw [parent, unchanged, unchanged]
    · rw [child, unchanged, unchanged]
    · rw [← score]
      exact Score.le_refl (wellFormed.unary_nonpos listed)

end Grammar

namespace Model

/-- The coarse model has the labels, rules and tags of the fine one under a renaming,
and none of them scores worse. -/
structure Covers (coarse fine : Model σ) (rename : String → String) : Prop where
  grammar : coarse.grammar.Covers fine.grammar rename
  tags : ∀ word tag, fine.tagScore word tag ≤ coarse.tagScore word (rename tag)
  tagsNonpos : ∀ word tag, coarse.tagScore word tag ≤ 0

namespace Covers

variable [Score.Monotone σ] {coarse fine : Model σ} {rename : String → String}
  (covers : coarse.Covers fine rename) (wellFormed : coarse.grammar.WellFormed)

include covers wellFormed

/-- After renaming its labels a derivation is one of the coarse model, at no worse a
score. -/
theorem exists_derives {label : LabelId} {tree : Tree String} {score : σ}
    (derives : fine.Derives label tree score) :
    ∃ image best,
      coarse.grammar.labels.name image = rename (fine.grammar.labels.name label) ∧
        coarse.Derives image (tree.relabel rename) best ∧ best ≤ 0 ∧ score ≤ best := by
  have sameLabel {first second : LabelId} (firstKnown : first < coarse.grammar.labels.size)
      (secondKnown : second < coarse.grammar.labels.size) {name : String}
      (firstNamed : coarse.grammar.labels.name first = name)
      (secondNamed : coarse.grammar.labels.name second = name) : first = second :=
    Vocabulary.name_injective wellFormed.distinct firstKnown secondKnown
      (firstNamed.trans secondNamed.symm)
  induction derives with
  | @word label word known =>
      have member := covers.grammar.labels label known
      have named := Vocabulary.name_idxOf member
      have derives : coarse.Derives _ _ _ := .word word (Vocabulary.idxOf_lt_size member)
      rw [named] at derives
      exact ⟨_, _, named, derives, covers.tagsNonpos word _, covers.tags word _⟩
  | @unary rule child score member below inductionHypothesis =>
      obtain ⟨image, imageMember, parent, childNamed, le⟩ := covers.grammar.unary rule member
      rcases inductionHypothesis with ⟨found, best, named, derives, nonpos, scoreLe⟩
      have ruleNonpos := wellFormed.unary_nonpos imageMember
      obtain rfl := sameLabel (derives.known wellFormed)
        (wellFormed.unaryKnown image imageMember).2 named childNamed
      have whole := Derives.unary imageMember derives
      rw [parent] at whole
      exact ⟨image.parent, _, parent, whole, Score.add_nonpos ruleNonpos nonpos,
        Score.Monotone.add_le_add ruleNonpos nonpos le scoreLe⟩
  | @binary rule left right leftScore rightScore member leftDerives rightDerives
      leftHypothesis rightHypothesis =>
      obtain ⟨image, imageMember, parent, leftNamed, rightNamed, le⟩ :=
        covers.grammar.binary rule member
      obtain ⟨leftFound, leftBest, leftSame, leftImage, leftNonpos, leftLe⟩ := leftHypothesis
      obtain ⟨rightFound, rightBest, rightSame, rightImage, rightNonpos, rightLe⟩ :=
        rightHypothesis
      rcases wellFormed.binaryKnown image imageMember with ⟨-, leftKnown, rightKnown⟩
      have ruleNonpos := wellFormed.binary_nonpos imageMember
      obtain rfl := sameLabel (leftImage.known wellFormed) leftKnown leftSame leftNamed
      obtain rfl := sameLabel (rightImage.known wellFormed) rightKnown rightSame rightNamed
      have halfNonpos := Score.add_nonpos ruleNonpos leftNonpos
      have whole := Derives.binary imageMember leftImage rightImage
      rw [parent] at whole
      exact ⟨image.parent, _, parent, whole, Score.add_nonpos halfNonpos rightNonpos,
        Score.Monotone.add_le_add halfNonpos rightNonpos
          (Score.Monotone.add_le_add ruleNonpos leftNonpos le leftLe) rightLe⟩

/-- After renaming its labels a parse is one of the coarse model, at no worse a
score. -/
theorem exists_isParse (fineWellFormed : fine.grammar.WellFormed) {words : List String}
    {tree : Tree String} {score : σ} (parse : fine.IsParse words tree score) :
    ∃ best, coarse.IsParse words (tree.relabel rename) best ∧ score ≤ best := by
  rcases (isParse_iff_derives fineWellFormed).mp parse with ⟨derives, leaves⟩
  obtain ⟨image, best, named, imageDerives, -, le⟩ := covers.exists_derives wellFormed derives
  have same : image = coarse.grammar.root :=
    Vocabulary.name_injective wellFormed.distinct (imageDerives.known wellFormed)
      wellFormed.rooted (named.trans covers.grammar.root.symm)
  have imageLeaves := (Tree.leaves_relabel rename tree).trans leaves
  exact ⟨best, (isParse_iff_derives wellFormed).mpr ⟨same ▸ imageDerives, imageLeaves⟩, le⟩

end Covers

/-! ## Models of a projection -/

section

variable [Score.Monotone σ] {lexicon : TableLexicon σ} (wellFormed : lexicon.WellFormed)
  (values : ∀ score : σ, score ≤ 0 → Score.isUndefined score = false)

include wellFormed values

/-- The tags of a table are scored as entered, since what has been entered is a value. -/
theorem tagScore_of_table {model : Model σ} (isLexicon : model.lexicon = lexicon.score)
    (word tag : String) : model.tagScore word tag = lexicon.score word tag := by
  rw [tagScore, isLexicon, Score.orImpossible,
    values _ (TableLexicon.score_nonpos wellFormed word tag)]
  exact if_neg Bool.false_ne_true

/-- A model of a projected grammar and lexicon covers every model of the grammar and the
lexicon. -/
theorem covers_of_projected {coarse fine : Model σ} {rename : String → String}
    (projected : fine.grammar.project rename = .ok coarse.grammar)
    (isLexicon : fine.lexicon = lexicon.score)
    (isProjected : coarse.lexicon = (lexicon.project rename).score) :
    coarse.Covers fine rename := by
  have fineTags := tagScore_of_table wellFormed values isLexicon
  have coarseTags := tagScore_of_table (wellFormed.project rename) values isProjected
  constructor
  case grammar => exact Grammar.covers_of_project projected
  case tags =>
    intro word tag
    rw [fineTags, coarseTags]
    exact TableLexicon.score_le_score_project wellFormed rename word tag
  case tagsNonpos =>
    intro word tag
    rw [coarseTags]
    exact TableLexicon.score_nonpos (wellFormed.project rename) word tag

end

/-- A grammar has a projection under every renaming, over which every derivation scores at
least as well as before its labels were renamed.  Of addition no more is asked than that it
be monotone and that zero and zero add up to no more than zero, so that scores of derivations
are log-probabilities as well.  The closures of the models may be any. -/
theorem projection_lowers_no_derivation [Score.Monotone σ]
    (values : ∀ score : σ, score ≤ 0 → Score.isUndefined score = false)
    {grammar : Grammar σ} {lexicon : TableLexicon σ} (declared : grammar.IsDeclared)
    (built : lexicon.IsBuilt) (rename : String → String) :
    ∃ coarseGrammar, grammar.project rename = .ok coarseGrammar ∧
      ∀ closure coarseClosure tree score,
        scoreDerivation? ⟨grammar, closure, lexicon.score⟩ tree = some score →
        ∃ best,
          scoreDerivation? ⟨coarseGrammar, coarseClosure, (lexicon.project rename).score⟩
            (tree.relabel rename) = some best ∧ score ≤ best := by
  have wellFormed := Grammar.wellFormed_of_isDeclared declared
  obtain ⟨coarseGrammar, projected⟩ := Grammar.exists_project wellFormed rename
  have coarseWellFormed : coarseGrammar.WellFormed :=
    Grammar.wellFormed_of_isDeclared ⟨_, _, projected⟩
  refine ⟨coarseGrammar, projected, ?_⟩
  intro closure coarseClosure tree score scored
  have covers : Covers ⟨coarseGrammar, coarseClosure, (lexicon.project rename).score⟩
      ⟨grammar, closure, lexicon.score⟩ rename :=
    covers_of_projected (TableLexicon.wellFormed_of_isBuilt built) values projected rfl rfl
  rcases derives_of_scoreDerivation? wellFormed scored with ⟨label, derives⟩
  obtain ⟨image, best, -, imageDerives, -, le⟩ :=
    covers.exists_derives coarseWellFormed derives
  exact ⟨best, imageDerives.scoreDerivation?_eq coarseWellFormed, le⟩

/-- The chain above the noun becomes one that visits a coarse label twice. -/
theorem projection_lowers_no_derivation_dogs_bark :
    ∃ best,
      scoreDerivation? ⟨Sample.Exact.grammar, Sample.Exact.fine.closure,
          Sample.Exact.lexicon.score⟩
        (.node "S^ROOT"
          [.node "NP^S" [.node "N^NP" [.node "NP^S" [.node "N^NP" [.leaf "dogs"]]]],
            .node "VP^S" [.node "VP^VP" [.node "V^VP" [.leaf "bark"]]]]) =
          some (.finite (-119 / 24)) ∧
      scoreDerivation? ⟨Sample.Exact.coarseGrammar, Sample.Exact.coarse.closure,
          (Sample.Exact.lexicon.project Refinement.coarseLabel).score⟩
        (.node "S"
          [.node "NP" [.node "N" [.node "NP" [.node "N" [.leaf "dogs"]]]],
            .node "VP" [.node "VP" [.node "V" [.leaf "bark"]]]]) = some best ∧
      .finite (-119 / 24) ≤ best := by
  obtain ⟨coarseGrammar, projected, bounds⟩ := projection_lowers_no_derivation
    (fun _ => ExactScore.isUndefined_eq_false) Grammar.isDeclared_sample
    TableLexicon.isBuilt_sample Refinement.coarseLabel
  obtain rfl := Except.ok.inj (projected.symm.trans Grammar.project_sample)
  have scored : scoreDerivation? ⟨Sample.Exact.grammar, Sample.Exact.fine.closure,
        Sample.Exact.lexicon.score⟩
      (.node "S^ROOT"
        [.node "NP^S" [.node "N^NP" [.node "NP^S" [.node "N^NP" [.leaf "dogs"]]]],
          .node "VP^S" [.node "VP^VP" [.node "V^VP" [.leaf "bark"]]]]) =
        some (.finite (-119 / 24)) := by
    decide +kernel
  rcases bounds _ Sample.Exact.coarse.closure _ _ scored with ⟨best, coarseScored, le⟩
  exact ⟨best, scored, coarseScored, le⟩

end Model

end ChartParsing
