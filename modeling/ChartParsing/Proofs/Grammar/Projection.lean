import Mathlib.Order.Bounds.Defs
import ChartParsing.Proofs.Merging
import ChartParsing.Proofs.Projection

/-!
# Projections compose

A declared grammar is its labels and two tables of scores, from which everything else is
selected.  Projecting it lists the renamed labels in the order of first mention
(`labels_of_project`) and renames the keys of both tables (`binaryScores_of_project`,
`unaryScores_of_project`), so the laws of merging carry over.  A projection that changes no
label is the grammar itself (`project_id_eq_ok`), projecting twice gives the grammar of
projecting once by the composed renaming (`alike_of_project_project`), and each projected
rule has the greatest of the scores that come to it (`isGreatest_binaryScoresOf`).
-/

namespace ChartParsing

variable {σ : Type} [Score σ]

/-! ## Grammars that are alike -/

/-- Two binary rules with the same labels, at scores that tie. -/
structure BinaryRule.Alike (rule other : BinaryRule σ) : Prop where
  parent : rule.parent = other.parent
  left : rule.left = other.left
  right : rule.right = other.right
  score : Score.Ties rule.score other.score

/-- Two unary rules with the same labels, at scores that tie. -/
structure UnaryRule.Alike (rule other : UnaryRule σ) : Prop where
  parent : rule.parent = other.parent
  child : rule.child = other.child
  score : Score.Ties rule.score other.score

/-- Rules that are alike are selected alike. -/
theorem RuleIndex.forall₂_rules_select {key : BinaryRule σ → LabelId}
    {rules others : List (BinaryRule σ)} (count : Nat)
    (alike : List.Forall₂ BinaryRule.Alike rules others)
    (keys : ∀ rule other : BinaryRule σ, rule.Alike other → key rule = key other)
    (label : LabelId) :
    List.Forall₂ BinaryRule.Alike ((select count key rules).rules label)
      ((select count key others).rules label) := by
  by_cases known : label < count
  · rw [rules_select key rules known, rules_select key others known]
    refine List.rel_filter (fun rule other same => ?_) alike
    change (key rule == label) = true ↔ (key other == label) = true
    rw [keys rule other same]
  · have nothing (rules : List (BinaryRule σ)) : (select count key rules).rules label = [] :=
      LabelIndex.entries_of_size_le ((size_select count key rules).trans_le (Nat.not_lt.mp known))
    rw [nothing rules, nothing others]
    exact .nil

namespace Grammar

/-- Two grammars with the same labels and the same rules in the same order, in all of their
lists, at scores that tie. -/
structure Alike (grammar other : Grammar σ) : Prop where
  labels : grammar.labels = other.labels
  binary : List.Forall₂ BinaryRule.Alike grammar.binary other.binary
  unary : List.Forall₂ UnaryRule.Alike grammar.unary other.unary
  byParent : ∀ label, List.Forall₂ BinaryRule.Alike (grammar.byParent.rules label)
    (other.byParent.rules label)
  byLeft : ∀ label, List.Forall₂ BinaryRule.Alike (grammar.byLeft.rules label)
    (other.byLeft.rules label)
  byRight : ∀ label, List.Forall₂ BinaryRule.Alike (grammar.byRight.rules label)
    (other.byRight.rules label)

variable {grammar other : Grammar σ}

/-- Well-formed grammars are alike if their labels and their two lists of rules are. -/
theorem WellFormed.alike (wellFormed : grammar.WellFormed) (otherWellFormed : other.WellFormed)
    (labels : grammar.labels = other.labels)
    (binary : List.Forall₂ BinaryRule.Alike grammar.binary other.binary)
    (unary : List.Forall₂ UnaryRule.Alike grammar.unary other.unary) :
    grammar.Alike other := by
  refine ⟨labels, binary, unary, ?_, ?_, ?_⟩
  all_goals
    rw [wellFormed.indexed, otherWellFormed.indexed, labels]
  · exact RuleIndex.forall₂_rules_select _ binary fun _ _ => BinaryRule.Alike.parent
  · exact RuleIndex.forall₂_rules_select _ binary fun _ _ => BinaryRule.Alike.left
  · exact RuleIndex.forall₂_rules_select _ binary fun _ _ => BinaryRule.Alike.right

theorem WellFormed.eq_of_rules (wellFormed : grammar.WellFormed)
    (otherWellFormed : other.WellFormed) (labels : grammar.labels = other.labels)
    (binary : grammar.binary = other.binary) (unary : grammar.unary = other.unary) :
    grammar = other := by
  rw [wellFormed.indexed, otherWellFormed.indexed, labels, binary, unary]

/-- Where scores that tie are equal, well-formed grammars that are alike are equal. -/
theorem Alike.eq (alike : grammar.Alike other) (wellFormed : grammar.WellFormed)
    (otherWellFormed : other.WellFormed) (strict : ∀ a b : σ, Score.Ties a b → a = b) :
    grammar = other := by
  apply wellFormed.eq_of_rules otherWellFormed alike.labels
  · rw [← List.forall₂_eq_eq_eq]
    refine alike.binary.imp ?_
    rintro ⟨parent, left, right, score⟩ ⟨otherParent, otherLeft, otherRight, otherScore⟩ same
    rw [BinaryRule.mk.injEq]
    exact ⟨same.parent, same.left, same.right, strict _ _ same.score⟩
  · rw [← List.forall₂_eq_eq_eq]
    refine alike.unary.imp ?_
    rintro ⟨parent, child, score⟩ ⟨otherParent, otherChild, otherScore⟩ same
    rw [UnaryRule.mk.injEq]
    exact ⟨same.parent, same.child, strict _ _ same.score⟩

/-! ## Rules as tables -/

/-- The binary rules of a grammar as a table. -/
def binaryScores (grammar : Grammar σ) : ScoreTable (LabelId × LabelId × LabelId) σ :=
  ⟨grammar.binary.map fun rule => ((rule.parent, rule.left, rule.right), rule.score)⟩

/-- The unary rules of a grammar as a table. -/
def unaryScores (grammar : Grammar σ) : ScoreTable (LabelId × LabelId) σ :=
  ⟨grammar.unary.map fun rule => ((rule.parent, rule.child), rule.score)⟩

theorem binaryScores_merge (root : String) (declarations : List (Declaration σ)) :
    (merge root declarations).binaryScores =
      binaryTable (declaredLabels root declarations) declarations := by
  simp only [binaryScores, merge, ofRules, List.map_map]
  exact congrArg ScoreTable.mk (List.map_id _)

theorem unaryScores_merge (root : String) (declarations : List (Declaration σ)) :
    (merge root declarations).unaryScores =
      unaryTable (declaredLabels root declarations) declarations := by
  simp only [unaryScores, merge, ofRules, List.map_map]
  exact congrArg ScoreTable.mk (List.map_id _)

theorem distinct_binaryScores (declared : grammar.IsDeclared) :
    grammar.binaryScores.Distinct := by
  rcases declared with ⟨root, declarations, accepted⟩
  rcases declare_eq_ok_iff.mp accepted with ⟨-, rfl⟩
  rw [binaryScores_merge]
  exact ScoreTable.distinct_ofList _

theorem distinct_unaryScores (declared : grammar.IsDeclared) :
    grammar.unaryScores.Distinct := by
  rcases declared with ⟨root, declarations, accepted⟩
  rcases declare_eq_ok_iff.mp accepted with ⟨-, rfl⟩
  rw [unaryScores_merge]
  exact ScoreTable.distinct_ofList _

theorem nonpositive_binaryScores (declared : grammar.IsDeclared) :
    grammar.binaryScores.Nonpositive := by
  rcases declared with ⟨root, declarations, accepted⟩
  rcases declare_eq_ok_iff.mp accepted with ⟨⟨noError, -⟩, rfl⟩
  rw [binaryScores_merge]
  exact ScoreTable.nonpositive_ofList (binary_nonpos_of_declarationError? noError)

theorem nonpositive_unaryScores (declared : grammar.IsDeclared) :
    grammar.unaryScores.Nonpositive := by
  rcases declared with ⟨root, declarations, accepted⟩
  rcases declare_eq_ok_iff.mp accepted with ⟨⟨noError, -⟩, rfl⟩
  rw [unaryScores_merge]
  exact ScoreTable.nonpositive_ofList (unary_nonpos_of_declarationError? noError)

/-- Well-formed grammars are alike if their labels and their two tables are. -/
theorem WellFormed.alike_of_listedAlike (wellFormed : grammar.WellFormed)
    (otherWellFormed : other.WellFormed) (labels : grammar.labels = other.labels)
    (binary : grammar.binaryScores.ListedAlike other.binaryScores)
    (unary : grammar.unaryScores.ListedAlike other.unaryScores) : grammar.Alike other := by
  rw [ScoreTable.ListedAlike, binaryScores, binaryScores, List.forall₂_map_left_iff,
    List.forall₂_map_right_iff] at binary
  rw [ScoreTable.ListedAlike, unaryScores, unaryScores, List.forall₂_map_left_iff,
    List.forall₂_map_right_iff] at unary
  apply wellFormed.alike otherWellFormed labels
  case binary =>
    refine binary.imp ?_
    rintro rule other ⟨same, ties⟩
    rw [Prod.mk.injEq, Prod.mk.injEq] at same
    exact ⟨same.1, same.2.1, same.2.2, ties⟩
  case unary =>
    refine unary.imp ?_
    rintro rule other ⟨same, ties⟩
    rw [Prod.mk.injEq] at same
    exact ⟨same.1, same.2, ties⟩

/-- Well-formed grammars with the same labels and the same two tables are equal. -/
theorem WellFormed.eq_of_scores (wellFormed : grammar.WellFormed)
    (otherWellFormed : other.WellFormed) (labels : grammar.labels = other.labels)
    (binary : grammar.binaryScores = other.binaryScores)
    (unary : grammar.unaryScores = other.unaryScores) : grammar = other := by
  apply wellFormed.eq_of_rules otherWellFormed labels
  · refine List.map_injective_iff.mpr ?_ (ScoreTable.mk.inj binary)
    rintro ⟨parent, left, right, score⟩ ⟨otherParent, otherLeft, otherRight, otherScore⟩ same
    simpa [and_assoc] using same
  · refine List.map_injective_iff.mpr ?_ (ScoreTable.mk.inj unary)
    rintro ⟨parent, child, score⟩ ⟨otherParent, otherChild, otherScore⟩ same
    simpa [and_assoc] using same

/-! ## The labels and the tables of a projection -/

section

variable {fine coarse : Grammar σ} {rename : String → String}

/-- The coarse number of a fine label. -/
def renumbered (fine coarse : Grammar σ) (rename : String → String) (label : LabelId) :
    LabelId :=
  coarse.labels.names.idxOf (rename (fine.labels.name label))

omit [Score σ] in
theorem names_eq_root_cons (rooted : fine.root < fine.labels.size) :
    ∃ rest, fine.labels.names = fine.rootName :: rest := by
  cases names : fine.labels.names with
  | nil => simp [Vocabulary.size, names] at rooted
  | cons first rest => exact ⟨rest, by simp [rootName, Vocabulary.name, names, root]⟩

omit [Score σ] in
/-- The renamed labels come first, and then what the renamed rules mention. -/
theorem exists_mentions_renamedDeclarations (fine : Grammar σ) (rename : String → String) :
    ∃ others, (fine.renamedDeclarations rename).flatMap Declaration.mentions =
      fine.labels.names.map rename ++ others := by
  rw [renamedDeclarations, List.append_assoc, List.flatMap_append, List.flatMap_map]
  refine ⟨_, congrArg (· ++ _) ?_⟩
  exact (List.map_eq_flatMap ..).symm

/-- A projection numbers the renamed labels in the order of their first mention. -/
theorem labels_of_project (wellFormed : fine.WellFormed)
    (projected : fine.project rename = .ok coarse) :
    coarse.labels = .ofList (fine.labels.names.map rename) := by
  have known : (fine.renamedDeclarations rename).flatMap Declaration.mentions ⊆
      fine.labels.names.map rename := by
    intro name mentioned
    rcases List.mem_flatMap.mp mentioned with ⟨declaration, declared, mentioned⟩
    rcases declare_eq_ok_iff.mp projected with ⟨-, rfl⟩
    exact List.mem_map.mpr
      (exists_label_of_project wellFormed projected (mem_declaredLabels declared mentioned))
  rcases declare_eq_ok_iff.mp projected with ⟨-, rfl⟩
  rcases exists_mentions_renamedDeclarations fine rename with ⟨others, mentions⟩
  rcases names_eq_root_cons wellFormed.rooted with ⟨rest, names⟩
  rw [mentions, List.append_subset] at known
  change Vocabulary.ofList (rename fine.rootName :: _) = _
  rw [mentions, ← List.cons_append,
    Vocabulary.ofList_append_of_subset (List.subset_cons_of_subset _ known.2), names]
  simp [Vocabulary.ofList, Vocabulary.add, Vocabulary.empty]

omit [Score σ] in
/-- The unary rules among the renamed declarations are the renamed unary rules. -/
theorem filterMap_unaryEntry?_renamedDeclarations (fine : Grammar σ)
    (rename : String → String) (labels : Vocabulary) :
    (fine.renamedDeclarations rename).filterMap (Declaration.unaryEntry? labels) =
      fine.unary.map fun rule =>
        ((labels.names.idxOf (rename (fine.labels.name rule.parent)),
          labels.names.idxOf (rename (fine.labels.name rule.child))), rule.score) := by
  simp [renamedDeclarations, List.filterMap_append, List.filterMap_map, Function.comp_def,
    Declaration.unaryEntry?]

/-- A projection renames the keys of the table of binary rules. -/
theorem binaryScores_of_project (projected : fine.project rename = .ok coarse) :
    coarse.binaryScores = fine.binaryScores.rekey
      (Prod.map (fine.renumbered coarse rename)
        (Prod.map (fine.renumbered coarse rename) (fine.renumbered coarse rename))) := by
  rcases declare_eq_ok_iff.mp projected with ⟨-, rfl⟩
  rw [binaryScores_merge, binaryTable, filterMap_binaryEntry?_renamedDeclarations,
    ScoreTable.rekey, binaryScores, List.map_map]
  rfl

/-- A projection renames the keys of the table of unary rules. -/
theorem unaryScores_of_project (projected : fine.project rename = .ok coarse) :
    coarse.unaryScores = fine.unaryScores.rekey
      (Prod.map (fine.renumbered coarse rename) (fine.renumbered coarse rename)) := by
  rcases declare_eq_ok_iff.mp projected with ⟨-, rfl⟩
  rw [unaryScores_merge, unaryTable, filterMap_unaryEntry?_renamedDeclarations,
    ScoreTable.rekey, unaryScores, List.map_map]
  rfl

/-! ## The keys of the tables -/

omit [Score σ] in
theorem known_of_mem_keys_binaryScores
    (known : ∀ rule ∈ fine.binary, rule.parent < fine.labels.size ∧
      rule.left < fine.labels.size ∧ rule.right < fine.labels.size)
    {key : LabelId × LabelId × LabelId} (listed : key ∈ fine.binaryScores.keys) :
    key.1 < fine.labels.size ∧ key.2.1 < fine.labels.size ∧ key.2.2 < fine.labels.size := by
  rcases List.mem_map.mp listed with ⟨entry, entryListed, rfl⟩
  rcases List.mem_map.mp entryListed with ⟨rule, ruleListed, rfl⟩
  exact known rule ruleListed

omit [Score σ] in
theorem known_of_mem_keys_unaryScores
    (known : ∀ rule ∈ fine.unary, rule.parent < fine.labels.size ∧
      rule.child < fine.labels.size)
    {key : LabelId × LabelId} (listed : key ∈ fine.unaryScores.keys) :
    key.1 < fine.labels.size ∧ key.2 < fine.labels.size := by
  rcases List.mem_map.mp listed with ⟨entry, entryListed, rfl⟩
  rcases List.mem_map.mp entryListed with ⟨rule, ruleListed, rfl⟩
  exact known rule ruleListed

end

/-! ## Renaming nothing -/

/-- Projecting a declared grammar without changing a label gives the grammar itself, with the
same numbers and the rules in the same order. -/
theorem project_id_eq_ok (declared : grammar.IsDeclared) :
    grammar.project id = .ok grammar := by
  have wellFormed := wellFormed_of_isDeclared declared
  rcases exists_project wellFormed id with ⟨coarse, projected⟩
  have labels : coarse.labels = grammar.labels := by
    rw [labels_of_project wellFormed projected, List.map_id, Vocabulary.mk.injEq,
      Vocabulary.names_ofList, eraseDups_of_nodup wellFormed.distinct]
  have unchanged {label : LabelId} (known : label < grammar.labels.size) :
      grammar.renumbered coarse id label = label := by
    have member := Vocabulary.name_mem known
    rw [renumbered, labels]
    exact Vocabulary.name_injective wellFormed.distinct (Vocabulary.idxOf_lt_size member) known
      (Vocabulary.name_idxOf member)
  rw [projected]
  refine congrArg _ ((wellFormed_of_isDeclared ⟨_, _, projected⟩).eq_of_scores wellFormed labels
    ?_ ?_)
  · rw [binaryScores_of_project projected]
    refine ScoreTable.rekey_eq_self (distinct_binaryScores declared) fun key listed => ?_
    obtain ⟨parent, left, right⟩ := known_of_mem_keys_binaryScores wellFormed.binaryKnown listed
    exact Prod.ext (unchanged parent) (Prod.ext (unchanged left) (unchanged right))
  · rw [unaryScores_of_project projected]
    refine ScoreTable.rekey_eq_self (distinct_unaryScores declared) fun key listed => ?_
    obtain ⟨parent, child⟩ := known_of_mem_keys_unaryScores wellFormed.unaryKnown listed
    exact Prod.ext (unchanged parent) (unchanged child)

/-! ## Renaming twice -/

section

variable {once twice direct : Grammar σ} {rename outer : String → String}

/-- Renaming twice numbers the labels as renaming once does. -/
theorem labels_of_project_project (declared : grammar.IsDeclared)
    (first : grammar.project rename = .ok once) (second : once.project outer = .ok twice)
    (atOnce : grammar.project (outer ∘ rename) = .ok direct) : twice.labels = direct.labels := by
  have wellFormed := wellFormed_of_isDeclared declared
  have onceWellFormed : once.WellFormed := wellFormed_of_isDeclared ⟨_, _, first⟩
  rw [labels_of_project onceWellFormed second, labels_of_project wellFormed first,
    labels_of_project wellFormed atOnce, Vocabulary.mk.injEq, Vocabulary.names_ofList,
    Vocabulary.names_ofList, Vocabulary.names_ofList, eraseDups_map_eraseDups, List.map_map]

/-- Renumbering by a composed renaming is renumbering twice. -/
theorem renumbered_of_comp [Score.Monotone σ] (first : grammar.project rename = .ok once)
    (labels : twice.labels = direct.labels) {label : LabelId}
    (known : label < grammar.labels.size) :
    grammar.renumbered direct (outer ∘ rename) label =
      once.renumbered twice outer (grammar.renumbered once rename label) := by
  have member := (covers_of_project first).labels label known
  rw [renumbered, renumbered, renumbered, Vocabulary.name_idxOf member, labels]
  rfl

variable [Score.Monotone σ] (declared : grammar.IsDeclared)
  (first : grammar.project rename = .ok once) (second : once.project outer = .ok twice)
  (atOnce : grammar.project (outer ∘ rename) = .ok direct)

include declared first second atOnce

/-- Projecting twice lists the binary rules of projecting once, at scores that tie. -/
theorem listedAlike_binaryScores : twice.binaryScores.ListedAlike direct.binaryScores := by
  have wellFormed := wellFormed_of_isDeclared declared
  have labels := labels_of_project_project declared first second atOnce
  rw [binaryScores_of_project second, binaryScores_of_project first,
    binaryScores_of_project atOnce]
  refine ScoreTable.listedAlike_rekey_rekey (distinct_binaryScores declared)
    (nonpositive_binaryScores declared) fun key listed => ?_
  obtain ⟨parent, left, right⟩ := known_of_mem_keys_binaryScores wellFormed.binaryKnown listed
  exact Prod.ext (renumbered_of_comp first labels parent)
    (Prod.ext (renumbered_of_comp first labels left) (renumbered_of_comp first labels right))

/-- Projecting twice lists the unary rules of projecting once, at scores that tie. -/
theorem listedAlike_unaryScores : twice.unaryScores.ListedAlike direct.unaryScores := by
  have wellFormed := wellFormed_of_isDeclared declared
  have labels := labels_of_project_project declared first second atOnce
  rw [unaryScores_of_project second, unaryScores_of_project first, unaryScores_of_project atOnce]
  refine ScoreTable.listedAlike_rekey_rekey (distinct_unaryScores declared)
    (nonpositive_unaryScores declared) fun key listed => ?_
  obtain ⟨parent, child⟩ := known_of_mem_keys_unaryScores wellFormed.unaryKnown listed
  exact Prod.ext (renumbered_of_comp first labels parent) (renumbered_of_comp first labels child)

/-- Projecting twice is projecting once by the composed renaming. -/
theorem alike_of_project_project : twice.Alike direct :=
  (wellFormed_of_isDeclared ⟨_, _, second⟩).alike_of_listedAlike
    (wellFormed_of_isDeclared ⟨_, _, atOnce⟩)
    (labels_of_project_project declared first second atOnce)
    (listedAlike_binaryScores declared first second atOnce)
    (listedAlike_unaryScores declared first second atOnce)

end

/-! ## The best of the scores -/

section

variable {fine coarse : Grammar σ} {rename : String → String}

/-- The scores of the binary rules that become a given one. -/
def binaryScoresOf (fine coarse : Grammar σ) (rename : String → String)
    (rule : BinaryRule σ) : Set σ :=
  {score | ∃ original ∈ fine.binary,
    coarse.labels.name rule.parent = rename (fine.labels.name original.parent) ∧
      coarse.labels.name rule.left = rename (fine.labels.name original.left) ∧
      coarse.labels.name rule.right = rename (fine.labels.name original.right) ∧
      original.score = score}

/-- The scores of the unary rules that become a given one. -/
def unaryScoresOf (fine coarse : Grammar σ) (rename : String → String)
    (rule : UnaryRule σ) : Set σ :=
  {score | ∃ original ∈ fine.unary,
    coarse.labels.name rule.parent = rename (fine.labels.name original.parent) ∧
      coarse.labels.name rule.child = rename (fine.labels.name original.child) ∧
      original.score = score}

variable [Score.Monotone σ] (projected : fine.project rename = .ok coarse)

include projected

/-- A binary rule of a projection has the greatest of the scores that come to it. -/
theorem isGreatest_binaryScoresOf {rule : BinaryRule σ} (member : rule ∈ coarse.binary) :
    IsGreatest (fine.binaryScoresOf coarse rename rule) rule.score := by
  have wellFormed : coarse.WellFormed := wellFormed_of_isDeclared ⟨_, _, projected⟩
  constructor
  · exact exists_binary_of_project projected member
  · rintro _ ⟨original, listed, parent, left, right, rfl⟩
    obtain ⟨image, imageListed, imageParent, imageLeft, imageRight, le⟩ :=
      (covers_of_project projected).binary original listed
    rw [wellFormed.binary_score_eq member imageListed (parent.trans imageParent.symm)
      (left.trans imageLeft.symm) (right.trans imageRight.symm)]
    exact le

/-- A unary rule of a projection has the greatest of the scores that come to it. -/
theorem isGreatest_unaryScoresOf {rule : UnaryRule σ} (member : rule ∈ coarse.unary) :
    IsGreatest (fine.unaryScoresOf coarse rename rule) rule.score := by
  have wellFormed : coarse.WellFormed := wellFormed_of_isDeclared ⟨_, _, projected⟩
  constructor
  · exact exists_unary_of_project projected member
  · rintro _ ⟨original, listed, parent, child, rfl⟩
    obtain ⟨image, imageListed, imageParent, imageChild, le⟩ :=
      (covers_of_project projected).unary original listed
    rw [wellFormed.unary_score_eq member imageListed (parent.trans imageParent.symm)
      (child.trans imageChild.symm)]
    exact le

end

end Grammar

end ChartParsing
