import Mathlib.Data.List.GetD
import ChartParsing.Grammar.Declaration
import ChartParsing.Proofs.ScoreTable
import ChartParsing.Sample

/-!
# Well-formed grammars

A grammar that has been declared names no label twice, gives a number to every
label that its rules mention, holds each rule once at a score that is a
log-probability, and selects its rules by parent and by child from that one list.
`Grammar.WellFormed` states this, and `Grammar.wellFormed_of_isDeclared` proves it
of every grammar that is declared.
-/

namespace ChartParsing

/-! ## Names and numbers -/

namespace Vocabulary

variable {labels : Vocabulary}

theorem name_eq_getElem {id : LabelId} (known : id < labels.names.length) :
    labels.name id = labels.names[id] := by
  unfold name
  exact List.getD_eq_getElem labels.names "" known

theorem name_mem {id : LabelId} (known : id < labels.size) :
    labels.name id ∈ labels.names := by
  rw [name_eq_getElem known]
  exact List.getElem_mem known

/-- The number of a label is the one number that has its name. -/
theorem id?_eq_some_iff (distinct : labels.names.Nodup) {name : String}
    {id : LabelId} :
    labels.id? name = some id ↔ id < labels.size ∧ labels.name id = name := by
  rw [id?, List.idxOf?_eq_some_iff]
  constructor
  · rintro ⟨known, named, -⟩
    exact ⟨known, (name_eq_getElem known).trans named⟩
  · rintro ⟨known, named⟩
    rw [name_eq_getElem known] at named
    refine ⟨known, named, fun earlier before same => ?_⟩
    have equal := (List.Nodup.getElem_inj_iff distinct).mp (same.trans named.symm)
    omega

theorem id?_name (distinct : labels.names.Nodup) {id : LabelId}
    (known : id < labels.size) : labels.id? (labels.name id) = some id :=
  (id?_eq_some_iff distinct).mpr ⟨known, rfl⟩

theorem name_injective (distinct : labels.names.Nodup) {first second : LabelId}
    (firstKnown : first < labels.size) (secondKnown : second < labels.size)
    (same : labels.name first = labels.name second) : first = second := by
  have firstId := id?_name distinct firstKnown
  rw [same, id?_name distinct secondKnown] at firstId
  exact (Option.some.inj firstId).symm

/-- A label that is there has a number. -/
theorem idxOf_lt_size {name : String} (member : name ∈ labels.names) :
    labels.names.idxOf name < labels.size :=
  List.idxOf_lt_length_iff.mpr member

theorem name_idxOf {name : String} (member : name ∈ labels.names) :
    labels.name (labels.names.idxOf name) = name := by
  rw [name_eq_getElem (idxOf_lt_size member)]
  exact List.getElem_idxOf _

theorem head?_names_add {first : String} (starts : labels.names.head? = some first)
    (name : String) : (labels.add name).names.head? = some first := by
  unfold add
  split
  · exact starts
  · simp [List.head?_append, starts]

/-- The first label mentioned is the label number zero. -/
theorem name_ofList_zero (first : String) (rest : List String) :
    (ofList (first :: rest)).name 0 = first := by
  have starts : ∀ labels : Vocabulary, labels.names.head? = some first →
      (rest.foldl add labels).names.head? = some first := by
    induction rest with
    | nil => exact fun _ starts => starts
    | cons name rest inductionHypothesis =>
        exact fun labels starts =>
          inductionHypothesis (labels.add name) (head?_names_add starts name)
  have found := starts (empty.add first) rfl
  rw [name, List.getD_eq_getElem?_getD, ← List.head?_eq_getElem?]
  change ((rest.foldl add (empty.add first)).names.head?).getD "" = first
  rw [found, Option.getD_some]

end Vocabulary

theorem RuleIndex.mem_rules_select {σ : Type} {count : Nat}
    {key : BinaryRule σ → LabelId} {rules : List (BinaryRule σ)} {label : LabelId}
    (bounded : label < count) {rule : BinaryRule σ} :
    rule ∈ (select count key rules).rules label ↔
      rule ∈ rules ∧ key rule = label := by
  rw [rules_select key rules bounded, List.mem_filter, beq_iff_eq]

namespace Grammar

variable {σ : Type} [Score σ]

/-! ## The invariant -/

/-- What holds of every declared grammar. -/
structure WellFormed (grammar : Grammar σ) : Prop where
  distinct : grammar.labels.names.Nodup
  rooted : grammar.root < grammar.labels.size
  binaryKnown : ∀ rule ∈ grammar.binary, rule.parent < grammar.labels.size ∧
    rule.left < grammar.labels.size ∧ rule.right < grammar.labels.size
  unaryKnown : ∀ rule ∈ grammar.unary, rule.parent < grammar.labels.size ∧
    rule.child < grammar.labels.size
  binaryValid : ∀ rule ∈ grammar.binary, Score.isLogProbability rule.score = true
  unaryValid : ∀ rule ∈ grammar.unary, Score.isLogProbability rule.score = true
  /-- A rule is found at the score that it is listed with. -/
  binaryScored : ∀ rule ∈ grammar.binary,
    grammar.binaryScore? rule.parent rule.left rule.right = some rule.score
  unaryScored : ∀ rule ∈ grammar.unary,
    grammar.unaryScore? rule.parent rule.child = some rule.score
  numbered : grammar.binary.length ≤ ruleLimit
  /-- The selections are those of the listed rules. -/
  indexed : grammar = ofRules grammar.labels grammar.binary grammar.unary

omit [Score σ] in
/-- A rule that is found is listed. -/
theorem exists_of_binaryScore? {grammar : Grammar σ} {parent left right : LabelId}
    {score : σ} (found : grammar.binaryScore? parent left right = some score) :
    ⟨parent, left, right, score⟩ ∈ grammar.binary := by
  rcases Option.map_eq_some_iff.mp found with ⟨rule, ruleFound, rfl⟩
  have key := List.find?_some ruleFound
  simp only [Bool.and_eq_true, beq_iff_eq] at key
  rcases key with ⟨⟨rfl, rfl⟩, rfl⟩
  exact List.mem_of_find?_eq_some ruleFound

omit [Score σ] in
theorem exists_of_unaryScore? {grammar : Grammar σ} {parent child : LabelId}
    {score : σ} (found : grammar.unaryScore? parent child = some score) :
    ⟨parent, child, score⟩ ∈ grammar.unary := by
  rcases Option.map_eq_some_iff.mp found with ⟨rule, ruleFound, rfl⟩
  have key := List.find?_some ruleFound
  simp only [Bool.and_eq_true, beq_iff_eq] at key
  rcases key with ⟨rfl, rfl⟩
  exact List.mem_of_find?_eq_some ruleFound

namespace WellFormed

variable {grammar : Grammar σ} (wellFormed : grammar.WellFormed)

include wellFormed

theorem binary_nonpos {rule : BinaryRule σ} (member : rule ∈ grammar.binary) :
    rule.score ≤ 0 :=
  Score.nonpos_of_isLogProbability (wellFormed.binaryValid rule member)

theorem unary_nonpos {rule : UnaryRule σ} (member : rule ∈ grammar.unary) :
    rule.score ≤ 0 :=
  Score.nonpos_of_isLogProbability (wellFormed.unaryValid rule member)

theorem unary_isFinite {rule : UnaryRule σ} (member : rule ∈ grammar.unary) :
    Score.isFinite rule.score = true :=
  (Bool.and_eq_true_iff.mp (wellFormed.unaryValid rule member)).1

/-- Binary rules with the same labels are one, so they have the same score. -/
theorem binary_score_eq {rule other : BinaryRule σ} (member : rule ∈ grammar.binary)
    (otherMember : other ∈ grammar.binary)
    (parent : grammar.labels.name rule.parent = grammar.labels.name other.parent)
    (left : grammar.labels.name rule.left = grammar.labels.name other.left)
    (right : grammar.labels.name rule.right = grammar.labels.name other.right) :
    rule.score = other.score := by
  obtain ⟨parentKnown, leftKnown, rightKnown⟩ := wellFormed.binaryKnown rule member
  obtain ⟨otherParentKnown, otherLeftKnown, otherRightKnown⟩ :=
    wellFormed.binaryKnown other otherMember
  have found := wellFormed.binaryScored rule member
  rw [Vocabulary.name_injective wellFormed.distinct parentKnown otherParentKnown parent,
    Vocabulary.name_injective wellFormed.distinct leftKnown otherLeftKnown left,
    Vocabulary.name_injective wellFormed.distinct rightKnown otherRightKnown right,
    wellFormed.binaryScored other otherMember] at found
  exact (Option.some.inj found).symm

/-- Unary rules with the same labels are one, so they have the same score. -/
theorem unary_score_eq {rule other : UnaryRule σ} (member : rule ∈ grammar.unary)
    (otherMember : other ∈ grammar.unary)
    (parent : grammar.labels.name rule.parent = grammar.labels.name other.parent)
    (child : grammar.labels.name rule.child = grammar.labels.name other.child) :
    rule.score = other.score := by
  obtain ⟨parentKnown, childKnown⟩ := wellFormed.unaryKnown rule member
  obtain ⟨otherParentKnown, otherChildKnown⟩ := wellFormed.unaryKnown other otherMember
  have found := wellFormed.unaryScored rule member
  rw [Vocabulary.name_injective wellFormed.distinct parentKnown otherParentKnown parent,
    Vocabulary.name_injective wellFormed.distinct childKnown otherChildKnown child,
    wellFormed.unaryScored other otherMember] at found
  exact (Option.some.inj found).symm

theorem mem_byParent {label : LabelId} (known : label < grammar.labels.size)
    {rule : BinaryRule σ} :
    rule ∈ grammar.byParent.rules label ↔
      rule ∈ grammar.binary ∧ rule.parent = label := by
  rw [wellFormed.indexed]
  exact RuleIndex.mem_rules_select known

/-- The rules selected for a parent have known parts and no positive score. -/
theorem parts_of_mem_byParent {label : LabelId} (known : label < grammar.labels.size)
    {rule : BinaryRule σ} (member : rule ∈ grammar.byParent.rules label) :
    rule.left < grammar.labels.size ∧ rule.right < grammar.labels.size ∧ rule.score ≤ 0 := by
  rcases (wellFormed.mem_byParent known).mp member with ⟨listed, -⟩
  rcases wellFormed.binaryKnown rule listed with ⟨-, leftKnown, rightKnown⟩
  exact ⟨leftKnown, rightKnown, wellFormed.binary_nonpos listed⟩

/-- A label has no more rules than there are. -/
theorem length_byParent_le {label : LabelId} (known : label < grammar.labels.size) :
    (grammar.byParent.rules label).length ≤ grammar.binary.length := by
  have selected : grammar.byParent.rules label =
      grammar.binary.filter fun rule => rule.parent == label := by
    rw [wellFormed.indexed]
    exact RuleIndex.rules_select _ _ known
  rw [selected]
  exact List.length_filter_le _ _

theorem mem_byLeft {label : LabelId} (known : label < grammar.labels.size)
    {rule : BinaryRule σ} :
    rule ∈ grammar.byLeft.rules label ↔
      rule ∈ grammar.binary ∧ rule.left = label := by
  rw [wellFormed.indexed]
  exact RuleIndex.mem_rules_select known

theorem mem_byRight {label : LabelId} (known : label < grammar.labels.size)
    {rule : BinaryRule σ} :
    rule ∈ grammar.byRight.rules label ↔
      rule ∈ grammar.binary ∧ rule.right = label := by
  rw [wellFormed.indexed]
  exact RuleIndex.mem_rules_select known

end WellFormed

/-! ## Declared grammars -/

/-- The grammars that a list of declarations gives. -/
def IsDeclared (grammar : Grammar σ) : Prop :=
  ∃ root declarations, declare root declarations = .ok grammar

/-- The labels of a list of declarations. -/
def declaredLabels (root : String) (declarations : List (Declaration σ)) :
    Vocabulary :=
  .ofList (root :: declarations.flatMap Declaration.mentions)

/-- The binary rules of a list of declarations, merged. -/
def binaryTable (labels : Vocabulary) (declarations : List (Declaration σ)) :
    ScoreTable (LabelId × LabelId × LabelId) σ :=
  .ofList (declarations.filterMap (Declaration.binaryEntry? labels))

/-- The unary rules of a list of declarations, merged. -/
def unaryTable (labels : Vocabulary) (declarations : List (Declaration σ)) :
    ScoreTable (LabelId × LabelId) σ :=
  .ofList (declarations.filterMap (Declaration.unaryEntry? labels))

variable {root : String} {declarations : List (Declaration σ)}

theorem mem_binary_merge {rule : BinaryRule σ} :
    rule ∈ (merge root declarations).binary ↔
      (binaryTable (declaredLabels root declarations) declarations).find?
        (rule.parent, rule.left, rule.right) = some rule.score := by
  rw [binaryTable, ScoreTable.find?_eq_some_iff (ScoreTable.distinct_ofList _)]
  change rule ∈ List.map _ _ ↔ _
  rw [List.mem_map]
  constructor
  · rintro ⟨entry, member, rfl⟩
    exact member
  · intro member
    exact ⟨_, member, rfl⟩

/-- Merging makes no rules. -/
theorem length_binary_merge_le (root : String) (declarations : List (Declaration σ)) :
    (merge root declarations).binary.length ≤
      (declarations.filterMap
        (Declaration.binaryEntry? (declaredLabels root declarations))).length :=
  (List.length_map _).trans_le (ScoreTable.length_entries_ofList_le _)

theorem mem_unary_merge {rule : UnaryRule σ} :
    rule ∈ (merge root declarations).unary ↔
      (unaryTable (declaredLabels root declarations) declarations).find?
        (rule.parent, rule.child) = some rule.score := by
  rw [unaryTable, ScoreTable.find?_eq_some_iff (ScoreTable.distinct_ofList _)]
  change rule ∈ List.map _ _ ↔ _
  rw [List.mem_map]
  constructor
  · rintro ⟨entry, member, rfl⟩
    exact member
  · intro member
    exact ⟨_, member, rfl⟩

/-- A merged rule has been declared with the score that it keeps. -/
theorem exists_binary_declaration {rule : BinaryRule σ}
    (member : rule ∈ (merge root declarations).binary) :
    ∃ parent left right, .binary parent left right rule.score ∈ declarations ∧
      rule.parent = (declaredLabels root declarations).names.idxOf parent ∧
      rule.left = (declaredLabels root declarations).names.idxOf left ∧
      rule.right = (declaredLabels root declarations).names.idxOf right := by
  have entered := ScoreTable.mem_of_find?_ofList (mem_binary_merge.mp member)
  rcases List.mem_filterMap.mp entered with ⟨declaration, declared, given⟩
  cases declaration with
  | label name => cases given
  | unary parent child score => cases given
  | binary parent left right score =>
      simp only [Declaration.binaryEntry?, Option.some.injEq, Prod.mk.injEq] at given
      rcases given with ⟨⟨sameParent, sameLeft, sameRight⟩, rfl⟩
      exact ⟨parent, left, right, declared, sameParent.symm, sameLeft.symm,
        sameRight.symm⟩

theorem exists_unary_declaration {rule : UnaryRule σ}
    (member : rule ∈ (merge root declarations).unary) :
    ∃ parent child, .unary parent child rule.score ∈ declarations ∧
      rule.parent = (declaredLabels root declarations).names.idxOf parent ∧
      rule.child = (declaredLabels root declarations).names.idxOf child := by
  have entered := ScoreTable.mem_of_find?_ofList (mem_unary_merge.mp member)
  rcases List.mem_filterMap.mp entered with ⟨declaration, declared, given⟩
  cases declaration with
  | label name => cases given
  | binary parent left right score => cases given
  | unary parent child score =>
      simp only [Declaration.unaryEntry?, Option.some.injEq, Prod.mk.injEq] at given
      rcases given with ⟨⟨sameParent, sameChild⟩, rfl⟩
      exact ⟨parent, child, declared, sameParent.symm, sameChild.symm⟩

theorem binaryScore?_merge {rule : BinaryRule σ}
    (member : rule ∈ (merge root declarations).binary) :
    (merge root declarations).binaryScore? rule.parent rule.left rule.right =
      some rule.score := by
  cases found : (merge root declarations).binaryScore? rule.parent rule.left
      rule.right with
  | none =>
      have absent := List.find?_eq_none.mp (Option.map_eq_none_iff.mp found) rule member
      simp at absent
  | some score =>
      have listed := mem_binary_merge.mp (exists_of_binaryScore? found)
      exact listed.symm.trans (mem_binary_merge.mp member)

theorem unaryScore?_merge {rule : UnaryRule σ}
    (member : rule ∈ (merge root declarations).unary) :
    (merge root declarations).unaryScore? rule.parent rule.child =
      some rule.score := by
  cases found : (merge root declarations).unaryScore? rule.parent rule.child with
  | none =>
      have absent := List.find?_eq_none.mp (Option.map_eq_none_iff.mp found) rule member
      simp at absent
  | some score =>
      have listed := mem_unary_merge.mp (exists_of_unaryScore? found)
      exact listed.symm.trans (mem_unary_merge.mp member)

omit [Score σ] in
/-- Every label that is declared or mentioned in a rule has a number. -/
theorem mem_declaredLabels {declaration : Declaration σ} {name : String}
    (declared : declaration ∈ declarations) (mentioned : name ∈ declaration.mentions) :
    name ∈ (declaredLabels root declarations).names := by
  rw [declaredLabels, Vocabulary.mem_names_ofList]
  exact List.mem_cons_of_mem root (List.mem_flatMap.mpr ⟨_, declared, mentioned⟩)

omit [Score σ] in
theorem name_idxOf_declaredLabels {declaration : Declaration σ} {name : String}
    (declared : declaration ∈ declarations) (mentioned : name ∈ declaration.mentions) :
    (declaredLabels root declarations).name
      ((declaredLabels root declarations).names.idxOf name) = name :=
  Vocabulary.name_idxOf (mem_declaredLabels declared mentioned)

omit [Score σ] in
theorem idxOf_declaredLabels_lt {declaration : Declaration σ} {name : String}
    (declared : declaration ∈ declarations) (mentioned : name ∈ declaration.mentions) :
    (declaredLabels root declarations).names.idxOf name <
      (declaredLabels root declarations).size :=
  Vocabulary.idxOf_lt_size (mem_declaredLabels declared mentioned)

theorem nodup_names_merge (root : String) (declarations : List (Declaration σ)) :
    (merge root declarations).labels.names.Nodup :=
  Vocabulary.nodup_names_ofList _

/-- The labels of a merged rule are labels of the grammar. -/
theorem binaryKnown_merge {rule : BinaryRule σ}
    (member : rule ∈ (merge root declarations).binary) :
    rule.parent < (merge root declarations).labels.size ∧
      rule.left < (merge root declarations).labels.size ∧
      rule.right < (merge root declarations).labels.size := by
  obtain ⟨parent, left, right, given, sameParent, sameLeft, sameRight⟩ :=
    exists_binary_declaration member
  rw [sameParent, sameLeft, sameRight]
  exact ⟨idxOf_declaredLabels_lt given (by simp [Declaration.mentions]),
    idxOf_declaredLabels_lt given (by simp [Declaration.mentions]),
    idxOf_declaredLabels_lt given (by simp [Declaration.mentions])⟩

theorem unaryKnown_merge {rule : UnaryRule σ}
    (member : rule ∈ (merge root declarations).unary) :
    rule.parent < (merge root declarations).labels.size ∧
      rule.child < (merge root declarations).labels.size := by
  obtain ⟨parent, child, given, sameParent, sameChild⟩ := exists_unary_declaration member
  rw [sameParent, sameChild]
  exact ⟨idxOf_declaredLabels_lt given (by simp [Declaration.mentions]),
    idxOf_declaredLabels_lt given (by simp [Declaration.mentions])⟩

/-- A rule has the score of a declaration of it, and its labels the declared names. -/
theorem exists_named_binary_declaration {rule : BinaryRule σ}
    (member : rule ∈ (merge root declarations).binary) :
    ∃ parent left right, .binary parent left right rule.score ∈ declarations ∧
      (merge root declarations).labels.name rule.parent = parent ∧
      (merge root declarations).labels.name rule.left = left ∧
      (merge root declarations).labels.name rule.right = right := by
  obtain ⟨parent, left, right, declared, sameParent, sameLeft, sameRight⟩ :=
    exists_binary_declaration member
  refine ⟨parent, left, right, declared, ?_, ?_, ?_⟩
  · rw [sameParent]
    exact name_idxOf_declaredLabels declared (by simp [Declaration.mentions])
  · rw [sameLeft]
    exact name_idxOf_declaredLabels declared (by simp [Declaration.mentions])
  · rw [sameRight]
    exact name_idxOf_declaredLabels declared (by simp [Declaration.mentions])

theorem exists_named_unary_declaration {rule : UnaryRule σ}
    (member : rule ∈ (merge root declarations).unary) :
    ∃ parent child, .unary parent child rule.score ∈ declarations ∧
      (merge root declarations).labels.name rule.parent = parent ∧
      (merge root declarations).labels.name rule.child = child := by
  obtain ⟨parent, child, declared, sameParent, sameChild⟩ := exists_unary_declaration member
  refine ⟨parent, child, declared, ?_, ?_⟩
  · rw [sameParent]
    exact name_idxOf_declaredLabels declared (by simp [Declaration.mentions])
  · rw [sameChild]
    exact name_idxOf_declaredLabels declared (by simp [Declaration.mentions])

/-- Declarations are accepted if nothing is wrong with any of them. -/
theorem declarationError?_eq_none_iff :
    declarationError? declarations = none ↔
      (∀ declaration ∈ declarations, declaration.binaryError? = none) ∧
        ∀ declaration ∈ declarations, declaration.unaryError? = none := by
  simp only [declarationError?, Option.orElse_eq_orElse, Option.orElse_eq_or,
    Option.or_eq_none_iff, List.findSome?_eq_none_iff]

theorem binaryValid_of_declarationError? {parent left right : String} {score : σ}
    (accepted : declarationError? declarations = none)
    (declared : .binary parent left right score ∈ declarations) :
    Score.isLogProbability score = true := by
  have noError := (declarationError?_eq_none_iff.mp accepted).1 _ declared
  by_contra invalid
  simp [Declaration.binaryError?, invalid] at noError

theorem unaryValid_of_declarationError? {parent child : String} {score : σ}
    (accepted : declarationError? declarations = none)
    (declared : .unary parent child score ∈ declarations) :
    Score.isLogProbability score = true := by
  have noError := (declarationError?_eq_none_iff.mp accepted).2 _ declared
  by_contra invalid
  simp [Declaration.unaryError?, invalid] at noError

theorem binary_nonpos_of_declarationError? (accepted : declarationError? declarations = none)
    {labels : Vocabulary} :
    ∀ entry ∈ declarations.filterMap (Declaration.binaryEntry? labels), entry.2 ≤ 0 := by
  rintro ⟨⟨parent, left, right⟩, score⟩ entered
  rcases List.mem_filterMap.mp entered with ⟨declaration, declared, given⟩
  cases declaration with
  | label name => cases given
  | unary parent child score => cases given
  | binary parent left right score =>
      rcases Prod.mk.inj (Option.some.inj given) with ⟨-, rfl⟩
      exact Score.nonpos_of_isLogProbability
        (binaryValid_of_declarationError? accepted declared)

theorem unary_nonpos_of_declarationError? (accepted : declarationError? declarations = none)
    {labels : Vocabulary} :
    ∀ entry ∈ declarations.filterMap (Declaration.unaryEntry? labels), entry.2 ≤ 0 := by
  rintro ⟨⟨parent, child⟩, score⟩ entered
  rcases List.mem_filterMap.mp entered with ⟨declaration, declared, given⟩
  cases declaration with
  | label name => cases given
  | binary parent left right score => cases given
  | unary parent child score =>
      rcases Prod.mk.inj (Option.some.inj given) with ⟨-, rfl⟩
      exact Score.nonpos_of_isLogProbability
        (unaryValid_of_declarationError? accepted declared)

/-- A rule that has been declared is kept, at no worse a score. -/
theorem exists_binary_of_declaration [Score.Monotone σ]
    (accepted : declarationError? declarations = none) {parent left right : String}
    {score : σ} (declared : .binary parent left right score ∈ declarations) :
    ∃ rule ∈ (merge root declarations).binary,
      (merge root declarations).labels.name rule.parent = parent ∧
        (merge root declarations).labels.name rule.left = left ∧
        (merge root declarations).labels.name rule.right = right ∧ score ≤ rule.score := by
  obtain ⟨best, found, le⟩ := ScoreTable.exists_find?_ofList
    (binary_nonpos_of_declarationError? accepted)
    (List.mem_filterMap.mpr ⟨_, declared, rfl⟩)
  exact ⟨⟨_, _, _, best⟩, mem_binary_merge.mpr found,
    name_idxOf_declaredLabels declared (by simp [Declaration.mentions]),
    name_idxOf_declaredLabels declared (by simp [Declaration.mentions]),
    name_idxOf_declaredLabels declared (by simp [Declaration.mentions]), le⟩

theorem exists_unary_of_declaration [Score.Monotone σ]
    (accepted : declarationError? declarations = none) {parent child : String} {score : σ}
    (declared : .unary parent child score ∈ declarations) :
    ∃ rule ∈ (merge root declarations).unary,
      (merge root declarations).labels.name rule.parent = parent ∧
        (merge root declarations).labels.name rule.child = child ∧ score ≤ rule.score := by
  obtain ⟨best, found, le⟩ := ScoreTable.exists_find?_ofList
    (unary_nonpos_of_declarationError? accepted)
    (List.mem_filterMap.mpr ⟨_, declared, rfl⟩)
  exact ⟨⟨_, _, best⟩, mem_unary_merge.mpr found,
    name_idxOf_declaredLabels declared (by simp [Declaration.mentions]),
    name_idxOf_declaredLabels declared (by simp [Declaration.mentions]), le⟩

/-- The declarations of a grammar have no error and not too many rules, and the grammar merges
them. -/
theorem declare_eq_ok_iff {grammar : Grammar σ} :
    declare root declarations = .ok grammar ↔
      (declarationError? declarations = none ∧
        (merge root declarations).binary.length ≤ ruleLimit) ∧
      merge root declarations = grammar := by
  unfold declare
  cases declarationError? declarations with
  | some error => simp
  | none =>
      dsimp only
      split
      · rename_i tooMany
        simp [Nat.not_le.mpr tooMany]
      · rename_i fits
        simp [Nat.not_lt.mp fits]

/-- A declared grammar is well formed. -/
theorem wellFormed_of_isDeclared {grammar : Grammar σ} (declared : grammar.IsDeclared) :
    grammar.WellFormed := by
  rcases declared with ⟨root, declarations, accepted⟩
  rcases declare_eq_ok_iff.mp accepted with ⟨⟨noError, fits⟩, rfl⟩
  constructor
  case distinct => exact nodup_names_merge root declarations
  case rooted =>
    exact List.length_pos_of_mem
      (Vocabulary.mem_names_ofList.mpr (List.mem_cons_self (a := root)))
  case binaryKnown => exact fun rule member => binaryKnown_merge member
  case unaryKnown => exact fun rule member => unaryKnown_merge member
  case binaryValid =>
    intro rule member
    rcases exists_binary_declaration member with ⟨parent, left, right, given, -⟩
    exact binaryValid_of_declarationError? noError given
  case unaryValid =>
    intro rule member
    rcases exists_unary_declaration member with ⟨parent, child, given, -⟩
    exact unaryValid_of_declarationError? noError given
  case binaryScored => exact fun rule member => binaryScore?_merge member
  case unaryScored => exact fun rule member => unaryScore?_merge member
  case numbered => exact fits
  case indexed => rfl

/-- The sample grammar is declared. -/
theorem isDeclared_sample : Sample.Exact.grammar.IsDeclared :=
  ⟨"ROOT", Sample.Exact.declarations, declare_eq_ok_iff.mpr ⟨by decide +kernel, rfl⟩⟩

theorem project_sample :
    Sample.Exact.grammar.project Refinement.coarseLabel = .ok Sample.Exact.coarseGrammar :=
  declare_eq_ok_iff.mpr ⟨by decide +kernel, rfl⟩

end Grammar

end ChartParsing
