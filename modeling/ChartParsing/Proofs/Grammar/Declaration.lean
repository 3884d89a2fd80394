import Mathlib.Data.List.ProdSigma
import ChartParsing.Proofs.Grammar.Projection
import ChartParsing.Proofs.Score.ExactLaws

/-!
# What a list of declarations becomes

Declarations are refused for the first rule whose score is no log-probability, where all binary
rules come before all unary ones, and else for their number if there are more different binary
rules than a chart can refer to (`Grammar.declare_eq_error_iff`).  Otherwise they are merged:
the grammar lists every label and every rule once, in the order of first mention, each rule at
the greatest of its scores, and everything else that it keeps agrees with these lists
(`Grammar.IsMergeOf`).
-/

namespace ChartParsing

/-- The labels of a rule, by name. -/
structure RuleNames where
  parent : String
  children : List String
  deriving DecidableEq

/-- A rule as it has been declared: its labels by name, and its score. -/
structure DeclaredRule (σ : Type) where
  names : RuleNames
  score : σ

namespace DeclaredRule

variable {σ : Type} [Score σ]

/-- A score that is no number, or a number above zero. -/
def IsRefused (rule : DeclaredRule σ) : Prop :=
  Score.isFinite rule.score = false ∨ 0 < rule.score

/-- What is said of a rule that is refused. -/
def error (rule : DeclaredRule σ) : ModelError σ :=
  .invalidScore rule.names.parent rule.names.children rule.score

/-- What is wrong with a rule. -/
def error? (rule : DeclaredRule σ) : Option (ModelError σ) :=
  if Score.isLogProbability rule.score then none else some rule.error

theorem error?_eq_none_iff [Score.Signed σ] {rule : DeclaredRule σ} :
    rule.error? = none ↔ ¬rule.IsRefused := by
  rw [IsRefused, ← Score.isLogProbability_eq_false_iff, error?]
  cases Score.isLogProbability rule.score <;> simp

theorem error?_eq_some_iff [Score.Signed σ] {rule : DeclaredRule σ} {error : ModelError σ} :
    rule.error? = some error ↔ rule.IsRefused ∧ rule.error = error := by
  rw [IsRefused, ← Score.isLogProbability_eq_false_iff, error?]
  cases Score.isLogProbability rule.score <;> simp

end DeclaredRule

namespace Declaration

variable {σ : Type}

/-- The binary rule that a declaration gives, by name. -/
def binaryRule? : Declaration σ → Option (DeclaredRule σ)
  | .binary parent left right score => some ⟨⟨parent, [left, right]⟩, score⟩
  | _ => none

/-- The unary rule that a declaration gives, by name. -/
def unaryRule? : Declaration σ → Option (DeclaredRule σ)
  | .unary parent child score => some ⟨⟨parent, [child]⟩, score⟩
  | _ => none

/-- The rules that are declared, in the order in which their scores are looked at. -/
def rulesInTurn (declarations : List (Declaration σ)) : List (DeclaredRule σ) :=
  declarations.filterMap binaryRule? ++ declarations.filterMap unaryRule?

/-- The different binary rules that are declared, in the order of first mention. -/
def binaryNames (declarations : List (Declaration σ)) : List RuleNames :=
  ((declarations.filterMap binaryRule?).map DeclaredRule.names).eraseDups

/-- The different unary rules that are declared, in the order of first mention. -/
def unaryNames (declarations : List (Declaration σ)) : List RuleNames :=
  ((declarations.filterMap unaryRule?).map DeclaredRule.names).eraseDups

end Declaration

namespace Grammar

variable {σ : Type} [Score σ] {grammar : Grammar σ} {root : String}
  {declarations : List (Declaration σ)}

/-! ## Merging -/

/-- The labels of a binary rule, by name. -/
def binaryNames (grammar : Grammar σ) (rule : BinaryRule σ) : RuleNames :=
  ⟨grammar.labels.name rule.parent,
    [grammar.labels.name rule.left, grammar.labels.name rule.right]⟩

/-- The labels of a unary rule, by name. -/
def unaryNames (grammar : Grammar σ) (rule : UnaryRule σ) : RuleNames :=
  ⟨grammar.labels.name rule.parent, [grammar.labels.name rule.child]⟩

/-- The labels of a key in the table of binary rules, by name. -/
def binaryKeyNames (grammar : Grammar σ) (key : LabelId × LabelId × LabelId) : RuleNames :=
  ⟨grammar.labels.name key.1, [grammar.labels.name key.2.1, grammar.labels.name key.2.2]⟩

/-- The labels of a key in the table of unary rules, by name. -/
def unaryKeyNames (grammar : Grammar σ) (key : LabelId × LabelId) : RuleNames :=
  ⟨grammar.labels.name key.1, [grammar.labels.name key.2]⟩

/-- No two keys in the table of merged binary rules stand for one name. -/
theorem binaryKeyNames_inj (root : String) (declarations : List (Declaration σ)) :
    ∀ key ∈ (merge root declarations).binaryScores.keys,
      ∀ other ∈ (merge root declarations).binaryScores.keys,
        (merge root declarations).binaryKeyNames key =
          (merge root declarations).binaryKeyNames other → key = other := by
  intro key member other otherMember same
  have distinct := nodup_names_merge root declarations
  obtain ⟨parent, left, right⟩ :=
    known_of_mem_keys_binaryScores (fun _ => binaryKnown_merge) member
  obtain ⟨otherParent, otherLeft, otherRight⟩ :=
    known_of_mem_keys_binaryScores (fun _ => binaryKnown_merge) otherMember
  simp only [binaryKeyNames, RuleNames.mk.injEq, List.cons.injEq, and_true] at same
  exact Prod.ext (Vocabulary.name_injective distinct parent otherParent same.1)
    (Prod.ext (Vocabulary.name_injective distinct left otherLeft same.2.1)
      (Vocabulary.name_injective distinct right otherRight same.2.2))

/-- No two keys in the table of merged unary rules stand for one name. -/
theorem unaryKeyNames_inj (root : String) (declarations : List (Declaration σ)) :
    ∀ key ∈ (merge root declarations).unaryScores.keys,
      ∀ other ∈ (merge root declarations).unaryScores.keys,
        (merge root declarations).unaryKeyNames key =
          (merge root declarations).unaryKeyNames other → key = other := by
  intro key member other otherMember same
  have distinct := nodup_names_merge root declarations
  obtain ⟨parent, child⟩ := known_of_mem_keys_unaryScores (fun _ => unaryKnown_merge) member
  obtain ⟨otherParent, otherChild⟩ :=
    known_of_mem_keys_unaryScores (fun _ => unaryKnown_merge) otherMember
  simp only [unaryKeyNames, RuleNames.mk.injEq, List.cons.injEq, and_true] at same
  exact Prod.ext (Vocabulary.name_injective distinct parent otherParent same.1)
    (Vocabulary.name_injective distinct child otherChild same.2)

/-- In numbers and back, a declared binary rule has the labels that it was declared with. -/
theorem map_binaryKeyNames_binaryEntry? (root : String) (declarations : List (Declaration σ)) :
    ((declarations.filterMap
        (Declaration.binaryEntry? (declaredLabels root declarations))).map fun entry =>
          (merge root declarations).binaryKeyNames entry.1) =
      (declarations.filterMap Declaration.binaryRule?).map DeclaredRule.names := by
  rw [List.map_filterMap, List.map_filterMap]
  refine List.filterMap_congr fun declaration declared => ?_
  cases declaration with
  | label name => rfl
  | unary parent child score => rfl
  | binary parent left right score =>
      have restored {name : String} (mentioned : name ∈ [parent, left, right]) :
          (merge root declarations).labels.name
            ((declaredLabels root declarations).names.idxOf name) = name :=
        name_idxOf_declaredLabels declared mentioned
      simp [Declaration.binaryEntry?, Declaration.binaryRule?, binaryKeyNames, restored]

/-- In numbers and back, a declared unary rule has the labels that it was declared with. -/
theorem map_unaryKeyNames_unaryEntry? (root : String) (declarations : List (Declaration σ)) :
    ((declarations.filterMap
        (Declaration.unaryEntry? (declaredLabels root declarations))).map fun entry =>
          (merge root declarations).unaryKeyNames entry.1) =
      (declarations.filterMap Declaration.unaryRule?).map DeclaredRule.names := by
  rw [List.map_filterMap, List.map_filterMap]
  refine List.filterMap_congr fun declaration declared => ?_
  cases declaration with
  | label name => rfl
  | binary parent left right score => rfl
  | unary parent child score =>
      have restored {name : String} (mentioned : name ∈ [parent, child]) :
          (merge root declarations).labels.name
            ((declaredLabels root declarations).names.idxOf name) = name :=
        name_idxOf_declaredLabels declared mentioned
      simp [Declaration.unaryEntry?, Declaration.unaryRule?, unaryKeyNames, restored]

/-- Binary rules are merged in the order of first mention. -/
theorem map_binaryNames_merge (root : String) (declarations : List (Declaration σ)) :
    (merge root declarations).binary.map (merge root declarations).binaryNames =
      Declaration.binaryNames declarations := by
  have apart := binaryKeyNames_inj root declarations
  calc
    (merge root declarations).binary.map (merge root declarations).binaryNames
    _ = (merge root declarations).binaryScores.keys.map
          (merge root declarations).binaryKeyNames := by
      rw [ScoreTable.keys, binaryScores, List.map_map, List.map_map]
      rfl
    _ = Declaration.binaryNames declarations := by
      rw [binaryScores_merge, binaryTable] at apart ⊢
      rw [ScoreTable.map_keys_ofList apart, map_binaryKeyNames_binaryEntry?,
        Declaration.binaryNames]

/-- Unary rules are merged in the order of first mention. -/
theorem map_unaryNames_merge (root : String) (declarations : List (Declaration σ)) :
    (merge root declarations).unary.map (merge root declarations).unaryNames =
      Declaration.unaryNames declarations := by
  have apart := unaryKeyNames_inj root declarations
  calc
    (merge root declarations).unary.map (merge root declarations).unaryNames
    _ = (merge root declarations).unaryScores.keys.map
          (merge root declarations).unaryKeyNames := by
      rw [ScoreTable.keys, unaryScores, List.map_map, List.map_map]
      rfl
    _ = Declaration.unaryNames declarations := by
      rw [unaryScores_merge, unaryTable] at apart ⊢
      rw [ScoreTable.map_keys_ofList apart, map_unaryKeyNames_unaryEntry?,
        Declaration.unaryNames]

theorem length_binary_merge (root : String) (declarations : List (Declaration σ)) :
    (merge root declarations).binary.length = (Declaration.binaryNames declarations).length := by
  rw [← map_binaryNames_merge root declarations, List.length_map]

/-! ## Refusal -/

/-- Looking for the first rule with a bad score is going through all rules in turn. -/
theorem declarationError?_eq_findSome? (declarations : List (Declaration σ)) :
    declarationError? declarations =
      (Declaration.rulesInTurn declarations).findSome? DeclaredRule.error? := by
  have binary : (fun declaration : Declaration σ =>
      declaration.binaryRule?.bind DeclaredRule.error?) = Declaration.binaryError? := by
    funext declaration
    cases declaration <;> rfl
  have unary : (fun declaration : Declaration σ =>
      declaration.unaryRule?.bind DeclaredRule.error?) = Declaration.unaryError? := by
    funext declaration
    cases declaration <;> rfl
  rw [Declaration.rulesInTurn, ← List.head?_filterMap, List.filterMap_append,
    List.filterMap_filterMap, List.filterMap_filterMap, binary, unary, List.head?_append,
    List.head?_filterMap, List.head?_filterMap]
  simp only [declarationError?, Option.orElse_eq_orElse, Option.orElse_eq_or]

/-- Nothing is wrong with declarations of which no rule is refused. -/
theorem declarationError?_eq_none_iff_isRefused [Score.Signed σ] :
    declarationError? declarations = none ↔
      ∀ rule ∈ Declaration.rulesInTurn declarations, ¬rule.IsRefused := by
  rw [declarationError?_eq_findSome?, List.findSome?_eq_none_iff]
  simp only [DeclaredRule.error?_eq_none_iff]

/-- What is wrong with declarations is what is wrong with the first rule that is refused. -/
theorem declarationError?_eq_some_iff [Score.Signed σ] {error : ModelError σ} :
    declarationError? declarations = some error ↔
      ∃ earlier rule later,
        Declaration.rulesInTurn declarations = earlier ++ rule :: later ∧
        (∀ before ∈ earlier, ¬before.IsRefused) ∧ rule.IsRefused ∧ rule.error = error := by
  rw [declarationError?_eq_findSome?, List.findSome?_eq_some_iff]
  simp only [DeclaredRule.error?_eq_some_iff, DeclaredRule.error?_eq_none_iff]
  constructor
  · rintro ⟨earlier, rule, later, turn, ⟨refused, named⟩, accepted⟩
    exact ⟨earlier, rule, later, turn, accepted, refused, named⟩
  · rintro ⟨earlier, rule, later, turn, accepted, refused, named⟩
    exact ⟨earlier, rule, later, turn, ⟨refused, named⟩, accepted⟩

theorem declare_eq_error_iff_declarationError? {error : ModelError σ} :
    declare root declarations = .error error ↔
      declarationError? declarations = some error ∨
        declarationError? declarations = none ∧
          ruleLimit < (Declaration.binaryNames declarations).length ∧
          .tooManyRules (Declaration.binaryNames declarations).length = error := by
  rw [← length_binary_merge root]
  unfold declare
  cases declarationError? declarations with
  | some found => simp
  | none =>
      dsimp only
      split
      · rename_i tooMany
        simp [tooMany]
      · rename_i fits
        simp [fits]

/-- Declarations are refused for the first of their rules in turn whose score is no number or
above zero, and without such a rule for the number of their binary rules, if it is too great. -/
theorem declare_eq_error_iff [Score.Signed σ] {error : ModelError σ} :
    declare root declarations = .error error ↔
      (∃ earlier rule later,
        Declaration.rulesInTurn declarations = earlier ++ rule :: later ∧
        (∀ before ∈ earlier, ¬before.IsRefused) ∧ rule.IsRefused ∧ rule.error = error) ∨
      (∀ rule ∈ Declaration.rulesInTurn declarations, ¬rule.IsRefused) ∧
        ruleLimit < (Declaration.binaryNames declarations).length ∧
        .tooManyRules (Declaration.binaryNames declarations).length = error := by
  rw [declare_eq_error_iff_declarationError?, declarationError?_eq_some_iff,
    declarationError?_eq_none_iff_isRefused]

/-- Declarations are refused if there is any rule to refuse or there are too many. -/
theorem exists_declare_eq_error_iff [Score.Signed σ] :
    (∃ error, declare root declarations = .error error) ↔
      (∃ rule ∈ Declaration.rulesInTurn declarations, rule.IsRefused) ∨
        ruleLimit < (Declaration.binaryNames declarations).length := by
  have refused : (∃ error, declarationError? declarations = some error) ↔
      ∃ rule ∈ Declaration.rulesInTurn declarations, rule.IsRefused := by
    rw [← Option.isSome_iff_exists, ← Option.ne_none_iff_isSome, ne_eq,
      declarationError?_eq_none_iff_isRefused]
    simp
  simp only [declare_eq_error_iff_declarationError?, exists_or, refused, exists_and_left,
    exists_eq', and_true, declarationError?_eq_none_iff_isRefused]
  constructor
  · exact Or.imp_right And.right
  · intro reason
    by_cases any : ∃ rule ∈ Declaration.rulesInTurn declarations, rule.IsRefused
    · exact Or.inl any
    · refine Or.inr ⟨fun rule member isRefused => any ⟨rule, member, isRefused⟩, ?_⟩
      exact reason.resolve_left any

/-! ## The merged grammar -/

/-- The scores that are declared for a binary rule. -/
def declaredBinaryScores (grammar : Grammar σ) (declarations : List (Declaration σ))
    (rule : BinaryRule σ) : Set σ :=
  {score | .binary (grammar.labels.name rule.parent) (grammar.labels.name rule.left)
    (grammar.labels.name rule.right) score ∈ declarations}

/-- The scores that are declared for a unary rule. -/
def declaredUnaryScores (grammar : Grammar σ) (declarations : List (Declaration σ))
    (rule : UnaryRule σ) : Set σ :=
  {score | .unary (grammar.labels.name rule.parent) (grammar.labels.name rule.child) score ∈
    declarations}

section

variable [Score.Monotone σ] (declared : declare root declarations = .ok grammar)

include declared

/-- A binary rule keeps the greatest of its scores. -/
theorem isGreatest_declaredBinaryScores {rule : BinaryRule σ} (member : rule ∈ grammar.binary) :
    IsGreatest (grammar.declaredBinaryScores declarations rule) rule.score := by
  have wellFormed : grammar.WellFormed := wellFormed_of_isDeclared ⟨_, _, declared⟩
  rcases declare_eq_ok_iff.mp declared with ⟨⟨accepted, -⟩, rfl⟩
  constructor
  · obtain ⟨_, _, _, given, rfl, rfl, rfl⟩ := exists_named_binary_declaration member
    exact given
  · intro score given
    obtain ⟨kept, listed, parent, left, right, le⟩ := exists_binary_of_declaration accepted given
    rw [wellFormed.binary_score_eq member listed parent.symm left.symm right.symm]
    exact le

/-- A unary rule keeps the greatest of its scores. -/
theorem isGreatest_declaredUnaryScores {rule : UnaryRule σ} (member : rule ∈ grammar.unary) :
    IsGreatest (grammar.declaredUnaryScores declarations rule) rule.score := by
  have wellFormed : grammar.WellFormed := wellFormed_of_isDeclared ⟨_, _, declared⟩
  rcases declare_eq_ok_iff.mp declared with ⟨⟨accepted, -⟩, rfl⟩
  constructor
  · obtain ⟨_, _, given, rfl, rfl⟩ := exists_named_unary_declaration member
    exact given
  · intro score given
    obtain ⟨kept, listed, parent, child, le⟩ := exists_unary_of_declaration accepted given
    rw [wellFormed.unary_score_eq member listed parent.symm child.symm]
    exact le

end

/-- A grammar merges what has been declared.  It lists the labels, and numbers them by their
places in the list; it lists the rules, each at the greatest of its scores; and its selections
and the scores that it answers with are those of the listed rules. -/
structure IsMergeOf (grammar : Grammar σ) (root : String)
    (declarations : List (Declaration σ)) : Prop where
  names : grammar.labels.names =
    (root :: declarations.flatMap Declaration.mentions).eraseDups
  numbered : ∀ name id,
    grammar.labels.id? name = some id ↔ grammar.labels.names[id]? = some name
  rooted : grammar.root = 0 ∧ grammar.labels.id? root = some 0
  binaryKnown : ∀ rule ∈ grammar.binary, rule.parent < grammar.labels.size ∧
    rule.left < grammar.labels.size ∧ rule.right < grammar.labels.size
  unaryKnown : ∀ rule ∈ grammar.unary, rule.parent < grammar.labels.size ∧
    rule.child < grammar.labels.size
  binary : grammar.binary.map grammar.binaryNames = Declaration.binaryNames declarations
  unary : grammar.unary.map grammar.unaryNames = Declaration.unaryNames declarations
  binaryBest : ∀ rule ∈ grammar.binary,
    IsGreatest (grammar.declaredBinaryScores declarations rule) rule.score
  unaryBest : ∀ rule ∈ grammar.unary,
    IsGreatest (grammar.declaredUnaryScores declarations rule) rule.score
  byParent : ∀ label < grammar.labels.size,
    grammar.byParent.rules label = grammar.binary.filter (·.parent == label)
  byLeft : ∀ label < grammar.labels.size,
    grammar.byLeft.rules label = grammar.binary.filter (·.left == label)
  byRight : ∀ label < grammar.labels.size,
    grammar.byRight.rules label = grammar.binary.filter (·.right == label)
  binaryScore : ∀ parent left right score,
    grammar.binaryScore? parent left right = some score ↔
      ⟨parent, left, right, score⟩ ∈ grammar.binary
  unaryScore : ∀ parent child score,
    grammar.unaryScore? parent child = some score ↔ ⟨parent, child, score⟩ ∈ grammar.unary

/-- A declared grammar merges its declarations. -/
theorem isMergeOf_of_declare_eq_ok [Score.Monotone σ]
    (declared : declare root declarations = .ok grammar) :
    grammar.IsMergeOf root declarations := by
  have wellFormed : grammar.WellFormed := wellFormed_of_isDeclared ⟨_, _, declared⟩
  have merged := (declare_eq_ok_iff.mp declared).2
  constructor
  case names =>
    rw [← merged]
    exact Vocabulary.names_ofList _
  case numbered =>
    intro name id
    rw [Vocabulary.id?_eq_some_iff wellFormed.distinct, List.getElem?_eq_some_iff]
    constructor
    · rintro ⟨known, named⟩
      exact ⟨known, Vocabulary.name_eq_getElem known ▸ named⟩
    · rintro ⟨known, named⟩
      exact ⟨known, (Vocabulary.name_eq_getElem known).trans named⟩
  case rooted =>
    refine ⟨rfl, (Vocabulary.id?_eq_some_iff wellFormed.distinct).mpr ⟨wellFormed.rooted, ?_⟩⟩
    rw [← merged]
    exact Vocabulary.name_ofList_zero root _
  case binaryKnown => exact wellFormed.binaryKnown
  case unaryKnown => exact wellFormed.unaryKnown
  case binary => exact merged ▸ map_binaryNames_merge root declarations
  case unary => exact merged ▸ map_unaryNames_merge root declarations
  case binaryBest => exact fun rule member => isGreatest_declaredBinaryScores declared member
  case unaryBest => exact fun rule member => isGreatest_declaredUnaryScores declared member
  case byParent =>
    intro label known
    rw [wellFormed.indexed]
    exact RuleIndex.rules_select BinaryRule.parent grammar.binary known
  case byLeft =>
    intro label known
    rw [wellFormed.indexed]
    exact RuleIndex.rules_select BinaryRule.left grammar.binary known
  case byRight =>
    intro label known
    rw [wellFormed.indexed]
    exact RuleIndex.rules_select BinaryRule.right grammar.binary known
  case binaryScore =>
    intro parent left right score
    exact ⟨exists_of_binaryScore?, fun member => wellFormed.binaryScored _ member⟩
  case unaryScore =>
    intro parent child score
    exact ⟨exists_of_unaryScore?, fun member => wellFormed.unaryScored _ member⟩

/-- Declarations are refused exactly if some rule has a score that is no number or above zero or
there are more different binary rules than a chart can refer to.  What is named is the first
rule with such a score, binary rules before unary ones, and without one how many binary rules
there are.  Otherwise the grammar merges the declarations. -/
theorem declare_refuses_or_merges [Score.Monotone σ] [Score.Signed σ] (root : String)
    (declarations : List (Declaration σ)) :
    ((∃ error, declare root declarations = .error error) ↔
      (∃ rule ∈ Declaration.rulesInTurn declarations, rule.IsRefused) ∨
        ruleLimit < (Declaration.binaryNames declarations).length) ∧
    (∀ error, declare root declarations = .error error ↔
      (∃ earlier rule later,
        Declaration.rulesInTurn declarations = earlier ++ rule :: later ∧
        (∀ before ∈ earlier, ¬before.IsRefused) ∧ rule.IsRefused ∧ rule.error = error) ∨
      (∀ rule ∈ Declaration.rulesInTurn declarations, ¬rule.IsRefused) ∧
        ruleLimit < (Declaration.binaryNames declarations).length ∧
        .tooManyRules (Declaration.binaryNames declarations).length = error) ∧
    ∀ grammar, declare root declarations = .ok grammar →
      grammar.IsMergeOf root declarations :=
  ⟨exists_declare_eq_error_iff, fun _ => declare_eq_error_iff,
    fun _ => isMergeOf_of_declare_eq_ok⟩

/-- Declarations that repeat a rule, whose best score comes last. -/
def repeatedDeclarations : List (Declaration ExactScore) :=
  [.binary "ROOT" "A" "B" (.finite (mkRat (-3) 1)),
    .binary "ROOT" "A" "A" (.finite (mkRat (-1) 1)),
    .unary "A" "B" (.finite (mkRat (-2) 1)),
    .binary "ROOT" "A" "B" (.finite (mkRat (-1) 2)),
    .unary "A" "B" (.finite (mkRat (-4) 1))]

/-- Declarations of a unary rule whose score is no number and then of a binary rule whose score
is above zero. -/
def refusedDeclarations : List (Declaration ExactScore) :=
  [.unary "ROOT" "A" .undefined, .binary "ROOT" "A" "A" (.finite (mkRat 1 1))]

/-- A repeated rule keeps its place and gets its best score; of two rules to refuse, the binary
one is named. -/
theorem declare_refuses_or_merges_repeatedDeclarations :
    (∃ grammar, declare "ROOT" repeatedDeclarations = .ok grammar ∧
      grammar.IsMergeOf "ROOT" repeatedDeclarations ∧
      grammar.binary.map BinaryRule.score = [.finite (mkRat (-1) 2), .finite (mkRat (-1) 1)]) ∧
    declare "ROOT" refusedDeclarations =
      .error (.invalidScore "ROOT" ["A", "A"] (.finite (mkRat 1 1))) := by
  constructor
  · refine ⟨merge "ROOT" repeatedDeclarations, by rfl, ?_, by decide +kernel⟩
    exact (declare_refuses_or_merges "ROOT" repeatedDeclarations).2.2 _ (by rfl)
  · refine ((declare_refuses_or_merges "ROOT" refusedDeclarations).2.1 _).mpr
      (Or.inl ⟨[], ⟨⟨"ROOT", ["A", "A"]⟩, .finite (mkRat 1 1)⟩,
        [⟨⟨"ROOT", ["A"]⟩, .undefined⟩], rfl, by simp, Or.inr ?_, rfl⟩)
    decide +kernel

/-! ## Declarations of too many rules -/

/-- The root expands into any two of a number of labels. -/
def pairDeclarations (count : Nat) : List (Declaration ExactScore) :=
  (List.range count ×ˢ List.range count).map fun pair =>
    .binary "ROOT" (Sample.strokes pair.1) (Sample.strokes pair.2) 0

theorem rulesInTurn_pairDeclarations (count : Nat) :
    Declaration.rulesInTurn (pairDeclarations count) =
      (List.range count ×ˢ List.range count).map fun pair =>
        ⟨⟨"ROOT", [Sample.strokes pair.1, Sample.strokes pair.2]⟩, 0⟩ := by
  simp [Declaration.rulesInTurn, pairDeclarations, List.filterMap_map, Function.comp_def,
    Declaration.binaryRule?, Declaration.unaryRule?]

/-- There are as many different rules as pairs of labels. -/
theorem length_binaryNames_pairDeclarations (count : Nat) :
    (Declaration.binaryNames (pairDeclarations count)).length = count * count := by
  have names : ((pairDeclarations count).filterMap Declaration.binaryRule?).map
      DeclaredRule.names =
        (List.range count ×ˢ List.range count).map fun pair =>
          ⟨"ROOT", [Sample.strokes pair.1, Sample.strokes pair.2]⟩ := by
    simp [pairDeclarations, List.filterMap_map, Function.comp_def, Declaration.binaryRule?]
  have distinct : ((List.range count ×ˢ List.range count).map fun pair =>
      (⟨"ROOT", [Sample.strokes pair.1, Sample.strokes pair.2]⟩ : RuleNames)).Nodup := by
    refine (List.nodup_range.product List.nodup_range).map ?_
    intro first second same
    simp only [RuleNames.mk.injEq, List.cons.injEq, and_true, true_and] at same
    exact Prod.ext (Sample.strokes_inj same.1) (Sample.strokes_inj same.2)
  rw [Declaration.binaryNames, names, eraseDups_of_nodup distinct, List.length_map,
    List.length_product, List.length_range]

/-- All pairs of 65536 labels are refused, although no rule has a bad score. -/
theorem declare_pairDeclarations :
    (∀ rule ∈ Declaration.rulesInTurn (pairDeclarations 65536), ¬rule.IsRefused) ∧
    declare "ROOT" (pairDeclarations 65536) = .error (.tooManyRules 4294967296) := by
  have accepted : ∀ rule ∈ Declaration.rulesInTurn (pairDeclarations 65536),
      ¬rule.IsRefused := by
    rw [rulesInTurn_pairDeclarations]
    intro rule member
    rcases List.mem_map.mp member with ⟨pair, -, rfl⟩
    rw [← DeclaredRule.error?_eq_none_iff]
    rfl
  have count : (Declaration.binaryNames (pairDeclarations 65536)).length = 4294967296 :=
    length_binaryNames_pairDeclarations 65536
  refine ⟨accepted, declare_eq_error_iff.mpr (Or.inr ⟨accepted, ?_, ?_⟩)⟩
  · rw [count]
    decide
  · rw [count]

end Grammar

end ChartParsing
