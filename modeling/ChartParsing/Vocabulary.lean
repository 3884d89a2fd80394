/-!
# Vocabularies

A vocabulary numbers labels in the order in which they are first mentioned.
Numbers start at zero and leave no gaps, so a label is as good as its position in
the list of names.
-/

namespace ChartParsing

/-- The number of a label in a vocabulary. -/
abbrev LabelId :=
  Nat

/-- Labels in the order of their first mention. -/
structure Vocabulary where
  names : List String
  deriving DecidableEq, Repr

namespace Vocabulary

/-- The vocabulary without labels. -/
def empty : Vocabulary :=
  ⟨[]⟩

/-- How many labels there are. -/
def size (labels : Vocabulary) : Nat :=
  labels.names.length

/-- The numbers of all labels, in order. -/
def ids (labels : Vocabulary) : List LabelId :=
  List.range labels.size

/-- The number of a label. -/
def id? (labels : Vocabulary) (name : String) : Option LabelId :=
  labels.names.idxOf? name

/-- The label with a number. -/
def name? (labels : Vocabulary) (id : LabelId) : Option String :=
  labels.names[id]?

/-- The label with a number, or no text if there is none. -/
def name (labels : Vocabulary) (id : LabelId) : String :=
  labels.names.getD id ""

/-- Add a label behind all others unless it is there. -/
def add (labels : Vocabulary) (name : String) : Vocabulary :=
  if name ∈ labels.names then labels else ⟨labels.names ++ [name]⟩

/-- The number of a label, which is added if it is new, and the vocabulary that
has it. -/
def intern (labels : Vocabulary) (name : String) : LabelId × Vocabulary :=
  (labels.names.idxOf name, labels.add name)

/-- The vocabulary of a list of mentions. -/
def ofList (mentions : List String) : Vocabulary :=
  mentions.foldl add empty

theorem mem_names_add {labels : Vocabulary} {name other : String} :
    other ∈ (labels.add name).names ↔ other ∈ labels.names ∨ other = name := by
  unfold add
  split
  · constructor
    · exact Or.inl
    · rintro (member | rfl) <;> assumption
  · simp

/-- Adding a label repeats none. -/
theorem nodup_names_add {labels : Vocabulary} (distinct : labels.names.Nodup)
    (name : String) : (labels.add name).names.Nodup := by
  unfold add
  split
  · exact distinct
  · rename_i absent
    exact List.nodup_append.mpr
      ⟨distinct, List.nodup_cons.mpr ⟨List.not_mem_nil, List.nodup_nil⟩,
        fun a member b single same => by
          rw [List.mem_singleton] at single
          exact absent (single ▸ same ▸ member)⟩

/-- Every label mentioned has a number, and no other has. -/
theorem mem_names_ofList {mentions : List String} {name : String} :
    name ∈ (ofList mentions).names ↔ name ∈ mentions := by
  suffices ∀ labels : Vocabulary,
      name ∈ (mentions.foldl add labels).names ↔
        name ∈ labels.names ∨ name ∈ mentions by
    simpa [ofList, empty] using this empty
  induction mentions with
  | nil => simp
  | cons first rest inductionHypothesis =>
      intro labels
      rw [List.foldl_cons, inductionHypothesis, mem_names_add, List.mem_cons,
        or_assoc]

/-- The vocabulary of a list of mentions repeats no label. -/
theorem nodup_names_ofList (mentions : List String) :
    (ofList mentions).names.Nodup := by
  suffices ∀ labels : Vocabulary, labels.names.Nodup →
      (mentions.foldl add labels).names.Nodup from
    this empty List.nodup_nil
  induction mentions with
  | nil => exact fun _ distinct => distinct
  | cons first rest inductionHypothesis =>
      exact fun labels distinct =>
        inductionHypothesis (labels.add first) (nodup_names_add distinct first)

end Vocabulary

end ChartParsing
