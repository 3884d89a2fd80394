import ChartParsing.Vocabulary

/-!
# Entries by label

What concerns a label is found without a search if the entries of a list are kept by label.
They are put there one after the other, each behind those that its label has already, so that
the entries of a label keep the order of the list.
-/

namespace ChartParsing

/-- For each of some labels in order, its entries. -/
abbrev LabelIndex (α : Type) :=
  Array (List α)

namespace LabelIndex

variable {α : Type}

/-- The first `count` labels, without entries. -/
def empty (count : Nat) : LabelIndex α :=
  Array.replicate count []

/-- The entries of a label. -/
@[inline]
def entries (index : LabelIndex α) (label : LabelId) : List α :=
  index.getD label []

/-- Put an entry behind those that a label has. -/
def insert (index : LabelIndex α) (label : LabelId) (entry : α) : LabelIndex α :=
  index.modify label (· ++ [entry])

/-- Put entries one after the other behind those that their labels have. -/
def insertAll (key : α → LabelId) (index : LabelIndex α) (entries : List α) : LabelIndex α :=
  entries.foldl (fun index entry => index.insert (key entry) entry) index

@[simp]
theorem size_empty (count : Nat) : (empty count : LabelIndex α).size = count :=
  Array.size_replicate

@[simp]
theorem size_insert (index : LabelIndex α) (label : LabelId) (entry : α) :
    (index.insert label entry).size = index.size :=
  Array.size_modify

@[simp]
theorem size_insertAll (key : α → LabelId) (index : LabelIndex α) (entries : List α) :
    (index.insertAll key entries).size = index.size := by
  unfold insertAll
  induction entries generalizing index with
  | nil => rfl
  | cons entry rest inductionHypothesis =>
      rw [List.foldl_cons, inductionHypothesis, size_insert]

@[simp]
theorem entries_empty (count : Nat) (label : LabelId) :
    (empty count : LabelIndex α).entries label = [] := by
  simp only [entries, empty, Array.getD_eq_getD_getElem?, Array.getElem?_replicate]
  split <;> rfl

/-- An entry is found at its own label only. -/
theorem entries_insert (index : LabelIndex α) (entry : α) {label : LabelId} (own : LabelId)
    (known : label < index.size) :
    (index.insert own entry).entries label =
      if own = label then index.entries label ++ [entry] else index.entries label := by
  simp only [entries, insert, Array.getD_eq_getD_getElem?, Array.getElem?_modify]
  split <;> simp [known]

/-- Behind the entries that a label had come those of the list whose key it is, in the order of
the list. -/
theorem entries_insertAll (key : α → LabelId) (index : LabelIndex α) (entries : List α)
    {label : LabelId} (known : label < index.size) :
    (index.insertAll key entries).entries label =
      index.entries label ++ entries.filter fun entry => key entry == label := by
  induction entries generalizing index with
  | nil => exact (List.append_nil _).symm
  | cons entry rest inductionHypothesis =>
      have stillKnown : label < (index.insert (key entry) entry).size := by
        rw [size_insert]
        exact known
      change ((index.insert (key entry) entry).insertAll key rest).entries label = _
      rw [inductionHypothesis _ stillKnown, entries_insert index entry _ known]
      by_cases own : key entry = label
      · simp [own]
      · simp [own]

/-- Beyond the labels of an index nothing is found. -/
theorem entries_of_size_le {index : LabelIndex α} {label : LabelId}
    (unknown : index.size ≤ label) : index.entries label = [] := by
  simp [entries, Array.getElem?_eq_none unknown]

end LabelIndex

end ChartParsing
