import ChartParsing.Refinement.Label
import Mathlib.Data.List.TakeWhile

/-!
# Where annotated labels are cut

An annotated label is the label it refines followed by marks.  Cutting it down to its
base or its coarse label stops at the first mark, and dropping the oldest sibling from
a history leaves alone what stands before the first `_`, such as a whole intermediate
header.
-/

namespace ChartParsing.Refinement

/-! ## Characters -/

/-- What follows a character that stops is never taken. -/
theorem takeWhile_append_of_head {keeps : Char → Bool} (chars : List Char)
    {more : List Char} (stops : ∀ c ∈ more.head?, keeps c = false) :
    (chars ++ more).takeWhile keeps = chars.takeWhile keeps := by
  induction chars with
  | nil =>
      cases more with
      | nil => rfl
      | cons c rest => simp [stops c rfl]
  | cons c rest inductionHypothesis =>
      rw [List.cons_append, List.takeWhile_cons, List.takeWhile_cons, inductionHypothesis]

theorem bne_of_notMem {stop : Char} {chars : List Char} (absent : stop ∉ chars) :
    ∀ c ∈ chars, (c != stop) = true := by
  rintro c member
  exact bne_iff_ne.mpr (by rintro rfl; exact absent member)

/-- The characters of marks: each part that is not empty after `mark`. -/
def markChars (mark : Char) : List String → List Char
  | [] => []
  | part :: rest =>
      if part = "" then markChars mark rest
      else mark :: part.toList ++ markChars mark rest

theorem withMarks_eq (mark : Char) (label : String) (parts : List String) :
    withMarks mark label parts = label ++ String.ofList (markChars mark parts) := by
  apply String.toList_injective
  induction parts generalizing label with
  | nil => simp [withMarks, markChars]
  | cons part rest inductionHypothesis =>
      have step : withMarks mark label (part :: rest) =
          withMarks mark (if part.isEmpty then label else label.push mark ++ part) rest :=
        rfl
      rw [step, inductionHypothesis]
      by_cases empty : part = "" <;> simp [markChars, empty]

theorem mem_markChars {mark c : Char} {parts : List String}
    (member : c ∈ markChars mark parts) : c = mark ∨ ∃ part ∈ parts, c ∈ part.toList := by
  induction parts with
  | nil => contradiction
  | cons part rest inductionHypothesis =>
      by_cases empty : part = ""
      · rw [markChars, if_pos empty] at member
        rcases inductionHypothesis member with same | ⟨other, known, inside⟩
        · exact .inl same
        · exact .inr ⟨other, List.mem_cons_of_mem part known, inside⟩
      · rw [markChars, if_neg empty, List.cons_append, List.mem_cons, List.mem_append]
          at member
        rcases member with same | inside | later
        · exact .inl same
        · exact .inr ⟨part, List.mem_cons_self, inside⟩
        · rcases inductionHypothesis later with same | ⟨other, known, inside⟩
          · exact .inl same
          · exact .inr ⟨other, List.mem_cons_of_mem part known, inside⟩

/-! ## Bases -/

/-- Marks that start with a cut are cut off, unless the label starts with the same
character. -/
theorem baseChars_append {label marks : List Char} (nonempty : label ≠ [])
    (cuts : ∀ c ∈ marks.head?, isCut c = true ∧ label.head? ≠ some c) :
    baseChars (label ++ marks) = baseChars label := by
  obtain ⟨first, rest, rfl⟩ := List.exists_cons_of_ne_nil nonempty
  rw [List.cons_append, baseChars, baseChars, takeWhile_append_of_head]
  intro c head
  rcases cuts c head with ⟨cut, different⟩
  have apart : c ≠ first := fun same => different (by rw [same]; rfl)
  simp [cut, apart]

/-! ## Coarse labels -/

theorem coarseChars_arrow {before : List Char} (absent : '>' ∉ before)
    (after : List Char) : coarseChars (before ++ '>' :: after) = before ++ ['>'] := by
  rw [coarseChars, if_pos (by simp), takeWhile_append_of_head before (by simp),
    List.takeWhile_eq_self_iff.mpr (bne_of_notMem absent)]

/-- Everything after the first `>` is cut off. -/
theorem coarseChars_append {header : List Char} (arrow : '>' ∈ header)
    (more : List Char) : coarseChars (header ++ more) = coarseChars header := by
  obtain ⟨before, after, rfl, absent⟩ := List.eq_append_cons_of_mem arrow
  rw [List.append_assoc, List.cons_append, coarseChars_arrow absent,
    coarseChars_arrow absent]

/-- Marks are cut off a label without arrow. -/
theorem coarseChars_append_marks {label marks : List Char}
    (noArrow : '>' ∉ label ++ marks) (noMark : '^' ∉ label)
    (starts : ∀ c ∈ marks.head?, c = '^') : coarseChars (label ++ marks) = label := by
  rw [coarseChars, if_neg noArrow, takeWhile_append_of_head label]
  · exact List.takeWhile_eq_self_iff.mpr (bne_of_notMem noMark)
  · intro c head
    simp [starts c head]

/-! ## Intermediate labels -/

theorem isIntermediate_append {label : String} (nonempty : label ≠ "")
    (more : String) : isIntermediate (label ++ more) = isIntermediate label := by
  obtain ⟨first, rest, chars⟩ :=
    List.exists_cons_of_ne_nil (mt String.toList_eq_nil_iff.mp nonempty)
  simp [isIntermediate, chars]

theorem toList_intermediateHeader (label : String) :
    (intermediateHeader label).toList =
      intermediateMark :: (label.toList ++ ['-']) ++ ['>'] := by
  simp [intermediateHeader]

theorem isIntermediate_intermediateHeader (category : String) :
    isIntermediate (intermediateHeader category) = true := by
  simp [isIntermediate, toList_intermediateHeader]

theorem isIntermediate_intermediateHeader_append (category history : String) :
    isIntermediate (intermediateHeader category ++ history) = true := by
  simp [isIntermediate, toList_intermediateHeader]

/-- The coarse label of an intermediate one is its header, whatever the siblings. -/
theorem coarseLabel_intermediateHeader_append {label : String}
    (noArrow : '>' ∉ label.toList) (history : String) :
    coarseLabel (intermediateHeader label ++ history) = intermediateHeader label := by
  have absent : '>' ∉ intermediateMark :: (label.toList ++ ['-']) := by
    simp [noArrow, intermediateMark]
  apply String.toList_injective
  rw [toList_coarseLabel, String.toList_append, toList_intermediateHeader,
    coarseChars_append (by simp), coarseChars_arrow absent]

/-! ## Histories -/

/-- The oldest sibling is dropped from what follows the part without `_`. -/
theorem dropOldestChars_append {header : List Char} (plain : '_' ∉ header)
    (history : List Char) :
    dropOldestChars (header ++ history) = header ++ dropOldestChars history := by
  have kept := bne_of_notMem plain
  rw [dropOldestChars, dropOldestChars, List.takeWhile_append_of_pos kept,
    List.dropWhile_append_of_pos kept, List.append_assoc]

theorem dropOldest_intermediateHeader_append {category : String}
    (plain : '_' ∉ category.toList) (history : String) :
    dropOldest (intermediateHeader category ++ history) =
      intermediateHeader category ++ dropOldest history := by
  apply String.toList_injective
  have noHistory : '_' ∉ (intermediateHeader category).toList := by
    simp [toList_intermediateHeader, intermediateMark, plain]
  simp [dropOldestChars_append noHistory]

theorem dropOldest_of_notMem {label : String} (plain : '_' ∉ label.toList) :
    dropOldest label = label := by
  rw [dropOldest, dropOldestChars_of_notMem plain, String.ofList_toList]

end ChartParsing.Refinement
