/-!
# Annotated labels

An annotated label carries, after the label it refines, marks for its context:
`NP^S^ROOT` is an `NP` below an `S` below the `ROOT`, and `@NP->_DT_JJ` stands
for the rest of an `NP` after its children `DT` and `JJ`.  This module holds the
functions that cut such labels down.  Each is defined on the characters of the
label and then lifted to strings.
-/

namespace ChartParsing.Refinement

/-- The first character of the labels that stand for part of a constituent. -/
def intermediateMark : Char := '@'

/-- The label of the nodes that stand for part of a constituent `label`, without
a sibling history. -/
def intermediateHeader (label : String) : String :=
  String.singleton intermediateMark ++ label ++ "->"

/-- A label that stands for part of a constituent. -/
def isIntermediate (label : String) : Bool :=
  label.toList.head? == some intermediateMark

/-- Append to a label those parts that are not empty, each after `mark`. -/
def withMarks (mark : Char) (label : String) (parts : List String) : String :=
  parts.foldl
    (fun marked part => if part.isEmpty then marked else marked.push mark ++ part)
    label

/-! ## Coarse labels -/

/-- Keep an intermediate header up to its first `>`; from any other label drop
the ancestor marks, which start at the first `^`. -/
def coarseChars (label : List Char) : List Char :=
  if '>' ∈ label then label.takeWhile (· != '>') ++ ['>']
  else label.takeWhile (· != '^')

/-- The coarse label that a fine label refines. -/
def coarseLabel (label : String) : String :=
  String.ofList (coarseChars label.toList)

/-! ## Base labels -/

/-- The characters at which a label may be cut down to its base. -/
def isCut (c : Char) : Bool :=
  c == '^' || c == '-' || c == '='

/-- Cut a label before the earliest `^`, `-` or `=` whose first occurrence is not
at the very start.  Only the character at the start can occur there first, so it
is the one that never cuts. -/
def baseChars : List Char → List Char
  | [] => []
  | first :: rest => first :: rest.takeWhile fun c => !(isCut c && c != first)

/-- The category that an annotated label belongs to: `NP` for `NP-SBJ=2`, and
`-NONE-` for itself. -/
def baseLabel (label : String) : String :=
  String.ofList (baseChars label.toList)

/-! ## Sibling histories -/

/-- Drop what stands from the first `_` to before the second, or to the end if
there is only one. -/
def dropOldestChars (label : List Char) : List Char :=
  label.takeWhile (· != '_') ++
    ((label.dropWhile (· != '_')).drop 1).dropWhile (· != '_')

/-- Drop the oldest sibling from the history of an intermediate label. -/
def dropOldest (label : String) : String :=
  String.ofList (dropOldestChars label.toList)

@[simp]
theorem toList_coarseLabel (label : String) :
    (coarseLabel label).toList = coarseChars label.toList :=
  String.toList_ofList

@[simp]
theorem toList_baseLabel (label : String) :
    (baseLabel label).toList = baseChars label.toList :=
  String.toList_ofList

@[simp]
theorem toList_dropOldest (label : String) :
    (dropOldest label).toList = dropOldestChars label.toList :=
  String.toList_ofList

/-- A label without `_` has no history to drop. -/
theorem dropOldestChars_of_notMem {label : List Char} (plain : '_' ∉ label) :
    dropOldestChars label = label := by
  induction label with
  | nil => rfl
  | cons first rest inductionHypothesis =>
      rw [List.mem_cons, not_or] at plain
      have kept : (first != '_') = true := bne_iff_ne.mpr (Ne.symm plain.1)
      have restKept := inductionHypothesis plain.2
      simp only [dropOldestChars] at restKept ⊢
      rw [List.takeWhile_cons, List.dropWhile_cons, if_pos kept, if_pos kept,
        List.cons_append, restKept]

end ChartParsing.Refinement
