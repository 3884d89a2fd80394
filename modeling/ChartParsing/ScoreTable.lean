import ChartParsing.Score.Basic

/-!
# Tables of scores

A table gives some keys a score.  It lists each key once, in the order in which
the keys were first entered, whatever happens to their scores later.
-/

namespace ChartParsing

/-- Scored keys in the order of their first entry. -/
structure ScoreTable (κ : Type) (σ : Type) where
  entries : List (κ × σ)

namespace ScoreTable

variable {κ σ : Type} [DecidableEq κ]

/-- The table without keys. -/
def empty : ScoreTable κ σ :=
  ⟨[]⟩

instance : Inhabited (ScoreTable κ σ) :=
  ⟨empty⟩

/-- The score of a key. -/
def find? (table : ScoreTable κ σ) (key : κ) : Option σ :=
  table.entries.lookup key

/-- Enter a score in a list of entries, behind all others if the key is new. -/
def enter (combine : σ → σ → σ) (key : κ) (score : σ) :
    List (κ × σ) → List (κ × σ)
  | [] => [(key, score)]
  | (present, old) :: rest =>
      if present = key then (present, combine old score) :: rest
      else (present, old) :: enter combine key score rest

/-- Enter a score; a key that is present keeps the better of its two scores. -/
def raise [Score σ] (table : ScoreTable κ σ) (key : κ) (score : σ) :
    ScoreTable κ σ :=
  ⟨enter Score.better key score table.entries⟩

/-- Enter a score in place of any that the key had. -/
def set (table : ScoreTable κ σ) (key : κ) (score : σ) : ScoreTable κ σ :=
  ⟨enter (fun _ new => new) key score table.entries⟩

/-- The table of a list of scored keys, of which repeated ones keep their best
score. -/
def ofList [Score σ] (entries : List (κ × σ)) : ScoreTable κ σ :=
  entries.foldl (fun table entry => table.raise entry.1 entry.2) empty

/-- The keys of a table, each once. -/
def keys (table : ScoreTable κ σ) : List κ :=
  table.entries.map Prod.fst

/-- The keys of a list of entries after one more, which comes last if it is
new. -/
theorem map_fst_enter (combine : σ → σ → σ) (key : κ) (score : σ)
    (entries : List (κ × σ)) :
    (enter combine key score entries).map Prod.fst =
      if key ∈ entries.map Prod.fst then entries.map Prod.fst
      else entries.map Prod.fst ++ [key] := by
  induction entries with
  | nil => simp [enter]
  | cons entry rest inductionHypothesis =>
      obtain ⟨present, old⟩ := entry
      by_cases same : present = key
      · simp [enter, same]
      · simp only [enter, if_neg same, List.map_cons, inductionHypothesis,
          List.mem_cons, Ne.symm same, false_or]
        split <;> simp

end ScoreTable

end ChartParsing
