import Mathlib.Data.List.Nodup
import ChartParsing.Proofs.Score.Laws
import ChartParsing.ScoreTable

/-!
# Reading a table of scores

A table is read after it has been written: `find?_raise` and `find?_set` say what
a key has after one entry.  From these follow the two facts about a table made of
a list of entries on which merging rests.  Its scores have all been entered
(`mem_of_find?_ofList`), and no score that has been entered is better than the one
that the table keeps (`exists_find?_ofList`).
-/

namespace ChartParsing.ScoreTable

variable {κ σ : Type} [DecidableEq κ]

/-- What a list of entries says of a key after an entry. -/
theorem lookup_enter (combine : σ → σ → σ) (key : κ) (score : σ)
    (entries : List (κ × σ)) (other : κ) :
    (enter combine key score entries).lookup other =
      if other = key then
        some ((entries.lookup key).elim score (combine · score))
      else entries.lookup other := by
  induction entries with
  | nil =>
      by_cases same : other = key
      · simp [enter, same]
      · simp [enter, List.lookup_cons, beq_false_of_ne same, same]
  | cons entry rest inductionHypothesis =>
      rcases entry with ⟨present, old⟩
      by_cases found : present = key
      · subst found
        by_cases same : other = present
        · simp [enter, same]
        · simp [enter, List.lookup_cons, beq_false_of_ne same, same]
      · have passed : (key == present) = false := beq_false_of_ne (Ne.symm found)
        rw [enter, if_neg found, List.lookup_cons, List.lookup_cons,
          List.lookup_cons, inductionHypothesis, passed]
        by_cases same : other = present
        · subst same
          simp [found]
        · have differs : (other == present) = false := beq_false_of_ne same
          rw [differs]

/-- A table lists each key once. -/
def Distinct (table : ScoreTable κ σ) : Prop :=
  table.keys.Nodup

theorem nodup_map_fst_enter (combine : σ → σ → σ) (key : κ) (score : σ)
    {entries : List (κ × σ)} (distinct : (entries.map Prod.fst).Nodup) :
    ((enter combine key score entries).map Prod.fst).Nodup := by
  rw [map_fst_enter]
  split
  · exact distinct
  · rename_i absent
    rw [← List.concat_eq_append]
    exact distinct.concat absent

/-- In a table that lists each key once, a key has the score listed with it. -/
theorem find?_eq_some_iff {table : ScoreTable κ σ} (distinct : table.Distinct)
    {key : κ} {score : σ} :
    table.find? key = some score ↔ (key, score) ∈ table.entries := by
  rcases table with ⟨entries⟩
  change (entries.map Prod.fst).Nodup at distinct
  change entries.lookup key = some score ↔ _
  induction entries with
  | nil => simp
  | cons entry rest inductionHypothesis =>
      rcases entry with ⟨present, old⟩
      rw [List.map_cons, List.nodup_cons] at distinct
      rw [List.lookup_cons, List.mem_cons, Prod.mk.injEq]
      by_cases same : key = present
      · subst same
        have absent : (key, score) ∉ rest := fun member =>
          distinct.1 (List.mem_map.mpr ⟨_, member, rfl⟩)
        simp [absent, eq_comm]
      · have differs : (key == present) = false := beq_false_of_ne same
        rw [differs, inductionHypothesis distinct.2]
        simp [same]

theorem find?_set (table : ScoreTable κ σ) (key : κ) (score : σ) (other : κ) :
    (table.set key score).find? other =
      if other = key then some score else table.find? other := by
  unfold find? set
  rw [lookup_enter]
  split
  · cases table.entries.lookup key <;> rfl
  · rfl

variable [Score σ]

theorem find?_raise (table : ScoreTable κ σ) (key : κ) (score : σ) (other : κ) :
    (table.raise key score).find? other =
      if other = key then
        some ((table.find? key).elim score (Score.better · score))
      else table.find? other :=
  lookup_enter Score.better key score table.entries other

/-- Enter all of a list of entries. -/
def raiseAll (table : ScoreTable κ σ) (entries : List (κ × σ)) : ScoreTable κ σ :=
  entries.foldl (fun table entry => table.raise entry.1 entry.2) table

theorem ofList_eq_raiseAll (entries : List (κ × σ)) :
    ofList entries = empty.raiseAll entries :=
  rfl

omit [DecidableEq κ] [Score σ] in
theorem distinct_empty : (empty : ScoreTable κ σ).Distinct :=
  List.nodup_nil

theorem distinct_raiseAll {table : ScoreTable κ σ} (distinct : table.Distinct)
    (entries : List (κ × σ)) : (table.raiseAll entries).Distinct := by
  induction entries generalizing table with
  | nil => exact distinct
  | cons entry rest inductionHypothesis =>
      exact inductionHypothesis (nodup_map_fst_enter _ entry.1 entry.2 distinct)

/-- The table of a list of entries lists each key once. -/
theorem distinct_ofList (entries : List (κ × σ)) :
    (ofList entries).Distinct :=
  distinct_raiseAll distinct_empty entries

theorem length_entries_raise_le (table : ScoreTable κ σ) (key : κ) (score : σ) :
    (table.raise key score).entries.length ≤ table.entries.length + 1 := by
  have lengths := congrArg List.length (map_fst_enter Score.better key score table.entries)
  rw [List.length_map] at lengths
  change (enter Score.better key score table.entries).length ≤ _
  rw [lengths]
  split <;> simp

theorem length_entries_raiseAll_le (table : ScoreTable κ σ) (entries : List (κ × σ)) :
    (table.raiseAll entries).entries.length ≤ table.entries.length + entries.length := by
  induction entries generalizing table with
  | nil => exact Nat.le_refl _
  | cons entry rest inductionHypothesis =>
      have once := length_entries_raise_le table entry.1 entry.2
      have others := inductionHypothesis (table.raise entry.1 entry.2)
      rw [List.length_cons]
      exact others.trans (by omega)

/-- A table has no more entries than have been entered. -/
theorem length_entries_ofList_le (entries : List (κ × σ)) :
    (ofList entries).entries.length ≤ entries.length :=
  (length_entries_raiseAll_le empty entries).trans_eq (Nat.zero_add _)

/-- A score in a table was there before the last entry or is the one entered. -/
theorem mem_of_find?_raise {table : ScoreTable κ σ} {key other : κ}
    {score kept : σ} (found : (table.raise key score).find? other = some kept) :
    table.find? other = some kept ∨ (other, kept) = (key, score) := by
  rw [find?_raise] at found
  split at found
  · rename_i same
    subst same
    cases before : table.find? other with
    | none =>
        simp only [before, Option.elim_none, Option.some.injEq] at found
        exact Or.inr (by rw [found])
    | some old =>
        simp only [before, Option.elim_some, Option.some.injEq] at found
        rcases Score.better_eq_or old score with same | same
        · exact Or.inl (by rw [← found, same])
        · exact Or.inr (by rw [← found, same])
  · exact Or.inl found

theorem mem_of_find?_raiseAll {table : ScoreTable κ σ} {entries : List (κ × σ)}
    {key : κ} {score : σ}
    (found : (table.raiseAll entries).find? key = some score) :
    table.find? key = some score ∨ (key, score) ∈ entries := by
  induction entries generalizing table with
  | nil => exact Or.inl found
  | cons entry rest inductionHypothesis =>
      rcases inductionHypothesis found with before | later
      · exact (mem_of_find?_raise before).imp_right fun same =>
          List.mem_cons.mpr (Or.inl same)
      · exact Or.inr (List.mem_cons_of_mem entry later)

/-- A score in the table of a list of entries has been entered. -/
theorem mem_of_find?_ofList {entries : List (κ × σ)} {key : κ} {score : σ}
    (found : (ofList entries).find? key = some score) : (key, score) ∈ entries := by
  rw [ofList_eq_raiseAll] at found
  rcases mem_of_find?_raiseAll found with absent | member
  · cases absent
  · exact member

/-- No score in a table is positive. -/
def Nonpositive (table : ScoreTable κ σ) : Prop :=
  ∀ key score, table.find? key = some score → score ≤ 0

theorem nonpositive_empty : (empty : ScoreTable κ σ).Nonpositive :=
  fun _ _ absent => nomatch absent

theorem nonpositive_raise {table : ScoreTable κ σ} (nonpositive : table.Nonpositive)
    {key : κ} {score : σ} (nonpos : score ≤ 0) :
    (table.raise key score).Nonpositive := by
  intro other kept found
  rcases mem_of_find?_raise found with before | same
  · exact nonpositive other kept before
  · rw [(Prod.mk.inj same).2]
    exact nonpos

/-- A table that is entered from scores that are not positive has none. -/
theorem nonpositive_ofList {entries : List (κ × σ)}
    (nonpos : ∀ entry ∈ entries, entry.2 ≤ 0) : (ofList entries).Nonpositive :=
  fun key score found => nonpos (key, score) (mem_of_find?_ofList found)

omit [Score σ] in
/-- Setting scores one after the other keeps a table in order. -/
theorem distinct_foldl_set {table : ScoreTable κ σ} (distinct : table.Distinct)
    (entries : List (κ × σ)) :
    (entries.foldl (fun table entry => table.set entry.1 entry.2) table).Distinct := by
  induction entries generalizing table with
  | nil => exact distinct
  | cons entry rest inductionHypothesis =>
      exact inductionHypothesis (nodup_map_fst_enter _ entry.1 entry.2 distinct)

theorem nonpositive_foldl_set {table : ScoreTable κ σ} (nonpositive : table.Nonpositive)
    {entries : List (κ × σ)} (nonpos : ∀ entry ∈ entries, entry.2 ≤ 0) :
    (entries.foldl (fun table entry => table.set entry.1 entry.2) table).Nonpositive := by
  induction entries generalizing table with
  | nil => exact nonpositive
  | cons entry rest inductionHypothesis =>
      refine inductionHypothesis ?_ fun entry member =>
        nonpos entry (List.mem_cons_of_mem _ member)
      intro key score found
      rw [find?_set] at found
      split at found
      · rw [← Option.some.inj found]
        exact nonpos entry List.mem_cons_self
      · exact nonpositive key score found

variable [Score.Monotone σ]

/-- An entry loses neither the score that was there nor its own to a worse one. -/
theorem exists_find?_raise {table : ScoreTable κ σ} (nonpositive : table.Nonpositive)
    {key other : κ} {score known : σ} (nonpos : score ≤ 0)
    (given : table.find? other = some known ∨ (other, known) = (key, score)) :
    ∃ best, (table.raise key score).find? other = some best ∧ known ≤ best := by
  rw [find?_raise]
  by_cases same : other = key
  · subst same
    rw [if_pos rfl]
    cases before : table.find? other with
    | none =>
        rcases Prod.mk.inj (given.resolve_left (by simp [before])) with ⟨-, rfl⟩
        exact ⟨known, rfl, Score.le_refl nonpos⟩
    | some old =>
        have oldNonpos := nonpositive other old before
        refine ⟨Score.better old score, rfl, ?_⟩
        rcases given with kept | entered
        · obtain rfl := Option.some.inj (before.symm.trans kept)
          exact Score.le_better_left oldNonpos nonpos
        · rcases Prod.mk.inj entered with ⟨-, rfl⟩
          exact Score.le_better_right oldNonpos nonpos
  · have kept := given.resolve_right fun entered => same (Prod.mk.inj entered).1
    rw [if_neg same]
    exact ⟨known, kept, Score.le_refl (nonpositive other known kept)⟩

theorem exists_find?_raiseAll {table : ScoreTable κ σ}
    (nonpositive : table.Nonpositive) {entries : List (κ × σ)}
    (nonpos : ∀ entry ∈ entries, entry.2 ≤ 0) {key : κ} {score : σ}
    (given : table.find? key = some score ∨ (key, score) ∈ entries) :
    ∃ best, (table.raiseAll entries).find? key = some best ∧ score ≤ best := by
  induction entries generalizing table score with
  | nil =>
      have present := given.resolve_right List.not_mem_nil
      exact ⟨score, present, Score.le_refl (nonpositive key score present)⟩
  | cons entry rest inductionHypothesis =>
      have entryNonpos := nonpos entry List.mem_cons_self
      have raised : (table.raise entry.1 entry.2).Nonpositive :=
        nonpositive_raise nonpositive entryNonpos
      have restNonpos : ∀ entry ∈ rest, entry.2 ≤ 0 := fun entry member =>
        nonpos entry (List.mem_cons_of_mem _ member)
      rw [List.mem_cons, ← or_assoc] at given
      rcases given with now | later
      · rcases exists_find?_raise nonpositive entryNonpos now with ⟨kept, found, le⟩
        obtain ⟨best, bestFound, keptLe⟩ :=
          inductionHypothesis raised restNonpos (Or.inl found)
        exact ⟨best, bestFound, Score.Monotone.le_trans le keptLe⟩
      · exact inductionHypothesis raised restNonpos (Or.inr later)

/-- No score that has been entered is better than the one kept. -/
theorem exists_find?_ofList {entries : List (κ × σ)}
    (nonpos : ∀ entry ∈ entries, entry.2 ≤ 0) {key : κ} {score : σ}
    (member : (key, score) ∈ entries) :
    ∃ best, (ofList entries).find? key = some best ∧ score ≤ best :=
  exists_find?_raiseAll nonpositive_empty nonpos (Or.inr member)

/-! ## Renaming keys -/

section

variable {ι : Type} [DecidableEq ι] {table : ScoreTable ι σ} {rename : ι → κ}

omit [Score.Monotone σ] in
theorem nonpos_of_mem_entries (distinct : table.Distinct) (nonpositive : table.Nonpositive) :
    ∀ entry ∈ table.entries, entry.2 ≤ 0 :=
  fun entry member => nonpositive entry.1 entry.2 ((find?_eq_some_iff distinct).mpr member)

/-- The table after renaming its keys; keys that become one keep the best of their
scores. -/
def rekey (table : ScoreTable ι σ) (rename : ι → κ) : ScoreTable κ σ :=
  ofList (table.entries.map fun entry => (rename entry.1, entry.2))

omit [DecidableEq ι] [Score.Monotone σ] in
theorem distinct_rekey : (table.rekey rename).Distinct :=
  distinct_ofList _

omit [Score.Monotone σ] in
theorem nonpositive_rekey (distinct : table.Distinct) (nonpositive : table.Nonpositive) :
    (table.rekey rename).Nonpositive := by
  apply nonpositive_ofList
  intro entry member
  rcases List.mem_map.mp member with ⟨original, listed, rfl⟩
  exact nonpos_of_mem_entries distinct nonpositive original listed

omit [Score.Monotone σ] in
/-- A score after renaming is that of a key before. -/
theorem exists_find?_of_find?_rekey (distinct : table.Distinct) {key : κ} {score : σ}
    (found : (table.rekey rename).find? key = some score) :
    ∃ original, rename original = key ∧ table.find? original = some score := by
  rcases List.mem_map.mp (mem_of_find?_ofList found) with ⟨original, listed, same⟩
  rcases Prod.mk.inj same with ⟨rfl, rfl⟩
  exact ⟨original.1, rfl, (find?_eq_some_iff distinct).mpr listed⟩

/-- Renaming makes no key's score worse. -/
theorem exists_find?_rekey (distinct : table.Distinct) (nonpositive : table.Nonpositive)
    (rename : ι → κ) {key : ι} {score : σ} (found : table.find? key = some score) :
    ∃ best, (table.rekey rename).find? (rename key) = some best ∧ score ≤ best := by
  have listed := (find?_eq_some_iff distinct).mp found
  apply exists_find?_ofList
  · intro entry member
    rcases List.mem_map.mp member with ⟨original, originalListed, rfl⟩
    exact nonpos_of_mem_entries distinct nonpositive original originalListed
  · exact List.mem_map.mpr ⟨(key, score), listed, rfl⟩

/-! ## Reading with a default -/

theorem getD_find?_nonpos (nonpositive : table.Nonpositive) (key : ι) :
    (table.find? key).getD impossible ≤ 0 := by
  cases found : table.find? key with
  | none => exact Score.impossible_nonpos
  | some score => exact nonpositive key score found

theorem getD_find?_le_rekey (distinct : table.Distinct) (nonpositive : table.Nonpositive)
    (rename : ι → κ) (key : ι) :
    (table.find? key).getD impossible ≤
      ((table.rekey rename).find? (rename key)).getD impossible := by
  cases found : table.find? key with
  | none =>
      exact Score.Monotone.impossible_le
        (getD_find?_nonpos (nonpositive_rekey distinct nonpositive) (rename key))
  | some score =>
      obtain ⟨best, bestFound, le⟩ := exists_find?_rekey distinct nonpositive rename found
      rw [bestFound]
      exact le

/-- If no key changes, no key's score becomes better. -/
theorem getD_find?_rekey_le (distinct : table.Distinct) (nonpositive : table.Nonpositive)
    {rename : ι → ι} (unchanged : ∀ key, rename key = key) (key : ι) :
    ((table.rekey rename).find? key).getD impossible ≤
      (table.find? key).getD impossible := by
  have nonpos := getD_find?_nonpos nonpositive key
  cases found : (table.rekey rename).find? key with
  | none => exact Score.Monotone.impossible_le nonpos
  | some score =>
      obtain ⟨original, same, originalFound⟩ := exists_find?_of_find?_rekey distinct found
      rw [unchanged] at same
      rw [same] at originalFound
      rw [originalFound] at nonpos ⊢
      exact Score.le_refl nonpos

/-! ## Tables that score no key worse -/

/-- Another table has every key of a table, at no worse a score. -/
def AtMost (table other : ScoreTable ι σ) : Prop :=
  ∀ key score, table.find? key = some score →
    ∃ best, other.find? key = some best ∧ score ≤ best

omit [Score.Monotone σ] in
theorem atMost_empty (other : ScoreTable ι σ) : (empty : ScoreTable ι σ).AtMost other :=
  fun _ _ absent => nomatch absent

/-- More entries make no score worse, in whatever order they come. -/
theorem atMost_ofList {entries others : List (ι × σ)} (included : entries ⊆ others)
    (nonpos : ∀ entry ∈ others, entry.2 ≤ 0) : (ofList entries).AtMost (ofList others) :=
  fun _ _ found => exists_find?_ofList nonpos (included (mem_of_find?_ofList found))

theorem AtMost.rekey {other : ScoreTable ι σ} (atMost : table.AtMost other)
    (distinct : table.Distinct) (otherDistinct : other.Distinct)
    (nonpositive : other.Nonpositive) (rename : ι → κ) :
    (table.rekey rename).AtMost (other.rekey rename) := by
  intro key score found
  obtain ⟨original, rfl, originalFound⟩ := exists_find?_of_find?_rekey distinct found
  rcases atMost original score originalFound with ⟨kept, keptFound, le⟩
  obtain ⟨best, bestFound, keptLe⟩ :=
    exists_find?_rekey otherDistinct nonpositive rename keptFound
  exact ⟨best, bestFound, Score.Monotone.le_trans le keptLe⟩

theorem AtMost.foldl_set {other : ScoreTable ι σ} (atMost : table.AtMost other)
    {entries : List (ι × σ)} (nonpos : ∀ entry ∈ entries, entry.2 ≤ 0) :
    (entries.foldl (fun table entry => table.set entry.1 entry.2) table).AtMost
      (entries.foldl (fun table entry => table.set entry.1 entry.2) other) := by
  induction entries generalizing table other with
  | nil => exact atMost
  | cons entry rest inductionHypothesis =>
      refine inductionHypothesis ?_ fun entry member => nonpos entry (List.mem_cons_of_mem _ member)
      intro key score found
      rw [find?_set] at found ⊢
      split at found
      · rename_i same
        rw [if_pos same]
        obtain rfl := Option.some.inj found
        exact ⟨_, rfl, Score.le_refl (nonpos entry List.mem_cons_self)⟩
      · rename_i different
        rw [if_neg different]
        exact atMost key score found

theorem AtMost.getD_find?_le {other : ScoreTable ι σ} (atMost : table.AtMost other)
    (nonpositive : other.Nonpositive) (key : ι) :
    (table.find? key).getD impossible ≤ (other.find? key).getD impossible := by
  cases found : table.find? key with
  | none => exact Score.Monotone.impossible_le (getD_find?_nonpos nonpositive key)
  | some score =>
      rcases atMost key score found with ⟨best, bestFound, le⟩
      rw [bestFound]
      exact le

end

end ChartParsing.ScoreTable
