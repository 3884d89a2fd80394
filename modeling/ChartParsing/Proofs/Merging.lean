import Mathlib.Data.List.Forall2
import Mathlib.Data.List.Induction
import ChartParsing.Proofs.ScoreTable
import ChartParsing.Vocabulary

/-!
# Merging in two rounds

A list of mentions is kept in the order of first mention, and this order does not change if
the list is merged, renamed and merged again (`eraseDups_map_eraseDups`).  So a table whose
keys are renamed twice, merging each time, lists the same keys in the same order as if they
had been renamed once, and each key has as good a score
(`ScoreTable.listedAlike_rekey_rekey`).  Scores are compared only, so they are the same up
to what no comparison tells apart (`Score.Ties`).

The order in which a table is entered decides only where its keys stand: entering the
entries of a table in another order leaves every key as good a score
(`ScoreTable.scoresAlike_rekey_rekey_of_perm`).
-/

namespace ChartParsing

/-! ## The order of first mention -/

section FirstMentions

variable {α β : Type} [BEq α] [LawfulBEq α] [BEq β] [LawfulBEq β]

/-- A further mention comes last if it is the first of its kind, and else changes nothing. -/
theorem eraseDups_concat (mentions : List α) (last : α) :
    (mentions ++ [last]).eraseDups =
      if last ∈ mentions then mentions.eraseDups else mentions.eraseDups ++ [last] := by
  rw [List.eraseDups_append]
  have alone : [last].eraseDups = [last] := by rw [List.eraseDups_cons]; rfl
  by_cases known : last ∈ mentions
  · simp [List.removeAll, known]
  · simp [List.removeAll, known, alone]

theorem eraseDups_of_nodup {items : List α} (distinct : items.Nodup) :
    items.eraseDups = items := by
  induction items using List.reverseRecOn with
  | nil => rfl
  | append_singleton items last inductionHypothesis =>
      rw [List.nodup_append] at distinct
      have fresh : last ∉ items := fun member =>
        distinct.2.2 last member last (List.mem_singleton_self last) rfl
      rw [eraseDups_concat, if_neg fresh, inductionHypothesis distinct.1]

/-- Merging before a renaming does not change the order in which the new names are first
mentioned. -/
theorem eraseDups_map_eraseDups (rename : α → β) (mentions : List α) :
    (mentions.eraseDups.map rename).eraseDups = (mentions.map rename).eraseDups := by
  induction mentions using List.reverseRecOn with
  | nil => rfl
  | append_singleton mentions last inductionHypothesis =>
      rw [eraseDups_concat, List.map_append, List.map_singleton, eraseDups_concat]
      have sameNames : rename last ∈ mentions.eraseDups.map rename ↔
          rename last ∈ mentions.map rename := by
        simp only [List.mem_map, List.mem_eraseDups]
      by_cases known : last ∈ mentions
      · rw [if_pos known, if_pos (List.mem_map_of_mem known), inductionHypothesis]
      · rw [if_neg known, List.map_append, List.map_singleton, eraseDups_concat,
          inductionHypothesis]
        exact if_congr sameNames rfl rfl

end FirstMentions

namespace Vocabulary

theorem names_add (labels : Vocabulary) (name : String) :
    (labels.add name).names =
      if name ∈ labels.names then labels.names else labels.names ++ [name] := by
  unfold add
  split <;> rfl

/-- A vocabulary lists the labels of its mentions in the order of first mention. -/
theorem names_ofList (mentions : List String) :
    (ofList mentions).names = mentions.eraseDups := by
  induction mentions using List.reverseRecOn with
  | nil => rfl
  | append_singleton mentions last inductionHypothesis =>
      rw [ofList, List.foldl_append, List.foldl_cons, List.foldl_nil, ← ofList, names_add,
        inductionHypothesis, eraseDups_concat]
      simp only [List.mem_eraseDups]

/-- Labels that are all known add nothing to those that have been mentioned before. -/
theorem ofList_append_of_subset {mentions others : List String} (known : others ⊆ mentions) :
    ofList (mentions ++ others) = ofList mentions := by
  induction others using List.reverseRecOn with
  | nil => rw [List.append_nil]
  | append_singleton others last inductionHypothesis =>
      rw [List.append_subset] at known
      have before : last ∈ mentions ++ others :=
        List.mem_append_left others (known.2 (List.mem_singleton_self last))
      rw [← inductionHypothesis known.1, Vocabulary.mk.injEq]
      rw [names_ofList, names_ofList, ← List.append_assoc, eraseDups_concat, if_pos before]

end Vocabulary

/-! ## Scores that no comparison tells apart -/

/-- Neither of two scores is better.  For numbers this is to be equal, the two zeros
included. -/
def Score.Ties {σ : Type} [Score σ] (a b : σ) : Prop :=
  a ≤ b ∧ b ≤ a

namespace ScoreTable

variable {κ ι σ : Type} [DecidableEq κ] [DecidableEq ι]

/-! ## The keys of a table -/

theorem enter_of_notMem (combine : σ → σ → σ) {key : κ} (score : σ) {entries : List (κ × σ)}
    (fresh : key ∉ entries.map Prod.fst) :
    enter combine key score entries = entries ++ [(key, score)] := by
  induction entries with
  | nil => rfl
  | cons entry rest inductionHypothesis =>
      rw [List.map_cons, List.mem_cons, not_or] at fresh
      rcases entry with ⟨present, old⟩
      rw [enter, if_neg (Ne.symm fresh.1), inductionHypothesis fresh.2, List.cons_append]

section

variable [Score σ]

theorem ofList_concat (entries : List (κ × σ)) (last : κ × σ) :
    ofList (entries ++ [last]) = (ofList entries).raise last.1 last.2 := by
  rw [ofList, List.foldl_append, List.foldl_cons, List.foldl_nil, ← ofList]

theorem keys_raise (table : ScoreTable κ σ) (key : κ) (score : σ) :
    (table.raise key score).keys =
      if key ∈ table.keys then table.keys else table.keys ++ [key] :=
  map_fst_enter Score.better key score table.entries

/-- A table lists its keys in the order in which they were first entered. -/
theorem keys_ofList (entries : List (κ × σ)) :
    (ofList entries).keys = (entries.map Prod.fst).eraseDups := by
  induction entries using List.reverseRecOn with
  | nil => rfl
  | append_singleton entries last inductionHypothesis =>
      rw [ofList_concat, List.map_append, List.map_singleton, eraseDups_concat, keys_raise,
        inductionHypothesis]
      simp only [List.mem_eraseDups]

/-- Under names that keep its keys apart, a table lists the names in the order in which they were
first entered. -/
theorem map_keys_ofList {entries : List (κ × σ)} {rename : κ → ι}
    (apart : ∀ key ∈ (ofList entries).keys, ∀ other ∈ (ofList entries).keys,
      rename key = rename other → key = other) :
    (ofList entries).keys.map rename = (entries.map fun entry => rename entry.1).eraseDups := by
  have distinct : ((ofList entries).keys.map rename).Nodup :=
    (distinct_ofList entries).map_on apart
  calc
    (ofList entries).keys.map rename
    _ = ((ofList entries).keys.map rename).eraseDups := (eraseDups_of_nodup distinct).symm
    _ = ((entries.map Prod.fst).map rename).eraseDups := by
      rw [keys_ofList, eraseDups_map_eraseDups]
    _ = (entries.map fun entry => rename entry.1).eraseDups := by
      rw [List.map_map]
      rfl

/-- Entering distinct keys gives the table that lists them as they were entered. -/
theorem entries_ofList {entries : List (κ × σ)} (distinct : (entries.map Prod.fst).Nodup) :
    (ofList entries).entries = entries := by
  induction entries using List.reverseRecOn with
  | nil => rfl
  | append_singleton entries last inductionHypothesis =>
      rw [List.map_append, List.nodup_append] at distinct
      have same := inductionHypothesis distinct.1
      have fresh : last.1 ∉ (ofList entries).entries.map Prod.fst := by
        rw [same]
        exact fun member => distinct.2.2 _ member _ (List.mem_singleton_self last.1) rfl
      rw [ofList_concat, raise, enter_of_notMem _ _ fresh, same]

omit [Score σ] in
theorem mem_keys_iff {table : ScoreTable κ σ} (distinct : table.Distinct) {key : κ} :
    key ∈ table.keys ↔ ∃ score, table.find? key = some score := by
  simp only [keys, List.mem_map, Prod.exists, exists_and_right, exists_eq_right,
    find?_eq_some_iff distinct]

/-! ## Renaming the keys of a table -/

variable {table other : ScoreTable ι σ} {rename : ι → κ}

omit [DecidableEq ι] in
theorem keys_rekey (table : ScoreTable ι σ) (rename : ι → κ) :
    (table.rekey rename).keys = (table.keys.map rename).eraseDups := by
  rw [rekey, keys_ofList, keys, List.map_map, List.map_map]
  rfl

omit [DecidableEq ι] in
theorem rekey_congr {others : ι → κ} (same : ∀ key ∈ table.keys, rename key = others key) :
    table.rekey rename = table.rekey others := by
  unfold rekey
  congr 1
  refine List.map_congr_left fun entry member => ?_
  rw [same entry.1 (List.mem_map_of_mem member)]

/-- A table whose keys keep their names stays as it is. -/
theorem rekey_eq_self {rename : ι → ι} (distinct : table.Distinct)
    (unchanged : ∀ key ∈ table.keys, rename key = key) : table.rekey rename = table := by
  have same : table.rekey rename = table.rekey id := rekey_congr unchanged
  rw [same]
  rcases table with ⟨entries⟩
  rw [ScoreTable.mk.injEq]
  change (ofList (entries.map id)).entries = entries
  rw [List.map_id]
  exact entries_ofList distinct

/-! ## Tables that score alike -/

/-- Two tables list the same keys in the same order, at scores that tie. -/
def ListedAlike (table other : ScoreTable κ σ) : Prop :=
  List.Forall₂ (fun entry otherEntry => entry.1 = otherEntry.1 ∧
    Score.Ties entry.2 otherEntry.2) table.entries other.entries

/-- Two tables have the same keys, each at scores that tie. -/
structure ScoresAlike (table other : ScoreTable κ σ) : Prop where
  atMost : table.AtMost other
  atLeast : other.AtMost table

namespace ScoresAlike

variable {table other third : ScoreTable κ σ} (alike : table.ScoresAlike other)

include alike

theorem symm : other.ScoresAlike table :=
  ⟨alike.atLeast, alike.atMost⟩

/-- A key has no score in either table, or scores that tie. -/
theorem rel_find? (key : κ) :
    Option.Rel Score.Ties (table.find? key) (other.find? key) := by
  cases found : table.find? key with
  | none =>
      cases otherFound : other.find? key with
      | none => exact .none
      | some score =>
          obtain ⟨_, present, -⟩ := alike.atLeast key score otherFound
          rw [found] at present
          cases present
  | some score =>
      obtain ⟨best, otherFound, le⟩ := alike.atMost key score found
      obtain ⟨_, present, ge⟩ := alike.atLeast key best otherFound
      obtain rfl := Option.some.inj (found.symm.trans present)
      rw [otherFound]
      exact .some ⟨le, ge⟩

theorem exists_find?_iff (key : κ) :
    (∃ score, table.find? key = some score) ↔ ∃ score, other.find? key = some score := by
  constructor
  · rintro ⟨score, found⟩
    rcases alike.atMost key score found with ⟨best, bestFound, -⟩
    exact ⟨best, bestFound⟩
  · rintro ⟨score, found⟩
    rcases alike.atLeast key score found with ⟨best, bestFound, -⟩
    exact ⟨best, bestFound⟩

theorem perm_keys (distinct : table.Distinct) (otherDistinct : other.Distinct) :
    table.keys.Perm other.keys := by
  rw [List.perm_ext_iff_of_nodup distinct otherDistinct]
  intro key
  rw [mem_keys_iff distinct, mem_keys_iff otherDistinct]
  exact alike.exists_find?_iff key

/-- If the keys are listed in the same order, so are scores that tie. -/
theorem listedAlike (distinct : table.Distinct) (otherDistinct : other.Distinct)
    (keys : table.keys = other.keys) : table.ListedAlike other := by
  have paired : List.Forall₂ (fun entry otherEntry => entry.1 = otherEntry.1)
      table.entries other.entries := by
    rw [← List.forall₂_map_right_iff (f := Prod.fst), ← List.forall₂_map_left_iff (f := Prod.fst),
      List.forall₂_eq_eq_eq]
    exact keys
  rw [List.forall₂_iff_zip] at paired
  refine List.forall₂_iff_zip.mpr ⟨paired.1, fun {entry otherEntry} pair => ?_⟩
  have sameKey := paired.2 pair
  rcases List.of_mem_zip pair with ⟨listed, otherListed⟩
  have ties := alike.rel_find? entry.1
  rw [(find?_eq_some_iff distinct).mpr listed, sameKey,
    (find?_eq_some_iff otherDistinct).mpr otherListed] at ties
  cases ties with
  | some ties => exact ⟨sameKey, ties⟩

variable [Score.Monotone σ]

theorem trans (others : other.ScoresAlike third) : table.ScoresAlike third := by
  constructor
  case atMost =>
    intro key score found
    rcases alike.atMost key score found with ⟨middle, middleFound, le⟩
    rcases others.atMost key middle middleFound with ⟨best, bestFound, middleLe⟩
    exact ⟨best, bestFound, Score.Monotone.le_trans le middleLe⟩
  case atLeast =>
    intro key score found
    rcases others.atLeast key score found with ⟨middle, middleFound, le⟩
    rcases alike.atLeast key middle middleFound with ⟨best, bestFound, middleLe⟩
    exact ⟨best, bestFound, Score.Monotone.le_trans le middleLe⟩

/-- Renaming the keys of both tables keeps them alike. -/
theorem rekey (distinct : table.Distinct) (nonpositive : table.Nonpositive)
    (otherDistinct : other.Distinct) (otherNonpositive : other.Nonpositive)
    (rename : κ → ι) : (table.rekey rename).ScoresAlike (other.rekey rename) :=
  ⟨alike.atMost.rekey distinct otherDistinct otherNonpositive rename,
    alike.atLeast.rekey otherDistinct distinct nonpositive rename⟩

end ScoresAlike

/-! ## Two rounds -/

variable {μ : Type} [DecidableEq μ] {table other : ScoreTable κ σ}

omit [DecidableEq κ] in
/-- Renaming in two rounds lists the keys in the order of one round. -/
theorem keys_rekey_rekey (table : ScoreTable κ σ) (rename : κ → ι) (outer : ι → μ) :
    ((table.rekey rename).rekey outer).keys = (table.rekey (outer ∘ rename)).keys := by
  rw [keys_rekey, keys_rekey, keys_rekey, eraseDups_map_eraseDups, List.map_map]

variable [Score.Monotone σ]

/-- Renaming in two rounds leaves each key as good a score as renaming once: the best among
the keys that come to it. -/
theorem scoresAlike_rekey_rekey (distinct : table.Distinct) (nonpositive : table.Nonpositive)
    (rename : κ → ι) (outer : ι → μ) :
    ((table.rekey rename).rekey outer).ScoresAlike (table.rekey (outer ∘ rename)) := by
  have onceNonpositive : (table.rekey rename).Nonpositive :=
    nonpositive_rekey distinct nonpositive
  constructor
  case atMost =>
    intro key score found
    obtain ⟨middle, rfl, middleFound⟩ := exists_find?_of_find?_rekey distinct_rekey found
    obtain ⟨original, rfl, originalFound⟩ := exists_find?_of_find?_rekey distinct middleFound
    exact exists_find?_rekey distinct nonpositive (outer ∘ rename) originalFound
  case atLeast =>
    intro key score found
    obtain ⟨original, rfl, originalFound⟩ := exists_find?_of_find?_rekey distinct found
    obtain ⟨middle, middleFound, le⟩ :=
      exists_find?_rekey distinct nonpositive rename originalFound
    obtain ⟨best, bestFound, middleLe⟩ :=
      exists_find?_rekey distinct_rekey onceNonpositive outer middleFound
    exact ⟨best, bestFound, Score.Monotone.le_trans le middleLe⟩

/-- Renaming in two rounds lists the keys of one round by a renaming that agrees with both, at
scores that tie. -/
theorem listedAlike_rekey_rekey (distinct : table.Distinct) (nonpositive : table.Nonpositive)
    {rename : κ → ι} {outer : ι → μ} {both : κ → μ}
    (composed : ∀ key ∈ table.keys, both key = outer (rename key)) :
    ((table.rekey rename).rekey outer).ListedAlike (table.rekey both) := by
  have same : table.rekey both = table.rekey (outer ∘ rename) := rekey_congr composed
  rw [same]
  exact (scoresAlike_rekey_rekey distinct nonpositive rename outer).listedAlike distinct_rekey
    distinct_rekey (keys_rekey_rekey table rename outer)

/-! ## Any order of entries -/

omit [DecidableEq κ] [Score σ] [Score.Monotone σ] in
theorem Distinct.of_perm (distinct : table.Distinct)
    (permuted : table.entries.Perm other.entries) : other.Distinct :=
  (permuted.map Prod.fst).nodup_iff.mp distinct

omit [Score σ] [Score.Monotone σ] in
/-- Where the entries of a table stand does not matter to what a key has. -/
theorem find?_eq_of_perm (distinct : table.Distinct)
    (permuted : table.entries.Perm other.entries) (key : κ) :
    table.find? key = other.find? key := by
  ext score
  rw [find?_eq_some_iff distinct, find?_eq_some_iff (distinct.of_perm permuted),
    permuted.mem_iff]

omit [Score.Monotone σ] in
theorem Nonpositive.of_perm (nonpositive : table.Nonpositive) (distinct : table.Distinct)
    (permuted : table.entries.Perm other.entries) : other.Nonpositive := by
  intro key score found
  rw [← find?_eq_of_perm distinct permuted] at found
  exact nonpositive key score found

theorem scoresAlike_of_perm (distinct : table.Distinct) (nonpositive : table.Nonpositive)
    (permuted : table.entries.Perm other.entries) : table.ScoresAlike other := by
  have same := find?_eq_of_perm distinct permuted
  constructor
  case atMost =>
    intro key score found
    exact ⟨score, same key ▸ found, Score.le_refl (nonpositive key score found)⟩
  case atLeast =>
    intro key score found
    rw [← same key] at found
    exact ⟨score, found, Score.le_refl (nonpositive key score found)⟩

/-- A table with its keys renamed may have been entered in any order of its entries. -/
theorem scoresAlike_rekey_of_perm (distinct : table.Distinct)
    (nonpositive : table.Nonpositive) (permuted : table.entries.Perm other.entries)
    (rename : κ → ι) : (other.rekey rename).ScoresAlike (table.rekey rename) :=
  (scoresAlike_of_perm distinct nonpositive permuted).symm.rekey (distinct.of_perm permuted)
    (nonpositive.of_perm distinct permuted) distinct nonpositive rename

/-- If each table is entered in any order, renaming in two rounds still leaves each key as good
a score as renaming once. -/
theorem scoresAlike_rekey_rekey_of_perm {relisted atOnce : ScoreTable κ σ}
    {onceRelisted : ScoreTable ι σ} {rename : κ → ι} {outer : ι → μ}
    (distinct : table.Distinct) (nonpositive : table.Nonpositive)
    (first : table.entries.Perm relisted.entries)
    (second : (relisted.rekey rename).entries.Perm onceRelisted.entries)
    (direct : table.entries.Perm atOnce.entries) :
    (onceRelisted.rekey outer).ScoresAlike (atOnce.rekey (outer ∘ rename)) := by
  have relistedDistinct := distinct.of_perm first
  have relistedNonpositive := nonpositive.of_perm distinct first
  have onceAlike := scoresAlike_rekey_of_perm distinct_rekey
    (nonpositive_rekey relistedDistinct relistedNonpositive) second outer
  have composed :=
    scoresAlike_rekey_rekey relistedDistinct relistedNonpositive rename outer
  have relistedAlike := scoresAlike_rekey_of_perm distinct nonpositive first (outer ∘ rename)
  have directAlike := scoresAlike_rekey_of_perm distinct nonpositive direct (outer ∘ rename)
  exact ((onceAlike.trans composed).trans relistedAlike).trans directAlike.symm

end

end ScoreTable

end ChartParsing
