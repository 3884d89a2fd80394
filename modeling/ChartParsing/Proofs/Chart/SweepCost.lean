import Mathlib.Data.List.Perm.Subperm
import ChartParsing.Proofs.Chart.Sweep

/-!
# What a sweep spends is checked and charged at once

The narrowest spans come first in a sweep and cost nothing, and all other spans are of
several words and meet no tagging.  So a lexicon that scores a word above zero is found out
before anything has been charged, and the charges add up to the cost of the chart
(`Sweep.insideSpending_eq`).  The rows of a sweep are made up of the spans of the sentence
(`spans_perm_rows`).
-/

namespace ChartParsing

/-! ## Spans row by row -/

theorem sumOver_perm {α : Type} {places others : List α} (same : places.Perm others)
    (edges : α → Nat) : sumOver places edges = sumOver others edges := by
  induction same with
  | nil => rfl
  | cons place _ inductionHypothesis => rw [sumOver_cons, sumOver_cons, inductionHypothesis]
  | swap place other rest =>
      rw [sumOver_cons, sumOver_cons, sumOver_cons, sumOver_cons, Nat.add_left_comm]
  | trans _ _ first second => exact first.trans second

theorem mem_spans {length start stop : Nat} :
    (start, stop) ∈ spans length ↔ start < stop ∧ stop ≤ length := by
  simp only [spans, List.mem_flatMap, List.mem_range, List.mem_map, List.mem_range'_1,
    Prod.mk.injEq]
  constructor
  · rintro ⟨first, inside, last, between, rfl, rfl⟩
    omega
  · rintro ⟨nonempty, bounded⟩
    exact ⟨start, by omega, stop, by omega, rfl, rfl⟩

theorem nodup_spans (length : Nat) : (spans length).Nodup := by
  rw [spans, List.nodup_flatMap]
  constructor
  · intro start _
    exact (List.nodup_range').map fun _ _ same => (Prod.mk.inj same).2
  · refine (List.nodup_range).imp ?_
    intro start other different span first second
    rcases List.mem_map.mp first with ⟨_, _, rfl⟩
    rcases List.mem_map.mp second with ⟨_, _, same⟩
    exact different (Prod.mk.inj same).1.symm

/-- The spans that leave out a number of words, as start and stop. -/
def rowSpans (length missing : Nat) : List (Nat × Nat) :=
  (List.range (missing + 1)).map fun start => (start, length - (missing - start))

/-- The rows of a chart are made up of the spans. -/
theorem spans_perm_rows (length : Nat) :
    (spans length).Perm ((List.range length).flatMap (rowSpans length)) := by
  have nodup : ((List.range length).flatMap (rowSpans length)).Nodup := by
    rw [List.nodup_flatMap]
    constructor
    · intro missing _
      exact (List.nodup_range).map fun _ _ same => (Prod.mk.inj same).1
    · refine List.nodup_range.imp_of_mem ?_
      intro missing other inside otherInside different span first second
      rw [List.mem_range] at inside otherInside
      rcases List.mem_map.mp first with ⟨start, startBound, rfl⟩
      rcases List.mem_map.mp second with ⟨other, otherBound, same⟩
      rw [List.mem_range] at startBound otherBound
      rcases Prod.mk.inj same with ⟨rfl, stops⟩
      omega
  rw [List.perm_ext_iff_of_nodup (nodup_spans length) nodup]
  rintro ⟨start, stop⟩
  simp only [mem_spans, rowSpans, List.mem_flatMap, List.mem_map, List.mem_range, Prod.mk.injEq]
  constructor
  · rintro ⟨nonempty, bounded⟩
    exact ⟨start + (length - stop), by omega, start, by omega, rfl, by omega⟩
  · rintro ⟨missing, inside, first, within, rfl, rfl⟩
    omega

/-- A sum over spans is taken row by row. -/
theorem sumOver_spans_rows (length : Nat) (edges : Nat × Nat → Nat) :
    sumOver (spans length) edges =
      sumOver (List.range length) fun missing => sumOver (rowSpans length missing) edges := by
  rw [sumOver_perm (spans_perm_rows length), sumOver_flatMap]

/-! ## Taggings -/

/-- Fail with an error if there is one, and spend nothing. -/
def refuse {ε : Type} (spent : Nat) : Option ε → Except ε Nat
  | some error => .error error
  | none => .ok spent

/-- A loop of checks fails with the first error that is found. -/
theorem foldlM_check {ε β : Type} {places : List β} (check : β → Option ε)
    {step : Nat → β → Except ε Nat} (spent : Nat)
    (each : ∀ place ∈ places, step spent place = refuse spent (check place)) :
    places.foldlM step spent = refuse spent (places.findSome? check) := by
  induction places with
  | nil => rfl
  | cons place rest inductionHypothesis =>
      rcases List.forall_mem_cons.mp each with ⟨here, later⟩
      rw [List.foldlM_cons, here, List.findSome?_cons]
      cases check place with
      | some error => rfl
      | none => exact inductionHypothesis later

/-! ## Rows of cells -/

namespace Pass

variable {σ : Type} (pass : Pass σ)

/-- The edges of the built cells in a row. -/
def rowCost (missing : Nat) : Nat :=
  sumOver (rowSpans pass.words.length missing) fun span =>
    sumOver (List.range pass.model.grammar.labels.size) fun label =>
      pass.cellCost label span.1 span.2

theorem cost_eq_rows :
    pass.cost = sumOver (List.range pass.words.length) pass.rowCost :=
  sumOver_spans_rows _ _

/-- The row of the single words costs nothing. -/
theorem rowCost_words {last : Nat} (length : pass.words.length = last + 1) :
    pass.rowCost last = 0 := by
  have free {start : Nat} (inside : start ∈ List.range (last + 1)) (label : LabelId) :
      pass.cellCost label start (last + 1 - (last - start)) = 0 := by
    rw [List.mem_range] at inside
    have stop : last + 1 - (last - start) = start + 1 := by omega
    simp [Pass.cellCost, stop, middles]
  rw [rowCost, rowSpans, sumOver_map, length]
  refine (sumOver_congr fun start inside => ?_).trans (sumOver_const _ 0)
  exact (sumOver_congr fun label _ => free inside label).trans (sumOver_const _ 0)

end Pass

namespace Sweep

variable {σ : Type} [Score σ] {sweep : Sweep σ} {pruned : Pruned} {spent : Nat}

section

variable [Score.Monotone σ] (follows : sweep.Follows pruned)

include follows

/-- Over a single word a built cell is checked and costs nothing. -/
theorem buildSpending_word {start label : Nat} (inside : start < sweep.words.length)
    (known : label < sweep.model.grammar.labels.size) :
    sweep.buildSpending start (sweep.words.length - 1 - start) spent label =
      refuse spent ((sweep.pass pruned).taggingErrorAt? start label) := by
  have valid : sweep.shape.Valid label start (sweep.words.length - 1 - start) :=
    ⟨known, by change _ < sweep.words.length; omega⟩
  have stop : sweep.words.length - (sweep.words.length - 1 - start) = start + 1 := by omega
  have same := follows .built _ _ _ valid
  rw [stop] at same
  unfold buildSpending
  by_cases skipped : sweep.skips .built label start (sweep.words.length - 1 - start) = true
  · rw [if_pos skipped]
    rw [skipped] at same
    simp [Pass.taggingErrorAt?, ← same, refuse]
  · rw [if_neg skipped, if_pos (by omega),
      taggingScore_eq (same.symm.trans (Bool.not_eq_true _ ▸ skipped))]
    cases (sweep.pass pruned).taggingErrorAt? start label <;> rfl

/-- The row of the single words is checked. -/
theorem wordRow_spending (spent : Nat) (nonempty : 0 < sweep.words.length) :
    sweep.rowSpending spent (sweep.words.length - 1) = (do
      (sweep.pass pruned).checkTaggings
      return spent) := by
  rw [rowSpending, Nat.sub_add_cancel nonempty]
  refine (foldlM_check (fun start => (List.range sweep.model.grammar.labels.size).findSome?
    ((sweep.pass pruned).taggingErrorAt? start)) spent fun start inside =>
      foldlM_check _ spent fun label known => buildSpending_word follows
        (List.mem_range.mp inside) (List.mem_range.mp known)).trans ?_
  refine (congrArg (refuse spent)
    (sweep.pass pruned).taggingError?_eq_findSome?.symm).trans ?_
  unfold Pass.checkTaggings
  cases (sweep.pass pruned).taggingError? <;> rfl

omit [Score.Monotone σ] in
/-- Over several words a built cell is charged what it costs. -/
theorem buildSpending_charge {start right label : Nat}
    (several : start + right + 1 < sweep.words.length)
    (known : label < sweep.model.grammar.labels.size) (within : sweep.config.Within spent) :
    sweep.buildSpending start right spent label =
      sweep.config.charge spent
        ((sweep.pass pruned).cellCost label start (sweep.words.length - right)) := by
  have valid : sweep.shape.Valid label start right :=
    ⟨known, by change _ < sweep.words.length; omega⟩
  have same := follows .built _ _ _ valid
  have splits : (middles start (sweep.words.length - right)).length =
      sweep.words.length - right - start - 1 := by
    rw [middles, List.length_range']
    omega
  unfold buildSpending Pass.cellCost
  by_cases skipped : sweep.skips .built label start right = true
  · rw [if_pos skipped, if_pos (same.symm.trans skipped)]
    exact within.symm
  · rw [if_neg skipped, if_neg (by omega), if_neg (fun dropped => skipped (same.trans dropped)),
      splits, Config.foldlM_charge (fun _ _ _ _ => rfl) within, sumOver_const]

omit [Score.Monotone σ] in
/-- A row of several words is charged what its cells cost. -/
theorem row_spending {missing : Nat} (several : missing + 1 < sweep.words.length)
    (within : sweep.config.Within spent) :
    sweep.rowSpending spent missing =
      sweep.config.charge spent ((sweep.pass pruned).rowCost missing) := by
  rw [Pass.rowCost, rowSpans, sumOver_map]
  apply Config.foldlM_charge _ within
  intro start inside spent within
  rw [List.mem_range] at inside
  apply Config.foldlM_charge _ within
  intro label known spent within
  exact buildSpending_charge follows (by omega) (List.mem_range.mp known) within

end

/-- A sweep spends what it would if the taggings were checked first and the cost of the whole
chart were charged then. -/
theorem insideSpending_eq [Score.Monotone σ] (follows : sweep.Follows pruned)
    (within : sweep.config.Within spent) :
    sweep.insideSpending spent = (do
      (sweep.pass pruned).checkTaggings
      sweep.config.charge spent (sweep.pass pruned).cost) := by
  have cost := (sweep.pass pruned).cost_eq_rows
  unfold insideSpending
  rcases Nat.eq_zero_or_pos sweep.words.length with empty | nonempty
  · have noWords : sweep.words = [] := List.eq_nil_of_length_eq_zero empty
    have accepted : (sweep.pass pruned).checkTaggings = .ok () := by
      simp [Pass.checkTaggings, Pass.taggingError?, noWords]
    rw [accepted, cost]
    simp only [empty, List.range_zero]
    exact within.symm
  · obtain ⟨last, length⟩ := Nat.exists_eq_add_one.mpr nonempty
    have rest : (List.range last).reverse.foldlM sweep.rowSpending spent =
        sweep.config.charge spent
          (sumOver (List.range last).reverse (sweep.pass pruned).rowCost) := by
      apply Config.foldlM_charge _ within
      intro missing inside spent within
      rw [List.mem_reverse, List.mem_range] at inside
      exact row_spending follows (by omega) within
    have words := wordRow_spending follows spent nonempty
    rw [length, Nat.add_sub_cancel] at words
    change _ = sumOver (List.range sweep.words.length) _ at cost
    rw [length, List.range_succ, sumOver_append, sumOver_cons, sumOver_nil,
      (sweep.pass pruned).rowCost_words length, ← sumOver_perm (List.reverse_perm _)] at cost
    rw [length, List.range_succ, List.reverse_append, List.reverse_singleton,
      List.singleton_append, List.foldlM_cons, words, cost]
    cases (sweep.pass pruned).checkTaggings with
    | error error => rfl
    | ok accepted => exact rest

end Sweep

end ChartParsing
