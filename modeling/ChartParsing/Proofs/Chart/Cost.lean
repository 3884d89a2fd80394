import Mathlib.Data.Finset.Card
import Mathlib.Data.Nat.Choose.Basic
import ChartParsing.Chart.Cost
import ChartParsing.Proofs.Grammar.WellFormed

/-!
# The cost of whole charts

A chart without pruned cells takes as many edges for one binary rule as for any other, so
its cost is the number of rules times the cost of one rule.  For an inside chart that is
one edge for each way to split a span of the sentence (`splitCount`), and for an outside
chart twice as many: the spans beside a span on its left are as many as those on its
right, and either are as many as the splits.

The sums over spans are brought down to binomial coefficients row by row, each row being
the spans with one start.
-/

namespace ChartParsing

/-! ## Sums over places -/

section Sums

variable {α β : Type}

@[simp]
theorem sumOver_nil (edges : α → Nat) : sumOver [] edges = 0 :=
  rfl

@[simp]
theorem sumOver_cons (place : α) (places : List α) (edges : α → Nat) :
    sumOver (place :: places) edges = edges place + sumOver places edges :=
  rfl

theorem sumOver_congr {places : List α} {edges others : α → Nat}
    (same : ∀ place ∈ places, edges place = others place) :
    sumOver places edges = sumOver places others := by
  induction places with
  | nil => rfl
  | cons place places inductionHypothesis =>
      rcases List.forall_mem_cons.mp same with ⟨here, later⟩
      rw [sumOver_cons, sumOver_cons, here, inductionHypothesis later]

theorem sumOver_append (places others : List α) (edges : α → Nat) :
    sumOver (places ++ others) edges = sumOver places edges + sumOver others edges := by
  induction places with
  | nil => simp
  | cons place places inductionHypothesis => simp [inductionHypothesis, Nat.add_assoc]

theorem sumOver_map (f : α → β) (places : List α) (edges : β → Nat) :
    sumOver (places.map f) edges = sumOver places fun place => edges (f place) := by
  induction places with
  | nil => rfl
  | cons place places inductionHypothesis => simp [inductionHypothesis]

theorem sumOver_flatMap (f : α → List β) (places : List α) (edges : β → Nat) :
    sumOver (places.flatMap f) edges =
      sumOver places fun place => sumOver (f place) edges := by
  induction places with
  | nil => rfl
  | cons place places inductionHypothesis =>
      simp [sumOver_append, inductionHypothesis]

theorem sumOver_add (places : List α) (edges others : α → Nat) :
    (sumOver places fun place => edges place + others place) =
      sumOver places edges + sumOver places others := by
  induction places with
  | nil => rfl
  | cons place places inductionHypothesis =>
      rw [sumOver_cons, sumOver_cons, sumOver_cons, inductionHypothesis]
      omega

theorem sumOver_mul (factor : Nat) (places : List α) (edges : α → Nat) :
    (sumOver places fun place => factor * edges place) = factor * sumOver places edges := by
  induction places with
  | nil => rfl
  | cons place places inductionHypothesis =>
      rw [sumOver_cons, sumOver_cons, inductionHypothesis, Nat.mul_add]

theorem sumOver_const (places : List α) (edges : Nat) :
    (sumOver places fun _ => edges) = places.length * edges := by
  induction places with
  | nil => simp
  | cons place places inductionHypothesis =>
      simp [inductionHypothesis, Nat.succ_mul, Nat.add_comm]

/-- Counting a place where it occurs. -/
theorem sumOver_ite_eq [DecidableEq α] (place : α) (places : List α) :
    (sumOver places fun other => if other = place then 1 else 0) = places.count place := by
  induction places with
  | nil => rfl
  | cons other places inductionHypothesis =>
      simp [inductionHypothesis, List.count_cons, Nat.add_comm]

theorem sumOver_range_succ (count : Nat) (edges : Nat → Nat) :
    sumOver (List.range (count + 1)) edges =
      edges 0 + sumOver (List.range count) fun place => edges (place + 1) := by
  rw [List.range_succ_eq_map, sumOver_cons, sumOver_map]

end Sums

/-! ## Splits of spans -/

/-- The ways to split a span of a sentence in two. -/
def splitCount (length : Nat) : Nat :=
  (length + 1) * length * (length - 1) / 6

theorem splitCount_eq_choose (length : Nat) : splitCount length = (length + 1).choose 3 := by
  have arrangements : Nat.factorial 3 = 6 := rfl
  rw [Nat.choose_eq_descFactorial_div_factorial, arrangements]
  simp [splitCount, Nat.descFactorial_succ, Nat.mul_comm]

section Rows

/-- The sum of the numbers below a bound, downwards. -/
theorem sumOver_descending (count : Nat) :
    (sumOver (List.range count) fun place => count - 1 - place) = count.choose 2 := by
  induction count with
  | zero => rfl
  | succ count inductionHypothesis =>
      have rest : (sumOver (List.range count) fun place => count + 1 - 1 - (place + 1)) =
          count.choose 2 := by
        rw [← inductionHypothesis]
        exact sumOver_congr fun place _ => by omega
      rw [sumOver_range_succ, rest, Nat.choose_succ_succ', Nat.choose_one_right]
      rfl

theorem sumOver_ascending (count : Nat) :
    (sumOver (List.range count) fun place => place) = count.choose 2 := by
  induction count with
  | zero => rfl
  | succ count inductionHypothesis =>
      rw [sumOver_range_succ, sumOver_add, inductionHypothesis, sumOver_const, List.length_range,
        Nat.choose_succ_succ', Nat.choose_one_right, Nat.zero_add, Nat.mul_one, Nat.add_comm]

/-- Any two ends of the spans with one start make a split of the wider of the two. -/
theorem sumOver_choose (length : Nat) :
    (sumOver (List.range length) fun start => (length - start).choose 2) =
      splitCount length := by
  rw [splitCount_eq_choose]
  induction length with
  | zero => rfl
  | succ length inductionHypothesis =>
      have rest : (sumOver (List.range length) fun start =>
          (length + 1 - (start + 1)).choose 2) = (length + 1).choose 3 := by
        rw [← inductionHypothesis]
        exact sumOver_congr fun start _ => by rw [Nat.add_sub_add_right]
      rw [sumOver_range_succ, rest, Nat.choose_succ_succ' (length + 1) 2]
      rfl

theorem sumOver_starts (length : Nat) :
    (sumOver (List.range length) fun start => (length - start) * start) =
      splitCount length := by
  rw [splitCount_eq_choose]
  induction length with
  | zero => rfl
  | succ length inductionHypothesis =>
      have widths : (sumOver (List.range length) fun start => length - start) =
          (length + 1).choose 2 := by
        have descending := sumOver_descending (length + 1)
        rw [List.range_succ, sumOver_append] at descending
        simpa using descending
      have rest : (sumOver (List.range length) fun start =>
          (length + 1 - (start + 1)) * (start + 1)) =
            (length + 1).choose 3 + (length + 1).choose 2 := by
        rw [← inductionHypothesis, ← widths, ← sumOver_add]
        exact sumOver_congr fun start _ => by rw [Nat.add_sub_add_right, Nat.mul_succ]
      rw [sumOver_range_succ, rest, Nat.mul_zero, Nat.zero_add,
        Nat.choose_succ_succ' (length + 1) 2, Nat.add_comm]

end Rows

/-- A sum over the spans of a sentence is taken start by start. -/
theorem sumOver_spans (length : Nat) (edges : Nat × Nat → Nat) :
    sumOver (spans length) edges =
      sumOver (List.range length) fun start =>
        sumOver (List.range (length - start)) fun place => edges (start, start + 1 + place) := by
  rw [spans, sumOver_flatMap]
  refine sumOver_congr fun start _ => ?_
  rw [sumOver_map, List.range'_eq_map_range, sumOver_map]

theorem sumOver_spans_middles (length : Nat) :
    (sumOver (spans length) fun span => (middles span.1 span.2).length) =
      splitCount length := by
  rw [sumOver_spans, ← sumOver_choose]
  refine sumOver_congr fun start _ => ?_
  rw [← sumOver_ascending]
  refine sumOver_congr fun place _ => ?_
  simp [middles]

theorem sumOver_spans_start (length : Nat) :
    (sumOver (spans length) fun span => span.1) = splitCount length := by
  rw [sumOver_spans, ← sumOver_starts]
  refine sumOver_congr fun start _ => ?_
  rw [sumOver_const, List.length_range]

theorem sumOver_spans_rest (length : Nat) :
    (sumOver (spans length) fun span => length - span.2) = splitCount length := by
  rw [sumOver_spans, ← sumOver_choose]
  refine sumOver_congr fun start _ => ?_
  rw [← sumOver_descending]
  exact sumOver_congr fun place _ => by omega

/-! ## Rules -/

/-- Selecting rules by a label distributes them over the labels. -/
theorem RuleIndex.sumOver_length_rules {σ : Type} {count : Nat} {key : BinaryRule σ → LabelId}
    {rules : List (BinaryRule σ)} (known : ∀ rule ∈ rules, key rule < count) :
    (sumOver (List.range count) fun label => ((select count key rules).rules label).length) =
      rules.length := by
  have selected : ∀ label ∈ List.range count, ((select count key rules).rules label).length =
      (rules.filter fun rule => key rule == label).length := by
    intro label member
    rw [rules_select key rules (List.mem_range.mp member)]
  rw [sumOver_congr selected]
  clear selected
  induction rules with
  | nil => simp [sumOver_const]
  | cons rule rules inductionHypothesis =>
      rcases List.forall_mem_cons.mp known with ⟨here, later⟩
      have once : (sumOver (List.range count) fun label => if label = key rule then 1 else 0) =
          1 := by
        rw [sumOver_ite_eq]
        exact List.count_eq_one_of_mem List.nodup_range (List.mem_range.mpr here)
      have counted : ∀ label ∈ List.range count,
          ((rule :: rules).filter fun rule => key rule == label).length =
            (if label = key rule then 1 else 0) +
              (rules.filter fun rule => key rule == label).length := by
        intro label _
        by_cases same : key rule = label
        · simp [same, Nat.add_comm]
        · simp [same, Ne.symm same]
      rw [sumOver_congr counted, sumOver_add, once, inductionHypothesis later,
        List.length_cons, Nat.add_comm]

namespace Grammar

variable {σ : Type}

/-- The distinct binary rules of a grammar, whatever their scores. -/
def binaryForms (grammar : Grammar σ) : Finset (LabelId × LabelId × LabelId) :=
  (grammar.binary.map fun rule => (rule.parent, rule.left, rule.right)).toFinset

variable [Score σ] {grammar : Grammar σ}

/-- A declared grammar lists each of its binary rules once. -/
theorem card_binaryForms (declared : grammar.IsDeclared) :
    grammar.binaryForms.card = grammar.binary.length := by
  rcases declared with ⟨root, declarations, accepted⟩
  rcases declare_eq_ok_iff.mp accepted with ⟨-, rfl⟩
  have distinct : ((merge root declarations).binary.map fun rule =>
      (rule.parent, rule.left, rule.right)).Nodup := by
    have keys := ScoreTable.distinct_ofList
      (declarations.filterMap (Declaration.binaryEntry? (declaredLabels root declarations)))
    simp only [merge, ofRules, List.map_map]
    exact keys
  rw [binaryForms, List.toFinset_card_of_nodup distinct, List.length_map]

namespace WellFormed

variable (wellFormed : grammar.WellFormed)

include wellFormed

theorem sumOver_byParent :
    (sumOver grammar.labels.ids fun label => (grammar.byParent.rules label).length) =
      grammar.binary.length := by
  rw [wellFormed.indexed]
  exact RuleIndex.sumOver_length_rules fun rule member =>
    (wellFormed.binaryKnown rule member).1

theorem sumOver_byLeft :
    (sumOver grammar.labels.ids fun label => (grammar.byLeft.rules label).length) =
      grammar.binary.length := by
  rw [wellFormed.indexed]
  exact RuleIndex.sumOver_length_rules fun rule member =>
    (wellFormed.binaryKnown rule member).2.1

theorem sumOver_byRight :
    (sumOver grammar.labels.ids fun label => (grammar.byRight.rules label).length) =
      grammar.binary.length := by
  rw [wellFormed.indexed]
  exact RuleIndex.sumOver_length_rules fun rule member =>
    (wellFormed.binaryKnown rule member).2.2

/-- The edges of an outside chart. -/
theorem outsideCost_eq (length : Nat) :
    grammar.outsideCost length = 2 * (grammar.binary.length * splitCount length) := by
  have beside : ∀ span ∈ spans length,
      (sumOver grammar.labels.ids fun label =>
        grammar.contextCost length label span.1 span.2) =
      grammar.binary.length * span.1 + grammar.binary.length * (length - span.2) := by
    rintro ⟨start, stop⟩ _
    simp only [contextCost, sumOver_add, Nat.mul_comm _ start, Nat.mul_comm _ (length - stop),
      sumOver_mul, wellFormed.sumOver_byRight, wellFormed.sumOver_byLeft]
  calc
    grammar.outsideCost length =
        sumOver (spans length) fun span =>
          grammar.binary.length * span.1 + grammar.binary.length * (length - span.2) :=
      sumOver_congr beside
    _ = grammar.binary.length * splitCount length +
          grammar.binary.length * splitCount length := by
      rw [sumOver_add, sumOver_mul, sumOver_mul, sumOver_spans_start, sumOver_spans_rest]
    _ = 2 * (grammar.binary.length * splitCount length) := (Nat.two_mul _).symm

end WellFormed

end Grammar

/-- The edges of an inside chart without pruned cells. -/
theorem Pass.cost_of_nothing {σ : Type} [Score σ] {model : Model σ}
    (wellFormed : model.grammar.WellFormed) (words : List String) :
    Pass.cost ⟨model, words, .nothing⟩ =
      model.grammar.binary.length * splitCount words.length := by
  have whole : ∀ span ∈ spans words.length,
      (sumOver model.grammar.labels.ids fun label =>
        Pass.cellCost ⟨model, words, .nothing⟩ label span.1 span.2) =
      model.grammar.binary.length * (middles span.1 span.2).length := by
    rintro ⟨start, stop⟩ _
    simp only [cellCost, Pruned.nothing, Bool.false_eq_true, if_false,
      Nat.mul_comm _ (middles start stop).length, sumOver_mul, wellFormed.sumOver_byParent]
  calc
    Pass.cost ⟨model, words, .nothing⟩ =
        sumOver (spans words.length) fun span =>
          model.grammar.binary.length * (middles span.1 span.2).length :=
      sumOver_congr whole
    _ = model.grammar.binary.length * splitCount words.length := by
      rw [sumOver_mul, sumOver_spans_middles]

end ChartParsing
