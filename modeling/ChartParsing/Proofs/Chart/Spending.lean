import ChartParsing.Parser.Config
import ChartParsing.Proofs.Chart.Cost
import ChartParsing.Proofs.Computation

/-!
# Loops that spend edges on tables

A loop over the cells of a chart carries the edges spent so far and the tables that it
fills.  `Spends` splits what is said of a step in two: what it spends, or the error that it
fails with, is a computation on edges alone, and what the tables hold is an invariant.  Both
follow for a loop from its steps, with an invariant that counts the steps
(`Spends.foldlM_range`).

What loops of charges spend is the sum of the charges (`Config.foldlM_charge`).
-/

namespace ChartParsing

variable {ε τ β : Type}

/-- From tables of which `before` holds, a step spends what `spending` says or fails as it
does, and leaves tables of which `after` holds. -/
def Spends (spending : Nat → Except ε Nat) (before after : τ → Prop)
    (step : Nat × τ → Except ε (Nat × τ)) : Prop :=
  ∀ spent tables, before tables →
    Agree (fun total work => work.1 = total ∧ after work.2) (spending spent)
      (step (spent, tables))

namespace Spends

/-- Less may be known before a step, and more after it. -/
theorem weaken {spending : Nat → Except ε Nat} {before after known left : τ → Prop}
    {step : Nat × τ → Except ε (Nat × τ)} (spends : Spends spending before after step)
    (sooner : ∀ tables, known tables → before tables)
    (later : ∀ tables, after tables → left tables) : Spends spending known left step := by
  intro spent tables holds
  exact (spends spent tables (sooner tables holds)).imp fun _ _ result =>
    ⟨result.1, later _ result.2⟩

/-- Tables that are filled without edges. -/
theorem andThen {spending : Nat → Except ε Nat} {before middle after : τ → Prop}
    {step : Nat × τ → Except ε (Nat × τ)}
    (spends : Spends spending before middle step) (fill : τ → τ)
    (fills : ∀ tables, middle tables → after (fill tables)) :
    Spends spending before after fun work => do
      let (spent, tables) ← step work
      return (spent, fill tables) := by
  intro spent tables holds
  exact (spends spent tables holds).map_right fun _ _ result =>
    ⟨result.1, fills _ result.2⟩

variable {spending : Nat → Nat → Except ε Nat} (holds : Nat → τ → Prop)
  {step : Nat × τ → Nat → Except ε (Nat × τ)} {count : Nat}

/-- A loop keeps an invariant that counts its steps. -/
theorem foldlM_range
    (each : ∀ place < count,
      Spends (spending · place) (holds place) (holds (place + 1)) (step · place)) :
    Spends (fun spent => (List.range count).foldlM spending spent) (holds 0) (holds count)
      fun work => (List.range count).foldlM step work := by
  intro spent tables start
  induction count with
  | zero => exact .ok ⟨rfl, start⟩
  | succ last inductionHypothesis =>
      dsimp only
      rw [List.range_succ, List.foldlM_append, List.foldlM_append]
      apply (inductionHypothesis fun place before => each place (Nat.lt_succ_of_lt before)).bind
      rintro _ ⟨total, filled⟩ ⟨rfl, reached⟩
      rw [List.foldlM_cons, List.foldlM_cons]
      simp only [List.foldlM_nil, bind_pure]
      exact each last (Nat.lt_succ_self last) total filled reached

/-- A loop that counts down. -/
theorem foldlM_range_reverse
    (each : ∀ place < count,
      Spends (spending · place) (holds (place + 1)) (holds place) (step · place)) :
    Spends (fun spent => (List.range count).reverse.foldlM spending spent) (holds count)
      (holds 0) fun work => (List.range count).reverse.foldlM step work := by
  induction count with
  | zero => exact fun spent tables start => .ok ⟨rfl, start⟩
  | succ last inductionHypothesis =>
      intro spent tables start
      dsimp only
      rw [List.range_succ, List.reverse_append, List.reverse_singleton, List.singleton_append,
        List.foldlM_cons, List.foldlM_cons]
      apply (each last (Nat.lt_succ_self last) spent tables start).bind
      rintro _ ⟨total, filled⟩ ⟨rfl, reached⟩
      exact inductionHypothesis (fun place before => each place (Nat.lt_succ_of_lt before))
        total filled reached

end Spends

/-- A loop that cannot fail keeps an invariant that counts its steps. -/
theorem foldl_range_holds (holds : Nat → τ → Prop) {step : τ → Nat → τ} {count : Nat}
    {start : τ} (initial : holds 0 start)
    (each : ∀ place < count, ∀ tables, holds place tables →
      holds (place + 1) (step tables place)) :
    holds count ((List.range count).foldl step start) := by
  induction count with
  | zero => exact initial
  | succ last inductionHypothesis =>
      rw [List.range_succ, List.foldl_append]
      exact each last (Nat.lt_succ_self last) _
        (inductionHypothesis fun place before => each place (Nat.lt_succ_of_lt before))

namespace Config

variable {σ : Type} {config : Config σ}

/-- A search that charges before each of its steps charges first and searches then. -/
theorem foldlM_charge_search (config : Config σ) (places : List β) (edges : β → Nat)
    (search : τ → β → τ) (spent : Nat) (value : τ) :
    (places.foldlM (fun work place => do
        let spent ← config.charge work.1 (edges place)
        return (spent, search work.2 place)) (spent, value) :
          Except (ParseError σ) (Nat × τ)) = do
      let total ← places.foldlM (fun spent place => config.charge spent (edges place)) spent
      return (total, places.foldl search value) := by
  induction places generalizing spent value with
  | nil => rfl
  | cons place rest inductionHypothesis =>
      rw [List.foldlM_cons, List.foldlM_cons, List.foldl_cons]
      cases config.charge spent (edges place) with
      | error error => rfl
      | ok total => exact inductionHypothesis total (search value place)

/-- What has been spent is within the budget. -/
def Within (config : Config σ) (spent : Nat) : Prop :=
  config.charge spent 0 = .ok spent

theorem within_zero : config.Within 0 := by
  unfold Within charge
  split <;> rfl

/-- Two charges are one charge of both. -/
theorem charge_charge (spent edges more : Nat) :
    (config.charge spent edges >>= (config.charge · more)) =
      config.charge spent (edges + more) := by
  unfold charge
  dsimp only
  rw [← Nat.add_assoc]
  cases config.maxEdges with
  | none => rfl
  | some max =>
      by_cases exceeded : max < spent + edges
      · simp only [if_pos exceeded, if_pos (Nat.lt_add_right more exceeded)]
        rfl
      · simp only [if_neg exceeded]
        rfl

/-- A charge that succeeds stays within the budget. -/
theorem within_of_charge {spent edges total : Nat}
    (charged : config.charge spent edges = .ok total) : config.Within total := by
  have again := @charge_charge _ config spent edges 0
  rw [Nat.add_zero, charged] at again
  exact again

/-- A loop charges the sum of what its steps charge. -/
theorem foldlM_charge {places : List β} {edges : β → Nat}
    {step : Nat → β → Except (ParseError σ) Nat}
    (each : ∀ place ∈ places, ∀ spent, config.Within spent →
      step spent place = config.charge spent (edges place))
    {spent : Nat} (within : config.Within spent) :
    places.foldlM step spent = config.charge spent (sumOver places edges) := by
  induction places generalizing spent with
  | nil => exact within.symm
  | cons place rest inductionHypothesis =>
      rcases List.forall_mem_cons.mp each with ⟨here, later⟩
      rw [List.foldlM_cons, here spent within, sumOver_cons, ← charge_charge]
      cases charged : config.charge spent (edges place) with
      | error error => rfl
      | ok total => exact inductionHypothesis later (within_of_charge charged)

end Config

end ChartParsing
