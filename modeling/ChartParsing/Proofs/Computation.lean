/-!
# Computations that can fail

A computation in steps succeeds if each of its steps does, and fails with the first
of them that fails.  With `bind_eq_ok_iff` and `bind_eq_error_iff` an outcome is taken
apart step by step.

Two computations agree (`Agree`) if they fail alike or succeed with results that are
related; they do if they agree step by step.
-/

namespace ChartParsing

variable {ε α β : Type}

section

variable {first : Except ε α} {next : α → Except ε β}

/-- A computation that goes on after a step succeeds if both parts do. -/
theorem bind_eq_ok_iff {result : β} :
    (first >>= next) = .ok result ↔
      ∃ value, first = .ok value ∧ next value = .ok result := by
  cases first with
  | error error => simp [bind, Except.bind]
  | ok value => simp [bind, Except.bind]

/-- A computation that goes on after a step fails if one of its parts does. -/
theorem bind_eq_error_iff {error : ε} :
    (first >>= next) = .error error ↔
      first = .error error ∨ ∃ value, first = .ok value ∧ next value = .error error := by
  cases first with
  | error other => simp [bind, Except.bind]
  | ok value => simp [bind, Except.bind]

end

/-- What is found has been found with all that is known of it. -/
theorem exists_of_map_eq_ok {outcome : Except ε (Option α)} {f : α → β} {value : β}
    (known : outcome.map (Option.map f) = .ok (some value)) :
    ∃ found, outcome = .ok (some found) ∧ f found = value := by
  cases outcome with
  | error error => cases known
  | ok found? =>
      rcases Option.map_eq_some_iff.mp (Except.ok.inj known) with ⟨found, rfl, same⟩
      exact ⟨found, rfl, same⟩

/-- A value taken out of a computation is its result. -/
theorem eq_ok_toOption_get {computation : Except ε α}
    (succeeded : computation.toOption.isSome = true) :
    computation = .ok (computation.toOption.get succeeded) := by
  cases computation with
  | error error => cases succeeded
  | ok value => rfl

/-! ## Computations that agree -/

/-- Two computations fail with the same error or succeed with related results. -/
inductive Agree {α β : Type} (Related : α → β → Prop) : Except ε α → Except ε β → Prop
  | error (error : ε) : Agree Related (.error error) (.error error)
  | ok {value : α} {other : β} : Related value other → Agree Related (.ok value) (.ok other)

namespace Agree

variable {γ δ : Type} {Related : α → β → Prop} {Outcomes : γ → δ → Prop}

/-- Computations agree if their first steps do and all that follows related results. -/
theorem bind {first : Except ε α} {other : Except ε β} {next : α → Except ε γ}
    {otherNext : β → Except ε δ} (agree : Agree Related first other)
    (follow : ∀ value result, Related value result →
      Agree Outcomes (next value) (otherNext result)) :
    Agree Outcomes (first >>= next) (other >>= otherNext) := by
  cases agree with
  | error error => exact .error error
  | ok related => exact follow _ _ related

/-- Computations that agree can be followed by ones with the same outcomes. -/
theorem bind_eq {first : Except ε α} {other : Except ε β} {next : α → Except ε γ}
    {otherNext : β → Except ε γ} (agree : Agree Related first other)
    (follow : ∀ value result, Related value result → next value = otherNext result) :
    first >>= next = other >>= otherNext := by
  cases agree with
  | error error => rfl
  | ok related => exact follow _ _ related

/-- What is related are the outcomes. -/
theorem known {first : Except ε α} {other : Except ε β} (agree : Agree Related first other) :
    Agree (fun value result => first = .ok value ∧ Related value result) first other := by
  cases agree with
  | error error => exact .error error
  | ok related => exact .ok ⟨rfl, related⟩

/-- Computations agree in everything that follows from what they agree in. -/
theorem imp {Implied : α → β → Prop} {first : Except ε α} {other : Except ε β}
    (agree : Agree Related first other)
    (implies : ∀ value result, Related value result → Implied value result) :
    Agree Implied first other := by
  cases agree with
  | error error => exact .error error
  | ok related => exact .ok (implies _ _ related)

/-- What follows without failing keeps computations in agreement. -/
theorem map_right {Implied : α → γ → Prop} {first : Except ε α} {other : Except ε β}
    {f : β → γ} (agree : Agree Related first other)
    (implies : ∀ value result, Related value result → Implied value (f result)) :
    Agree Implied first (do return f (← other)) := by
  cases agree with
  | error error => exact .error error
  | ok related => exact .ok (implies _ _ related)

/-- Computations with the same first step agree if all that follows it does. -/
theorem bind_same {first : Except ε α} {next : α → Except ε γ} {otherNext : α → Except ε δ}
    (follow : ∀ value, Agree Outcomes (next value) (otherNext value)) :
    Agree Outcomes (first >>= next) (first >>= otherNext) := by
  cases first with
  | error error => exact .error error
  | ok value => exact follow value

end Agree

end ChartParsing
