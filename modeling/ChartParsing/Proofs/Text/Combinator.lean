import ChartParsing.Text.Combinator

/-!
# Outcomes of combinators

Each combinator is taken apart by what its parts come to: it reads what they read (`_of_read`)
or refuses as they do (`_of_refused`).  Of two failures the further one counts, so that a
failure that reading has got past is replaced by the next one (`Failure.after_of_before`).
-/

namespace ChartParsing.Text

/-! ## Failures -/

namespace Failure

/-- Reading has not failed at a text or further on. -/
def Before (text : List Char) (failure? : Option Failure) : Prop :=
  ∀ failure ∈ failure?, text.length < failure.left.length

variable {failure other : Failure} {failure? : Option Failure} {text rest : List Char}
  {expected more : List String}

theorem before_none : Before text none :=
  fun _ member => nomatch member

theorem before_some_iff : Before text (some failure) ↔ text.length < failure.left.length := by
  simp [Before]

theorem Before.of_le (before : Before text failure?) (shorter : rest.length ≤ text.length) :
    Before rest failure? :=
  fun failure member => Nat.lt_of_le_of_lt shorter (before failure member)

/-- A failure further on replaces those before. -/
theorem after_of_before (before : Before other.left failure?) : other.after failure? = other := by
  cases failure? with
  | none => rfl
  | some failure => exact if_pos (before_some_iff.mp before)

/-- A failure is not replaced by one before it. -/
theorem after_of_lt (further : failure.left.length < other.left.length) :
    other.after (some failure) = failure :=
  (if_neg (Nat.lt_asymm further)).trans (if_pos further)

theorem length_after_some (other failure : Failure) :
    (other.after (some failure)).left.length =
      min failure.left.length other.left.length := by
  rcases Nat.lt_or_ge other.left.length failure.left.length with further | notFurther
  · rw [after_of_before (before_some_iff.mpr further), Nat.min_eq_right (Nat.le_of_lt further)]
  · rw [Nat.min_eq_left notFurther]
    unfold Failure.after merge
    dsimp only
    rw [if_neg (Nat.not_lt_of_le notFurther)]
    split <;> rfl

/-- The furthest failure is as far as any. -/
theorem length_after_le (other : Failure) (failure? : Option Failure) :
    (other.after failure?).left.length ≤ other.left.length := by
  cases failure? with
  | none => exact Nat.le_refl _
  | some failure => exact length_after_some other failure ▸ Nat.min_le_right _ _

/-- What has failed before a text still has when something else fails there. -/
theorem Before.after (before : Before text failure?) (here : text.length < other.left.length) :
    Before text (some (other.after failure?)) := by
  rw [before_some_iff]
  cases failure? with
  | none => exact here
  | some failure =>
      rw [length_after_some]
      exact Nat.lt_min.mpr ⟨before_some_iff.mp before, here⟩

/-- What is expected in the same place is put together. -/
theorem after_same :
    Failure.after ⟨text, more⟩ (some ⟨text, expected⟩) =
      ⟨text, expected ++ more.filter (!expected.contains ·)⟩ :=
  (if_neg (Nat.lt_irrefl _)).trans (if_neg (Nat.lt_irrefl _))

end Failure

/-! ## Skipped characters -/

variable {text rest : List Char} {c : Char}

/-- No character of a kind comes first. -/
def Ends (kind : Char → Bool) (text : List Char) : Prop :=
  ∀ c ∈ text.head?, kind c = false

section

variable {kind : Char → Bool}

theorem ends_nil : Ends kind [] :=
  fun _ first => nomatch first

theorem ends_cons_iff : Ends kind (c :: rest) ↔ kind c = false := by
  simp [Ends]

/-- What is not skipped begins otherwise. -/
theorem ends_dropWhile (kind : Char → Bool) (text : List Char) :
    Ends kind (text.dropWhile kind) := by
  intro c first
  have other := List.head?_dropWhile_not kind text
  rw [Option.mem_def.mp first] at other
  exact other

theorem Ends.dropWhile_eq (ends : Ends kind text) : text.dropWhile kind = text := by
  cases text with
  | nil => rfl
  | cons c rest => exact List.dropWhile_cons_of_neg (ne_true_of_eq_false (ends_cons_iff.mp ends))

theorem exists_cons_of_not_ends (begins : ¬Ends kind text) :
    ∃ c rest, text = c :: rest ∧ kind c = true := by
  cases text with
  | nil => exact absurd ends_nil begins
  | cons c rest => exact ⟨c, rest, rfl, by simpa [ends_cons_iff] using begins⟩

theorem length_dropWhile_le (kind : Char → Bool) (text : List Char) :
    (text.dropWhile kind).length ≤ text.length :=
  (List.dropWhile_suffix kind).length_le

end

/-! ## Combinators -/

namespace Combinator

open Failure

variable {α : Type} {p : Combinator α} {text rest : List Char}
  {failure? failed? : Option Failure} {value : α}

theorem many_of_refused (refused : p text failure? = (none, failed?)) :
    many p text failure? = (([], text), failed?) := by
  rw [many, refused]

theorem many_of_read (read : p text failure? = (some (value, rest), failed?))
    (shorter : rest.length < text.length) :
    many p text failure? =
      ((value :: (many p rest failed?).1.1, (many p rest failed?).1.2),
        (many p rest failed?).2) := by
  rw [many, read]
  exact if_pos shorter

section

variable {β : Type} {q : Combinator β} {f : α → β} {other : β} {lastRest : List Char}
  {lastFailed? : Option Failure}

theorem map_of_refused (refused : p text failure? = (none, failed?)) :
    p.map f text failure? = (none, failed?) := by
  unfold map
  rw [refused]

theorem map_of_read (read : p text failure? = (some (value, rest), failed?)) :
    p.map f text failure? = (some (f value, rest), failed?) := by
  unfold map
  rw [read]

theorem thenIgnore_of_refused (refused : p text failure? = (none, failed?)) :
    p.thenIgnore q text failure? = (none, failed?) := by
  unfold thenIgnore map followedBy
  rw [refused]

theorem thenIgnore_of_read (read : p text failure? = (some (value, rest), failed?))
    (behind : q rest failed? = (some (other, lastRest), lastFailed?)) :
    p.thenIgnore q text failure? = (some (value, lastRest), lastFailed?) := by
  unfold thenIgnore map followedBy
  rw [read]
  dsimp only
  rw [behind]

theorem thenIgnore_of_read_refused (read : p text failure? = (some (value, rest), failed?))
    (refused : q rest failed? = (none, lastFailed?)) :
    p.thenIgnore q text failure? = (none, lastFailed?) := by
  unfold thenIgnore map followedBy
  rw [read]
  dsimp only
  rw [refused]

end

theorem atLeastOnce_of_refused (refused : p text failure? = (none, failed?)) :
    p.atLeastOnce text failure? = (none, failed?) := by
  unfold atLeastOnce
  rw [refused]

theorem atLeastOnce_of_read (read : p text failure? = (some (value, rest), failed?)) :
    p.atLeastOnce text failure? =
      (some (value :: (many p rest failed?).1.1, (many p rest failed?).1.2),
        (many p rest failed?).2) := by
  unfold atLeastOnce
  rw [read]

theorem padded_of_refused {kind : Char → Bool}
    (refused : p (text.dropWhile kind) failure? = (none, failed?)) :
    p.padded kind text failure? = (none, failed?) := by
  unfold padded
  rw [refused]

theorem padded_of_read {kind : Char → Bool}
    (read : p (text.dropWhile kind) failure? = (some (value, rest), failed?)) :
    p.padded kind text failure? = (some (value, rest.dropWhile kind), failed?) := by
  unfold padded
  rw [read]

variable {label : String} {found? : Option (α × List Char)} {failure : Failure}

/-- A failure further on has its own name. -/
theorem labelled_of_further (read : p text none = (found?, some failure))
    (further : failure.left.length ≠ text.length) (before : Before failure.left failure?) :
    p.labelled label text failure? = (found?, some failure) := by
  unfold labelled
  rw [read]
  dsimp only
  rw [if_neg further, after_of_before before]

/-- A failure where reading begins is given a name. -/
theorem labelled_of_here (read : p text none = (found?, some failure))
    (here : failure.left = text) :
    p.labelled label text failure? =
      (found?, some (Failure.after ⟨text, [label]⟩ failure?)) := by
  subst here
  unfold labelled
  rw [read]
  dsimp only
  rw [if_pos rfl]

/-! ### Single characters -/

theorem just_same : just c (c :: rest) failure? = (some (c, rest), failure?) :=
  if_pos rfl

theorem just_of_refused (refused : c ∉ text.head?) :
    just c text failure? =
      (none, some (Failure.after ⟨text, [String.ofList ['\'', c, '\'']]⟩ failure?)) := by
  cases text with
  | nil => rfl
  | cons first rest => exact if_neg fun same => refused (congrArg some same)

end Combinator

end ChartParsing.Text
