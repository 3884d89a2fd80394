import Mathlib.Data.Set.Basic
import ChartParsing.Best

/-!
# The laws of scores

The scores in a chart are log-probabilities, none of them above zero.  On these
the order is total, nothing lies below what is impossible, and addition is
monotone in both arguments.  Scores above zero and undefined ones obey no law, and
addition need be neither associative nor exact.  What else is asked of it is said
by the class that a statement names:

* `Score.Monotone` asks that zero and zero add up to no more than zero, so that
  sums of log-probabilities are log-probabilities;
* `Score.Descending` asks that adding zero on the right raises no score, so that
  a sum is no better than its left part;
* `Score.Lawful` asks that adding zero raises no score on either side, and that a
  sum is impossible as soon as one of its parts is.

`Score.Thresholded` asks for what is needed of other values once scores are
compared with them, and `Score.Signed` for what is needed to tell which numbers
are log-probabilities.

What follows from the laws is that offering candidates one after the other finds
the best of them in whatever order they come, which `Score.IsBestOf` and
`Best.IsBestOf` state.
-/

namespace ChartParsing

/-- The laws of scores that are not positive.  Addition is monotone on them, it raises no
score if zero is added to it on either side, and adds up to what is impossible as soon as one
side is. -/
class Score.Lawful (σ : Type) [Score σ] : Prop where
  zero_nonpos : (0 : σ) ≤ 0
  impossible_le {a : σ} : a ≤ 0 → impossible ≤ a
  le_trans {a b c : σ} : a ≤ b → b ≤ c → a ≤ c
  le_total {a b : σ} : a ≤ 0 → b ≤ 0 → a ≤ b ∨ b ≤ a
  lt_iff_not_le {a b : σ} : a ≤ 0 → b ≤ 0 → (a < b ↔ ¬b ≤ a)
  add_le_add {a b c d : σ} : c ≤ 0 → d ≤ 0 → a ≤ c → b ≤ d → a + b ≤ c + d
  add_zero_le {a : σ} : a ≤ 0 → a + 0 ≤ a
  zero_add_le {a : σ} : a ≤ 0 → 0 + a ≤ a
  add_impossible {a : σ} : a ≤ 0 → a + impossible = impossible
  impossible_add {a : σ} : a ≤ 0 → impossible + a = impossible
  /-- A value that is not above zero is at most zero. -/
  nonpos_of_not_pos {a : σ} : Score.isUndefined a = false → ¬0 < a → a ≤ 0

/-- The laws that stay if nothing is known of addition but that it is monotone and that zero
and zero add up to no more than zero: adding zero to any other score may raise it, and adding
what is impossible need not be impossible. -/
class Score.Monotone (σ : Type) [Score σ] : Prop where
  zero_nonpos : (0 : σ) ≤ 0
  impossible_le {a : σ} : a ≤ 0 → impossible ≤ a
  le_trans {a b c : σ} : a ≤ b → b ≤ c → a ≤ c
  le_total {a b : σ} : a ≤ 0 → b ≤ 0 → a ≤ b ∨ b ≤ a
  lt_iff_not_le {a b : σ} : a ≤ 0 → b ≤ 0 → (a < b ↔ ¬b ≤ a)
  add_le_add {a b c d : σ} : c ≤ 0 → d ≤ 0 → a ≤ c → b ≤ d → a + b ≤ c + d
  zero_add_zero_le : (0 : σ) + 0 ≤ 0

/-- The laws by which a sum is no better than its left part: addition is monotone, and adding
zero on the right raises no score. -/
class Score.Descending (σ : Type) [Score σ] : Prop extends Score.Monotone σ where
  add_zero_le {a : σ} : a ≤ 0 → a + 0 ≤ a
  /-- A value that is not above zero is at most zero. -/
  nonpos_of_not_pos {a : σ} : Score.isUndefined a = false → ¬0 < a → a ≤ 0

/-- The laws by which marginals compare with thresholds, which may be any values. -/
class Score.Thresholded (σ : Type) [Score σ] : Prop where
  lt_of_lt_of_le {a b c : σ} : a < b → b ≤ c → a < c
  lt_of_le_of_lt {a b c : σ} : a ≤ b → b < c → a < c
  not_lt_impossible {a : σ} : ¬a < impossible
  not_lt_of_isUndefined {a b : σ} : Score.isUndefined b = true → ¬a < b
  /-- Nothing around the best of all raises it. -/
  neg_add_add_nonpos {total outer : σ} : total ≤ 0 → Score.isImpossible total = false →
    outer ≤ 0 → -total + outer + total ≤ 0

/-- The law by which a number that is not at most zero is above it. -/
class Score.Signed (σ : Type) [Score σ] : Prop where
  pos_iff {a : σ} : Score.isFinite a = true → (0 < a ↔ ¬a ≤ 0)

variable {σ : Type} [Score σ]

instance Score.Lawful.descending [Score.Lawful σ] : Score.Descending σ where
  zero_nonpos := Lawful.zero_nonpos
  impossible_le := Lawful.impossible_le
  le_trans := Lawful.le_trans
  le_total := Lawful.le_total
  lt_iff_not_le := Lawful.lt_iff_not_le
  add_le_add := Lawful.add_le_add
  zero_add_zero_le := Lawful.add_zero_le Lawful.zero_nonpos
  add_zero_le := Lawful.add_zero_le
  nonpos_of_not_pos := Lawful.nonpos_of_not_pos

namespace Score

section

variable [Score.Monotone σ] {a b : σ}

instance : @Trans σ σ σ LE.le LE.le LE.le :=
  ⟨Monotone.le_trans⟩

theorem impossible_nonpos : (impossible : σ) ≤ 0 :=
  Monotone.impossible_le Monotone.zero_nonpos

theorem le_refl (nonpos : a ≤ 0) : a ≤ a :=
  or_self_iff.mp (Monotone.le_total nonpos nonpos)

theorem not_lt_iff_le (left : a ≤ 0) (right : b ≤ 0) : ¬a < b ↔ b ≤ a := by
  rw [Monotone.lt_iff_not_le left right, not_not]

theorem le_of_lt (left : a ≤ 0) (right : b ≤ 0) (less : a < b) : a ≤ b :=
  (Monotone.le_total left right).resolve_right ((Monotone.lt_iff_not_le left right).mp less)

theorem lt_of_le_of_lt {c : σ} (left : a ≤ 0) (middle : b ≤ 0) (right : c ≤ 0) (le : a ≤ b)
    (less : b < c) : a < c := by
  rw [Monotone.lt_iff_not_le left right]
  intro reversed
  exact (Monotone.lt_iff_not_le middle right).mp less (Monotone.le_trans reversed le)

theorem not_pos_of_nonpos (nonpos : a ≤ 0) : ¬0 < a :=
  (not_lt_iff_le Monotone.zero_nonpos nonpos).mpr nonpos

theorem add_nonpos (left : a ≤ 0) (right : b ≤ 0) : a + b ≤ 0 :=
  Monotone.le_trans
    (Monotone.add_le_add Monotone.zero_nonpos Monotone.zero_nonpos left right)
    Monotone.zero_add_zero_le

/-- Better parts make a rule's result no worse. -/
theorem add_add_le_add_add {rule c d : σ} (ruleNonpos : rule ≤ 0) (left : c ≤ 0)
    (right : d ≤ 0) (first : a ≤ c) (second : b ≤ d) : rule + a + b ≤ rule + c + d :=
  Monotone.add_le_add (add_nonpos ruleNonpos left) right
    (Monotone.add_le_add ruleNonpos left (le_refl ruleNonpos) first) second

end

variable {a b : σ}

/-- Adding what is not positive raises no score. -/
theorem add_le_left [Score.Descending σ] (left : a ≤ 0) (right : b ≤ 0) : a + b ≤ a :=
  Monotone.le_trans
    (Monotone.add_le_add left Monotone.zero_nonpos (le_refl left) right)
    (Descending.add_zero_le left)

section

variable [Score.Lawful σ]

theorem add_le_right (left : a ≤ 0) (right : b ≤ 0) : a + b ≤ b :=
  Lawful.le_trans
    (Lawful.add_le_add Lawful.zero_nonpos right left (le_refl right))
    (Lawful.zero_add_le right)

/-- A sum is impossible as soon as one of its parts is. -/
theorem possible_of_add_possible (left : a ≤ 0) (right : b ≤ 0)
    (possible : a + b ≠ impossible) : a ≠ impossible ∧ b ≠ impossible := by
  constructor
  · rintro rfl
    exact possible (Lawful.impossible_add right)
  · rintro rfl
    exact possible (Lawful.add_impossible left)

/-- What a rule makes of two parts is impossible as soon as one of them is. -/
theorem possible_of_add_add_possible {rule : σ} (ruleNonpos : rule ≤ 0) (left : a ≤ 0)
    (right : b ≤ 0) (possible : rule + a + b ≠ impossible) :
    a ≠ impossible ∧ b ≠ impossible := by
  obtain ⟨half, second⟩ :=
    possible_of_add_possible (add_nonpos ruleNonpos left) right possible
  rcases possible_of_add_possible ruleNonpos left half with ⟨-, first⟩
  exact ⟨first, second⟩

end

theorem nonpos_of_isLogProbability (valid : isLogProbability a = true) : a ≤ 0 :=
  of_decide_eq_true (Bool.and_eq_true_iff.mp valid).2

/-- What is no log-probability is no number or a number above zero. -/
theorem isLogProbability_eq_false_iff [Score.Signed σ] :
    isLogProbability a = false ↔ isFinite a = false ∨ 0 < a := by
  unfold isLogProbability
  cases finite : isFinite a with
  | false => simp
  | true => simp [Signed.pos_iff finite]

theorem better_eq_or (a b : σ) : better a b = a ∨ better a b = b := by
  unfold better
  split
  · exact Or.inr rfl
  · exact Or.inl rfl

theorem better_nonpos (left : a ≤ 0) (right : b ≤ 0) : better a b ≤ 0 := by
  rcases better_eq_or a b with same | same <;> rwa [same]

variable [Score.Monotone σ]

theorem le_better_left (left : a ≤ 0) (right : b ≤ 0) : a ≤ better a b := by
  unfold better
  split
  · rename_i less
    exact le_of_lt left right less
  · exact le_refl left

theorem le_better_right (left : a ≤ 0) (right : b ≤ 0) : b ≤ better a b := by
  unfold better
  split
  · exact le_refl right
  · rename_i notLess
    exact (not_lt_iff_le left right).mp notLess

end Score

/-! ## Offering candidates in a loop -/

/-- A loop offers the candidates of all its rounds if each round offers its own
beside those before. -/
theorem foldl_offered {β γ ι : Type} {IsBest : Set γ → β → Prop}
    {step : β → ι → β} {items : List ι} (candidates : ι → Set γ)
    (extend : ∀ offered best, ∀ item ∈ items, IsBest offered best →
      IsBest (offered ∪ candidates item) (step best item))
    {offered : Set γ} {best : β} (start : IsBest offered best) :
    IsBest (offered ∪ {candidate | ∃ item ∈ items, candidate ∈ candidates item})
      (items.foldl step best) := by
  induction items generalizing offered best with
  | nil => simpa using start
  | cons first rest inductionHypothesis =>
      have later := inductionHypothesis
        (fun offered best item member =>
          extend offered best item (List.mem_cons_of_mem first member))
        (extend offered best first List.mem_cons_self start)
      have same : offered ∪ candidates first ∪
            {candidate | ∃ item ∈ rest, candidate ∈ candidates item} =
          offered ∪ {candidate | ∃ item ∈ first :: rest,
            candidate ∈ candidates item} := by
        ext candidate
        simp [or_assoc]
      rw [List.foldl_cons, ← same]
      exact later

namespace Score

/-- A score is the best of those offered, or that of something impossible if
nothing better is offered. -/
structure IsBestOf (offered : Set σ) (best : σ) : Prop where
  nonpos : best ≤ 0
  bound : ∀ score ∈ offered, score ≤ best
  attained : best = impossible ∨ best ∈ offered

namespace IsBestOf

variable [Score.Monotone σ] {offered : Set σ} {best : σ}

theorem impossible_of_empty : IsBestOf ∅ (impossible : σ) where
  nonpos := impossible_nonpos
  bound _ member := absurd member (Set.notMem_empty _)
  attained := Or.inl rfl

/-- One more score is offered. -/
theorem better (holds : IsBestOf offered best) {score : σ} (nonpos : score ≤ 0) :
    IsBestOf (offered ∪ {score}) (Score.better best score) where
  nonpos := better_nonpos holds.nonpos nonpos
  bound := by
    rintro other (member | rfl)
    · exact Monotone.le_trans (holds.bound other member)
        (le_better_left holds.nonpos nonpos)
    · exact le_better_right holds.nonpos nonpos
  attained := by
    rcases better_eq_or best score with same | same
    · rw [same]
      exact holds.attained.imp_right Or.inl
    · rw [same]
      exact Or.inr (Or.inr rfl)

/-- The best of some scores is no better than the best of others that match them. -/
theorem le_of_matched {others : Set σ} {other : σ} (holds : IsBestOf offered best)
    (otherHolds : IsBestOf others other)
    (matched : ∀ score ∈ offered, ∃ better ∈ others, score ≤ better) : best ≤ other := by
  rcases holds.attained with same | member
  · rw [same]
    exact Monotone.impossible_le otherHolds.nonpos
  · rcases matched best member with ⟨better, betterMember, le⟩
    exact Monotone.le_trans le (otherHolds.bound better betterMember)

/-- A loop offers one score in each round. -/
theorem foldl_better (holds : IsBestOf offered best) {ι : Type} {items : List ι}
    {value : ι → σ} (nonpos : ∀ item ∈ items, value item ≤ 0) :
    IsBestOf (offered ∪ {score | ∃ item ∈ items, score = value item})
      (items.foldl (fun best item => Score.better best (value item)) best) :=
  foldl_offered (fun item => {value item})
    (fun _ _ item member holds => holds.better (nonpos item member)) holds

/-- Two nested loops offer one score in each round of the inner one. -/
theorem foldl_foldl_better (holds : IsBestOf offered best) {ι κ : Type}
    {items : List ι} {inner : List κ} {value : ι → κ → σ}
    (nonpos : ∀ item ∈ items, ∀ entry ∈ inner, value item entry ≤ 0) :
    IsBestOf
      (offered ∪ {score | ∃ item ∈ items, ∃ entry ∈ inner, score = value item entry})
      (items.foldl
        (fun best item =>
          inner.foldl (fun best entry => Score.better best (value item entry)) best)
        best) :=
  foldl_offered (fun item => {score | ∃ entry ∈ inner, score = value item entry})
    (fun _ _ item member holds => holds.foldl_better (nonpos item member)) holds

end IsBestOf

end Score

namespace Best

variable {α : Type}

/-- A candidate is the best of those offered, or none if nothing possible is
offered. -/
structure IsBestOf (offered : Set (σ × α)) (best : Best σ α) : Prop where
  nonpos : best.score ≤ 0
  bound : ∀ candidate ∈ offered, candidate.1 ≤ best.score
  attained : best = empty ∨
    ∃ choice, best.choice = some choice ∧ (best.score, choice) ∈ offered

namespace IsBestOf

variable [Score.Monotone σ] {offered : Set (σ × α)} {best : Best σ α}

theorem empty_of_empty : IsBestOf (∅ : Set (σ × α)) Best.empty where
  nonpos := Score.impossible_nonpos
  bound _ member := absurd member (Set.notMem_empty _)
  attained := Or.inl rfl

/-- One more candidate is offered. -/
theorem offer (holds : IsBestOf offered best) {score : σ} (nonpos : score ≤ 0)
    (candidate : α) :
    IsBestOf (offered ∪ {(score, candidate)}) (best.offer score candidate) where
  nonpos := by
    rw [score_offer]
    exact Score.better_nonpos holds.nonpos nonpos
  bound := by
    rw [score_offer]
    rintro other (member | rfl)
    · exact Score.Monotone.le_trans (holds.bound other member)
        (Score.le_better_left holds.nonpos nonpos)
    · exact Score.le_better_right holds.nonpos nonpos
  attained := by
    unfold Best.offer
    split
    · exact Or.inr ⟨candidate, rfl, Or.inr rfl⟩
    · exact holds.attained.imp_right fun ⟨choice, chosen, member⟩ =>
        ⟨choice, chosen, Or.inl member⟩

omit [Score.Monotone σ] in
/-- A candidate that is no better may as well be passed over. -/
theorem skip (holds : IsBestOf offered best) {score : σ}
    (worse : score ≤ best.score) (candidate : α) :
    IsBestOf (offered ∪ {(score, candidate)}) best where
  nonpos := holds.nonpos
  bound := by
    rintro other (member | rfl)
    · exact holds.bound other member
    · exact worse
  attained := holds.attained.imp_right fun ⟨choice, chosen, member⟩ =>
    ⟨choice, chosen, Or.inl member⟩

omit [Score.Monotone σ] in
/-- What has a score has been chosen among the offers. -/
theorem exists_choice (holds : IsBestOf offered best)
    (possible : best.score ≠ impossible) :
    ∃ choice, best.choice = some choice ∧ (best.score, choice) ∈ offered := by
  rcases holds.attained with rfl | chosen
  · exact absurd rfl possible
  · exact chosen

end IsBestOf

end Best

end ChartParsing
