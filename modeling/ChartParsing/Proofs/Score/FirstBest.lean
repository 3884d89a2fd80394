import Mathlib.Data.List.Induction
import ChartParsing.Proofs.Score.Laws

/-!
# The first of the best candidates

A search for the best that takes strictly better candidates only ends with the first of
those that score best.  `Best.IsFirstOf` says so of candidates that carry keys: those whose
key comes before that of the winner score worse, and no candidate scores better.  A list of
candidates that is ordered by their keys leaves the first of them
(`Best.isFirstOf_ofList`).
-/

namespace ChartParsing.Best

variable {σ α κ : Type} [Score σ]

/-- Offer each of a list of scored candidates. -/
def offerAll (best : Best σ α) (candidates : List (σ × α)) : Best σ α :=
  candidates.foldl (fun best candidate => best.offer candidate.1 candidate.2) best

theorem ofList_eq_offerAll (candidates : List (σ × α)) :
    ofList candidates = empty.offerAll candidates :=
  rfl

theorem offerAll_append (best : Best σ α) (candidates others : List (σ × α)) :
    best.offerAll (candidates ++ others) = (best.offerAll candidates).offerAll others :=
  List.foldl_append

theorem score_offerAll_nonpos {best : Best σ α} (nonpos : best.score ≤ 0)
    {candidates : List (σ × α)} (offersNonpos : ∀ offer ∈ candidates, offer.1 ≤ 0) :
    (best.offerAll candidates).score ≤ 0 := by
  induction candidates generalizing best with
  | nil => exact nonpos
  | cons first rest inductionHypothesis =>
      rw [List.forall_mem_cons] at offersNonpos
      apply inductionHypothesis _ offersNonpos.2
      rw [score_offer]
      exact Score.better_nonpos nonpos offersNonpos.1

/-- A candidate that scores no better is not taken. -/
theorem offer_eq_self [Score.Monotone σ] {best : Best σ α} (nonpos : best.score ≤ 0)
    {score : σ} (scoreNonpos : score ≤ 0) (worse : score ≤ best.score) (candidate : α) :
    best.offer score candidate = best :=
  if_neg ((Score.not_lt_iff_le nonpos scoreNonpos).mpr worse)

/-- The winner of a search among keyed candidates: none of them scores better, and those
whose keys come before its own score worse.  There is none if nothing possible is
offered. -/
inductive IsFirstOf (before : κ → κ → Prop) (offered : List (κ × σ × α)) : Best σ α → Prop
  | nothing : (∀ offer ∈ offered, offer.2.1 ≤ impossible) → IsFirstOf before offered empty
  | first {key : κ} {score : σ} {candidate : α} :
      (key, score, candidate) ∈ offered → impossible < score →
      (∀ offer ∈ offered,
        offer.2.1 ≤ score ∧ (before offer.1 key → offer.2.1 < score)) →
      IsFirstOf before offered ⟨score, some candidate⟩

variable [Score.Monotone σ] {before : κ → κ → Prop} {offered : List (κ × σ × α)}
  {best : Best σ α}

/-- One more candidate is offered behind all others. -/
theorem IsFirstOf.offer (holds : IsFirstOf before offered best) {key : κ} {score : σ}
    (candidate : α) (offeredNonpos : ∀ offer ∈ offered, offer.2.1 ≤ 0) (nonpos : score ≤ 0)
    (last : ∀ offer ∈ offered, ¬before key offer.1) (irreflexive : ¬before key key) :
    IsFirstOf before (offered ++ [(key, score, candidate)]) (best.offer score candidate) := by
  -- A score above one that no offer beats is above all offers.
  have taken {bound : σ} (boundNonpos : bound ≤ 0) (less : bound < score)
      (unbeaten : ∀ offer ∈ offered, offer.2.1 ≤ bound) :
      IsFirstOf before (offered ++ [(key, score, candidate)]) ⟨score, some candidate⟩ := by
    have possible : impossible < score :=
      Score.lt_of_le_of_lt Score.impossible_nonpos boundNonpos nonpos
        (Score.Monotone.impossible_le boundNonpos) less
    refine .first (List.mem_append_right _ (List.mem_singleton_self _)) possible ?_
    rw [List.forall_mem_append, List.forall_mem_singleton]
    constructor
    · intro offer member
      have lower := Score.lt_of_le_of_lt (offeredNonpos offer member) boundNonpos nonpos
        (unbeaten offer member) less
      exact ⟨Score.le_of_lt (offeredNonpos offer member) nonpos lower, fun _ => lower⟩
    · exact ⟨Score.le_refl nonpos, fun own => absurd own irreflexive⟩
  unfold Best.offer
  cases holds with
  | nothing none =>
      split
      · rename_i less
        exact taken Score.impossible_nonpos less none
      · rename_i notLess
        have worse := (Score.not_lt_iff_le Score.impossible_nonpos nonpos).mp notLess
        apply IsFirstOf.nothing
        rw [List.forall_mem_append, List.forall_mem_singleton]
        exact ⟨none, worse⟩
  | @first winnerKey winnerScore winner member possible unbeaten =>
      have winnerNonpos := offeredNonpos _ member
      split
      · rename_i less
        exact taken winnerNonpos less fun offer old => (unbeaten offer old).1
      · rename_i notLess
        have worse := (Score.not_lt_iff_le winnerNonpos nonpos).mp notLess
        refine .first (List.mem_append_left _ member) possible ?_
        rw [List.forall_mem_append, List.forall_mem_singleton]
        exact ⟨unbeaten, worse, fun earlier => absurd earlier (last _ member)⟩

/-- A list of candidates that is ordered by their keys leaves the first of the best. -/
theorem isFirstOf_ofList (asymmetric : ∀ key other, before key other → ¬before other key)
    (ordered : offered.Pairwise fun offer later => before offer.1 later.1)
    (nonpos : ∀ offer ∈ offered, offer.2.1 ≤ 0) :
    IsFirstOf before offered (ofList (offered.map Prod.snd)) := by
  induction offered using List.reverseRecOn with
  | nil => exact .nothing fun _ member => nomatch member
  | append_singleton rest last inductionHypothesis =>
      rw [List.pairwise_append] at ordered
      rw [List.forall_mem_append] at nonpos
      rcases ordered with ⟨restOrdered, -, behind⟩
      have irreflexive : ¬before last.1 last.1 := fun own => asymmetric _ _ own own
      have offeredOnce := (inductionHypothesis restOrdered nonpos.1).offer last.2.2 nonpos.1
        (nonpos.2 last (List.mem_singleton_self last))
        (fun offer member => asymmetric _ _ (behind offer member last
          (List.mem_singleton_self last)))
        irreflexive
      rw [List.map_append, ofList_eq_offerAll, offerAll_append]
      exact offeredOnce

end ChartParsing.Best
