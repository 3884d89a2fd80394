import ChartParsing.Proofs.Chart.Pruning
import ChartParsing.Proofs.Parser.Optimal
import ChartParsing.Proofs.Unary.Bounds

/-!
# Pruning costs score but no parse

A parser that prunes is compared with the same parser when it fills the whole fine chart.
Both find a parse or neither does, because a sentence that loses every parse is parsed
again.  The pruned chart holds no better parse than the whole one, and where the coarse
model was of no use the two return the same.

The coarse model and the map of labels may be any, and so may the scores, as long as adding
zero on the right raises none (`Score.Descending`).  Filling a chart relies on this where it
passes over a left part that scores no better than the best so far.  Under an addition that
is monotone but raises scores, pruning can make the score better
(`Parser.pruning_raises_score_bonus`).
-/

namespace ChartParsing

variable {σ : Type} [Score σ]

namespace Pass

variable [Score.Descending σ] {pass : Pass σ}

/-- A pass of a model that has been built meets no positive score if its taggings are
accepted. -/
theorem nonpositive_of_isBuilt (built : pass.model.IsBuilt)
    (accepted : pass.taggingError? = none) : pass.Nonpositive where
  rules _ known _ member := built.wellFormed.parts_of_mem_byParent known member
  chains label known entry member := by
    have listed := built.bounded.mem_byParent known member
    exact ⟨(built.bounded.known entry.2 listed).2, built.bounded.nonpos entry.2 listed⟩
  tags label known start inside kept :=
    tagScore_nonpos_of_not_pos
      (taggingError?_eq_none_iff.mp accepted label known start inside kept)

section

variable (built : pass.model.IsBuilt) (accepted : pass.taggingError? = none)
  (nonempty : pass.words ≠ [])

include built accepted nonempty

/-- The score of the whole sentence is not positive. -/
theorem total_nonpos_of_isBuilt : pass.total ≤ 0 :=
  score_nonpos (nonpositive_of_isBuilt built accepted) (List.length_pos_of_ne_nil nonempty)
    (Nat.le_refl _) built.wellFormed.rooted .closed

/-- A parse by a pruned chart is no better than one by the chart before, which holds one
as well. -/
theorem exists_best_of_prune {pruned : Pruned} (within : pass.pruned.Within pruned)
    {found : ScoredParse σ} (kept : (pass.prune pruned).bestParse? = .ok (some found))
    {whole? : Option (ScoredParse σ)} (returned : pass.bestParse? = .ok whole?) :
    ∃ best, whole? = some best ∧ found.score ≤ best.score := by
  rcases of_bestParse?_eq_some kept with ⟨score, -, possible⟩
  have le : (pass.prune pruned).total ≤ pass.total :=
    score_prune_le within (nonpositive_of_isBuilt built accepted)
      (List.length_pos_of_ne_nil nonempty) (Nat.le_refl _) built.wellFormed.rooted .closed
  cases whole? with
  | none =>
      have wholeImpossible := of_decide_eq_true (bestParse?_eq_none_iff.mp returned)
      have impossible := Score.Monotone.le_trans le wholeImpossible
      exact absurd (decide_eq_true impossible) (Bool.eq_false_iff.mp possible)
  | some best =>
      rcases of_bestParse?_eq_some returned with ⟨bestScore, -, -⟩
      refine ⟨best, rfl, ?_⟩
      rw [score, bestScore]
      exact le

end

end Pass

namespace Parser

/-- The parser with another pruning. -/
abbrev withPruning (parser : Parser σ) (pruning : Pruning σ) : Parser σ :=
  { parser with config := { parser.config with pruning } }

variable {parser : Parser σ} {words : List String}

/-- A model without a parse of a sentence leaves the root of its chart impossible. -/
theorem isImpossible_total_of_exhaustive {model : Model σ} (nonempty : words ≠ [])
    (none : (exhaustive model).parse words = .ok none) :
    Score.isImpossible (model.pass words .nothing).total = true := by
  rw [parse_of_ne_nil _ nonempty] at none
  rcases bind_eq_ok_iff.mp none with ⟨-, -, exhausted⟩
  rcases finePass_eq_ok_iff.mp exhausted with ⟨-, -, returned⟩
  exact Pass.bestParse?_eq_none_iff.mp returned

variable [Score.Descending σ] {threshold : σ} {pruned? whole? : Option (ScoredParse σ)}

/-- Where adding zero raises no score and neither run of a parser fails, with pruning and
without, pruning can only cost score: both find a parse or neither does, and that of the pruned
chart is no better.  The two are the same after a fallback and where there is no coarse
parse. -/
theorem pruning_costs_only_score (built : parser.fine.IsBuilt)
    (pruned : (parser.withPruning (.below threshold)).parse words = .ok pruned?)
    (whole : (parser.withPruning .disabled).parse words = .ok whole?) :
    (pruned? = none ↔ whole? = none) ∧
      ∀ found best, pruned? = some found → whole? = some best →
        found.score ≤ best.score ∧ best.usedFallback = false ∧
          (found.usedFallback = true ∨ (exhaustive parser.coarse).parse words = .ok none →
            found.tree = best.tree ∧ found.derivation = best.derivation ∧
              found.score = best.score) := by
  by_cases nonempty : words = []
  · subst nonempty
    obtain rfl := Except.ok.inj pruned
    obtain rfl := Except.ok.inj whole
    exact ⟨Iff.rfl, fun _ _ found => nomatch found⟩
  rw [parse_of_ne_nil _ nonempty] at pruned whole
  rcases bind_eq_ok_iff.mp pruned with ⟨-, -, attempted⟩
  rcases bind_eq_ok_iff.mp whole with ⟨-, -, exhausted⟩
  rcases finePass_eq_ok_iff.mp exhausted with ⟨accepted, -, returned⟩
  -- What the whole chart returns compares with itself.
  have own {best : ScoredParse σ} (found : whole? = some best) :
      best.score ≤ best.score ∧ best.usedFallback = false := by
    subst found
    rcases Pass.of_bestParse?_eq_some returned with ⟨score, direct, -⟩
    rw [score]
    exact ⟨Score.le_refl (Pass.total_nonpos_of_isBuilt built accepted nonempty), direct⟩
  cases parsePruned_eq_ok_iff.mp attempted with
  | unpruned _ finePassed =>
      rcases finePass_eq_ok_iff.mp finePassed with ⟨-, -, again⟩
      obtain rfl := Except.ok.inj (returned.symm.trans again)
      refine ⟨Iff.rfl, ?_⟩
      intro found best first second
      obtain rfl := Option.some.inj (first.symm.trans second)
      exact ⟨(own second).1, (own second).2, fun _ => ⟨rfl, rfl, rfl⟩⟩
  | retried _ _ exhausted =>
      rcases finePass_eq_ok_iff.mp exhausted with ⟨-, -, again⟩
      obtain rfl := Except.ok.inj (returned.symm.trans again)
      refine ⟨Option.map_eq_none_iff, ?_⟩
      rintro found best first rfl
      obtain rfl := Option.some.inj first
      exact ⟨(own rfl).1, (own rfl).2, fun _ => ⟨rfl, rfl, rfl⟩⟩
  | @pruned posterior spent parse coarsePassed finePassed =>
      rcases coarsePass_eq_ok_some_iff.mp coarsePassed with ⟨-, coarsePossible, -, -⟩
      rcases finePass_eq_ok_iff.mp finePassed with ⟨-, -, kept⟩
      obtain ⟨best, rfl, le⟩ := Pass.exists_best_of_prune built accepted nonempty
        (.of_nothing (posterior.prunedBelow threshold parser.toCoarse)) kept returned
      rcases Pass.of_bestParse?_eq_some kept with ⟨-, direct, -⟩
      refine ⟨iff_of_false (Option.some_ne_none _) (Option.some_ne_none _), ?_⟩
      rintro _ _ ⟨⟩ ⟨⟩
      refine ⟨le, (own rfl).2, ?_⟩
      rintro (fallback | noCoarse)
      · exact absurd fallback (Bool.eq_false_iff.mp direct)
      · exact absurd (isImpossible_total_of_exhaustive nonempty noCoarse)
          (Bool.eq_false_iff.mp coarsePossible)

/-- A threshold above all marginals leaves nothing of the chart, and the sentence is
parsed again. -/
theorem pruning_costs_only_score_dogs_bark :
    ∃ found best,
      ((Sample.Exact.parser ⟨.disabled, none, none⟩).withPruning
        (.below (.finite (mkRat 1 1)))).parse ["dogs", "bark"] = .ok (some found) ∧
      ((Sample.Exact.parser ⟨.disabled, none, none⟩).withPruning .disabled).parse
        ["dogs", "bark"] = .ok (some best) ∧
      found.usedFallback = true ∧ best.usedFallback = false ∧
      found.derivation = best.derivation ∧ found.score = best.score := by
  have built : (Sample.Exact.parser ⟨.disabled, none, none⟩).fine.IsBuilt :=
    Model.IsModelOf.sample_fine.isBuilt Grammar.isDeclared_sample
  have prunedFallback : (((Sample.Exact.parser ⟨.disabled, none, none⟩).withPruning
      (.below (.finite (mkRat 1 1)))).parse ["dogs", "bark"]).map
        (Option.map ScoredParse.usedFallback) = .ok (some true) := by
    decide +kernel
  have wholeFallback : (((Sample.Exact.parser ⟨.disabled, none, none⟩).withPruning
      .disabled).parse ["dogs", "bark"]).map
        (Option.map ScoredParse.usedFallback) = .ok (some false) := by
    decide +kernel
  rcases exists_of_map_eq_ok prunedFallback with ⟨found, pruned, fallback⟩
  rcases exists_of_map_eq_ok wholeFallback with ⟨best, whole, -⟩
  obtain ⟨-, compared⟩ := pruning_costs_only_score built pruned whole
  rcases compared found best rfl rfl with ⟨-, direct, same⟩
  rcases same (Or.inl fallback) with ⟨-, derivation, score⟩
  exact ⟨found, best, pruned, whole, fallback, direct, derivation, score⟩

end Parser

/-! ## An addition that raises scores -/

/-- Exact scores of which two add up to one more than their sum, but to no more than zero. -/
def BonusScore : Type :=
  ExactScore

namespace BonusScore

/-- The sum and one more, but no more than zero. -/
def add (a b : ExactScore) : ExactScore :=
  let raised := a + b + .finite 1
  if 0 < raised then 0 else raised

instance : Score BonusScore :=
  { (inferInstanceAs (Score ExactScore) : Score ExactScore) with add := add }

instance : DecidableEq BonusScore :=
  inferInstanceAs (DecidableEq ExactScore)

theorem add_finite (x y : Rat) :
    add (.finite x) (.finite y) = .finite (min (x + y + 1) 0) := by
  unfold add
  dsimp only
  split
  · rename_i positive
    rw [min_eq_right (ExactScore.finite_lt_finite.mp positive).le]
    rfl
  · rename_i nonpos
    rw [min_eq_left (not_lt.mp (mt ExactScore.finite_lt_finite.mpr nonpos))]
    rfl

/-- What is impossible stays so. -/
theorem add_impossible {a : ExactScore} (nonpos : a ≤ 0) :
    add a impossible = impossible ∧ add impossible a = impossible := by
  obtain rfl | ⟨value, -, rfl⟩ := ExactScore.nonpos_iff.mp nonpos <;> exact ⟨rfl, rfl⟩

theorem add_nonpos {a b : ExactScore} (left : a ≤ 0) (right : b ≤ 0) : add a b ≤ 0 := by
  obtain rfl | ⟨x, -, rfl⟩ := ExactScore.nonpos_iff.mp left
  · rw [(add_impossible right).2]
    trivial
  · obtain rfl | ⟨y, -, rfl⟩ := ExactScore.nonpos_iff.mp right
    · trivial
    · rw [add_finite]
      exact min_le_right (x + y + 1) 0

/-- Addition is monotone in both arguments. -/
theorem add_le_add {a b c d : ExactScore} (left : c ≤ 0) (right : d ≤ 0) (first : a ≤ c)
    (second : b ≤ d) : add a b ≤ add c d := by
  have sum : impossible ≤ add c d := ExactScore.impossible_le (add_nonpos left right)
  obtain rfl | ⟨x, z, firstLe, rfl, rfl⟩ := (ExactScore.le_iff_of_nonpos left).mp first
  · rw [(add_impossible (ExactScore.le_trans second right)).2]
    exact sum
  · obtain rfl | ⟨y, w, secondLe, rfl, rfl⟩ := (ExactScore.le_iff_of_nonpos right).mp second
    · exact sum
    · have le : min (x + y + 1) 0 ≤ min (z + w + 1) 0 := by gcongr
      rw [add_finite, add_finite]
      exact le

/-- The first of two rules leaves no room for the left part of the second, whose right part is
better. -/
def grammar : Grammar BonusScore :=
  .merge "S" [.binary "S" "A" "B" (.finite (mkRat (-2) 1)),
    .binary "S" "C" "D" (.finite (mkRat (-3) 1))]

/-- Both words have both tags, of which the second of the second word is certain. -/
def lexicon : TableLexicon BonusScore :=
  ⟨.ofList [(("a", "A"), .finite (mkRat (-2) 1)), (("b", "B"), .finite (mkRat (-2) 1)),
    (("a", "C"), .finite (mkRat (-2) 1)), (("b", "D"), .finite (mkRat 0 1))], .empty⟩

/-- The coarse grammar has the second rule only. -/
def coarseGrammar : Grammar BonusScore :=
  .merge "S" [.label "A", .label "B", .binary "S" "C" "D" (.finite (mkRat 0 1))]

/-- The coarse lexicon knows the tags of the second rule only. -/
def coarseLexicon : TableLexicon BonusScore :=
  ⟨.ofList [(("a", "C"), .finite (mkRat 0 1)), (("b", "D"), .finite (mkRat 0 1))], .empty⟩

/-- The fine model. -/
def fine : Model BonusScore :=
  (Model.ofGrammar grammar lexicon.score).toOption.get (by decide +kernel)

/-- The coarse model. -/
def coarse : Model BonusScore :=
  (Model.ofGrammar coarseGrammar coarseLexicon.score).toOption.get (by decide +kernel)

/-- The parser of the two models. -/
def parser : Parser BonusScore :=
  (Parser.ofModels coarse fine id ⟨.disabled, none, none⟩).toOption.get (by decide +kernel)

end BonusScore

namespace Parser

/-- Addition is monotone in both arguments and what is impossible stays so, but the pruned chart
holds the better parse: nothing hides the second rule there. -/
theorem pruning_raises_score_bonus :
    (∀ a b c d : BonusScore, c ≤ 0 → d ≤ 0 → a ≤ c → b ≤ d → a + b ≤ c + d) ∧
    (∀ a : BonusScore, a ≤ 0 → a + impossible = impossible ∧ impossible + a = impossible) ∧
    BonusScore.coarse.IsBuilt ∧ BonusScore.fine.IsBuilt ∧
    ofModels BonusScore.coarse BonusScore.fine id ⟨.disabled, none, none⟩ =
      .ok BonusScore.parser ∧
    ∃ found best,
      (BonusScore.parser.withPruning (.below (.finite (mkRat (-100) 1)))).parse ["a", "b"] =
        .ok (some found) ∧
      (BonusScore.parser.withPruning .disabled).parse ["a", "b"] = .ok (some best) ∧
      found.usedFallback = false ∧ best.score < found.score := by
  have coarseBuilt : BonusScore.coarse.IsBuilt :=
    .ofGrammar ⟨"S", _, Grammar.declare_eq_ok_iff.mpr ⟨by decide +kernel, rfl⟩⟩
      (eq_ok_toOption_get _)
  have fineBuilt : BonusScore.fine.IsBuilt :=
    .ofGrammar ⟨"S", _, Grammar.declare_eq_ok_iff.mpr ⟨by decide +kernel, rfl⟩⟩
      (eq_ok_toOption_get _)
  have pruned : ((BonusScore.parser.withPruning (.below (.finite (mkRat (-100) 1)))).parse
      ["a", "b"]).map (Option.map fun parse => (parse.score, parse.usedFallback)) =
        .ok (some (.finite (mkRat (-3) 1), false)) := by
    decide +kernel
  have whole : ((BonusScore.parser.withPruning .disabled).parse ["a", "b"]).map
      (Option.map ScoredParse.score) = .ok (some (.finite (mkRat (-4) 1))) := by
    decide +kernel
  rcases exists_of_map_eq_ok pruned with ⟨found, foundParsed, foundScore⟩
  rcases exists_of_map_eq_ok whole with ⟨best, bestParsed, bestScore⟩
  rcases Prod.mk.inj foundScore with ⟨foundScore, direct⟩
  refine ⟨fun _ _ _ _ => BonusScore.add_le_add, fun _ => BonusScore.add_impossible, coarseBuilt,
    fineBuilt, eq_ok_toOption_get _, found, best, foundParsed, bestParsed, direct, ?_⟩
  rw [foundScore, bestScore]
  exact ExactScore.finite_lt_finite.mpr (by decide +kernel)

end Parser

end ChartParsing
