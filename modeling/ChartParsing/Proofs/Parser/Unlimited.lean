import ChartParsing.Proofs.Chart.Extraction
import ChartParsing.Proofs.Parser.Marginal
import ChartParsing.Proofs.Parser.PrunedScore

/-!
# Parsing without limits

Where nothing limits a sentence and all taggings are accepted, no run fails, and the result
is a function of what three passes find: the coarse pass, the pruned fine pass and the
whole fine pass (`Parser.parse_eq_of_below`).  Comparing two runs then comes down to
comparing their passes.
-/

namespace ChartParsing

variable {σ : Type} [Score σ]

/-- The parse as it is returned after a fallback. -/
abbrev ScoredParse.retried (parse : ScoredParse σ) : ScoredParse σ :=
  { parse with usedFallback := true }

namespace Pass

/-- A pass over a model that has been built returns a parse or none. -/
theorem exists_bestParse? [Score.Lawful σ] {pass : Pass σ} (built : pass.model.IsBuilt)
    (accepted : pass.taggingError? = none) (nonempty : pass.words ≠ []) :
    ∃ found?, pass.bestParse? = .ok found? := by
  unfold bestParse?
  by_cases none : Score.isImpossible pass.total = true
  · exact ⟨_, if_pos none⟩
  · have possible : pass.total ≠ impossible := by
      intro same
      rw [same] at none
      exact none (decide_eq_true (Score.le_refl Score.impossible_nonpos))
    have several : 0 < pass.length := List.length_pos_of_ne_nil nonempty
    obtain ⟨derivation, found⟩ := exists_derivation? (nonpositive_of_isBuilt built accepted)
      several (Nat.le_refl _) built.wellFormed.rooted possible
    rw [if_neg none, found]
    exact ⟨_, rfl⟩

end Pass

namespace Parser

/-- What a threshold prunes of the fine chart of a sentence. -/
abbrev prunedAt (parser : Parser σ) (words : List String) (threshold : σ) : Pruned :=
  (parser.coarse.pass words .nothing).posterior.prunedBelow threshold parser.toCoarse

variable {parser : Parser σ} {words : List String}

/-- With pruning a sentence without a coarse parse is parsed by the whole fine chart; any
other by the pruned chart, or by the whole one after all if that has no parse. -/
theorem parse_eq_of_below {threshold : σ}
    (config : parser.config = ⟨.below threshold, none, none⟩) (nonempty : words ≠ [])
    (coarseAccepted : (parser.coarse.pass words .nothing).taggingError? = none)
    (fineAccepted : ∀ pruned, (parser.fine.pass words pruned).taggingError? = none)
    {whole? pruned? : Option (ScoredParse σ)}
    (whole : (parser.fine.pass words .nothing).bestParse? = .ok whole?)
    (pruned :
      (parser.fine.pass words (parser.prunedAt words threshold)).bestParse? = .ok pruned?) :
    parser.parse words = .ok
      (if Score.isImpossible (parser.coarse.pass words .nothing).total then whole?
        else pruned?.or (whole?.map ScoredParse.retried)) := by
  have unlimited : parser.config.maxEdges = none := congrArg Config.maxEdges config
  have finePassed (spent : Nat) {pruned : Pruned} {found? : Option (ScoredParse σ)}
      (returned : (parser.fine.pass words pruned).bestParse? = .ok found?) :
      parser.finePass words pruned spent = .ok found? := by
    rw [finePass_of_unlimited unlimited spent (fineAccepted pruned), returned]
  rw [parse_of_ne_nil parser nonempty, config, Config.checkLength_of_unlimited rfl]
  change parser.parsePruned words threshold = _
  rw [parsePruned_eq_ok_iff]
  by_cases noCoarse : Score.isImpossible (parser.coarse.pass words .nothing).total = true
  · rw [if_pos noCoarse]
    exact .unpruned
      (coarsePass_eq_ok_none_iff.mpr
        ⟨coarseAccepted, Config.charge_of_unlimited unlimited _ _, noCoarse⟩)
      (finePassed _ whole)
  · obtain ⟨spent, coarsePassed⟩ := exists_coarsePass_of_unlimited unlimited coarseAccepted
      (Bool.not_eq_true _ ▸ noCoarse)
    rw [if_neg noCoarse]
    cases pruned? with
    | some found => exact .pruned coarsePassed (finePassed spent pruned)
    | none => exact .retried coarsePassed (finePassed spent pruned) (finePassed 0 whole)

end Parser

end ChartParsing
