import ChartParsing.Proofs.Parser.Attempts
import ChartParsing.Proofs.Refinement.Restore

/-!
# Every parse is genuine

Whatever a parser prunes and whatever its limits are, the parse that it returns is a
derivation of the sentence at the score that it claims, and no constituent that a
cell promises is ever missing.  Nothing is asked of the coarse model, of the label
map, of the configuration or of the lexicon.
-/

namespace ChartParsing.Parser

section

variable {σ : Type} [Score σ]

/-! ## The passes behind an outcome -/

/-- A sentence that is not empty is checked for its length, then parsed as the
configuration says. -/
theorem parse_of_ne_nil (parser : Parser σ) {words : List String} (nonempty : words ≠ []) :
    parser.parse words =
      (parser.config.checkLength words.length >>= fun _ =>
        match parser.config.pruning with
        | .below threshold => parser.parsePruned words threshold
        | .disabled => parser.parseExhaustively words) := by
  have notEmpty : ¬words.isEmpty := by
    simpa using nonempty
  unfold parse
  exact if_neg notEmpty

variable {parser : Parser σ} {words : List String}

/-- Without pruning a sentence is parsed by the whole fine chart. -/
theorem parse_eq_of_disabled (config : parser.config = ⟨.disabled, none, none⟩)
    (nonempty : words ≠ []) (accepted : (parser.fine.pass words .nothing).taggingError? = none) :
    parser.parse words = (parser.fine.pass words .nothing).bestParse? := by
  rw [parse_of_ne_nil parser nonempty, config, Config.checkLength_of_unlimited rfl]
  exact finePass_of_unlimited (congrArg Config.maxEdges config) 0 accepted

/-- A parse that is returned after pruning comes from a pass. -/
theorem exists_finePass_of_parsePruned_eq_ok {threshold : σ} {parse : ScoredParse σ}
    (parsed : parser.parsePruned words threshold = .ok (some parse)) :
    ∃ pruned spent found, parser.finePass words pruned spent = .ok (some found) ∧
      parse = { found with usedFallback := parse.usedFallback } := by
  generalize same : some parse = result at parsed
  cases parsePruned_eq_ok_iff.mp parsed with
  | unpruned _ finePassed => exact ⟨_, _, parse, same ▸ finePassed, rfl⟩
  | pruned _ finePassed => exact ⟨_, _, parse, same ▸ finePassed, rfl⟩
  | retried _ _ exhausted =>
      rcases Option.map_eq_some_iff.mp same.symm with ⟨found, rfl, rfl⟩
      exact ⟨_, _, found, exhausted, rfl⟩

/-- A parse that is returned comes from a pass over the fine model. -/
theorem exists_finePass_of_parse_eq_ok {parse : ScoredParse σ}
    (parsed : parser.parse words = .ok (some parse)) :
    ∃ pruned spent found, parser.finePass words pruned spent = .ok (some found) ∧
      parse = { found with usedFallback := parse.usedFallback } := by
  by_cases empty : words = []
  · subst empty
    cases parsed
  · rw [parse_of_ne_nil parser empty] at parsed
    rcases bind_eq_ok_iff.mp parsed with ⟨-, -, parsed⟩
    split at parsed
    · exact exists_finePass_of_parsePruned_eq_ok parsed
    · exact ⟨_, _, parse, parsed, rfl⟩

theorem coarsePass_ne_missing {label : String} {start stop : Nat} :
    parser.coarsePass words ≠ .error (.missingConstituent label start stop) := by
  intro failed
  rcases coarsePass_eq_error_cases failed with found | ⟨_, -, same, -⟩
  · obtain ⟨_, _, _, _, same⟩ := Pass.isTaggingError_of_taggingError? found
    cases same
  · cases same

/-- A parse fails because the sentence is too long or because one of its passes fails. -/
theorem parse_eq_error_cases {error : ParseError σ} (failed : parser.parse words = .error error) :
    (∃ max, parser.config.maxLength = some max ∧ error = .sentenceTooLong words.length max) ∨
      parser.coarsePass words = .error error ∨
      ∃ pruned spent, parser.finePass words pruned spent = .error error := by
  by_cases empty : words = []
  · subst empty
    cases failed
  · rw [parse_of_ne_nil parser empty] at failed
    rcases bind_eq_error_iff.mp failed with failed | ⟨_, -, failed⟩
    · exact Or.inl (Config.exists_max_of_checkLength failed)
    · right
      split at failed
      · rcases bind_eq_error_iff.mp failed with failed | ⟨⟨posterior?, spent⟩, -, failed⟩
        · exact Or.inl failed
        · right
          cases posterior? with
          | none => exact ⟨_, _, failed⟩
          | some posterior =>
              rcases bind_eq_error_iff.mp failed with failed | ⟨result, -, failed⟩
              · exact ⟨_, _, failed⟩
              · cases result with
                | some found => cases failed
                | none =>
                    rcases bind_eq_error_iff.mp failed with failed | ⟨_, -, failed⟩
                    · exact ⟨_, _, failed⟩
                    · cases failed
      · exact Or.inr ⟨_, _, failed⟩

/-- A complaint about a missing constituent comes from a pass over the fine model. -/
theorem exists_finePass_of_parse_eq_missing {label : String} {start stop : Nat}
    (failed : parser.parse words = .error (.missingConstituent label start stop)) :
    ∃ pruned spent, parser.finePass words pruned spent =
      .error (.missingConstituent label start stop) := by
  rcases parse_eq_error_cases failed with ⟨max, -, same⟩ | failed | failed
  · cases same
  · exact absurd failed coarsePass_ne_missing
  · exact failed

end

/-! ## What is returned -/

variable {grammar : Grammar ExactScore} {lexicon : Lexicon ExactScore}
  {parser : Parser ExactScore} {words : List String}

/-- The parse that a pass finds is one of the sentence. -/
theorem isParse_of_finePass (sound : parser.fine.Sound) {pruned : Pruned} {spent : Nat}
    {found : ScoredParse ExactScore}
    (passed : parser.finePass words pruned spent = .ok (some found)) :
    found.tree = Refinement.unannotate found.derivation ∧
      parser.fine.IsParse words found.derivation found.score := by
  rcases finePass_eq_ok_iff.mp passed with ⟨accepted, -, passed⟩
  rcases Pass.bestParse?_cases sound accepted with
    ⟨-, none⟩ | ⟨derivation, -, parse, some⟩
  · rw [none] at passed
    cases passed
  · rw [some] at passed
    obtain rfl := Option.some.inj (Except.ok.inj passed)
    exact ⟨rfl, parse⟩

/-- No parse is claimed that the fine model does not derive, and none is missing. -/
theorem parse_genuine (declared : grammar.IsDeclared)
    (isModel : Model.IsModelOf grammar lexicon parser.fine) (words : List String) :
    (∀ pruned, (parser.fine.pass words pruned).taggingError? = none →
      (parser.fine.pass words pruned).inside.score .closed grammar.root 0 words.length ≠
        impossible →
      ∃ derivation, (parser.fine.pass words pruned).derivation?
        (parser.fine.pass words pruned).inside grammar.root 0 words.length =
          some derivation) ∧
    (∀ label start stop,
      parser.parse words ≠ .error (.missingConstituent label start stop)) ∧
    ∀ parse, parser.parse words = .ok (some parse) →
      parse.derivation.label = grammar.rootName ∧ parse.derivation.leaves = words ∧
      parse.tree = Refinement.unannotate parse.derivation ∧ parse.tree.leaves = words ∧
      parser.fine.scoreDerivation? parse.derivation = some parse.score := by
  have sound := isModel.sound declared
  obtain rfl := isModel.grammar_eq
  refine ⟨?extraction, ?missing, ?genuine⟩
  case extraction =>
    intro pruned accepted possible
    obtain ⟨derivation, found, -⟩ := Pass.exists_root_derivation sound accepted possible
    exact ⟨derivation, found⟩
  case missing =>
    intro label start stop failed
    rcases exists_finePass_of_parse_eq_missing failed with ⟨pruned, spent, failed⟩
    rcases bestParse?_of_finePass_eq_missing failed with ⟨accepted, failed⟩
    rcases Pass.bestParse?_cases sound accepted with ⟨-, none⟩ | ⟨_, -, -, some⟩
    · rw [none] at failed
      cases failed
    · rw [some] at failed
      cases failed
  case genuine =>
    intro parse parsed
    obtain ⟨pruned, spent, found, passed, same⟩ := exists_finePass_of_parse_eq_ok parsed
    rcases isParse_of_finePass sound passed with ⟨unannotated, isParse⟩
    rw [same]
    have treeLeaves : found.tree.leaves = words := by
      rw [unannotated, Refinement.leaves_unannotate]
      exact isParse.leaves
    exact ⟨isParse.label, isParse.leaves, unannotated, treeLeaves, isParse.scored⟩

/-- A sentence is parsed by a parser that prunes and has limits. -/
theorem parse_genuine_dogs_bark :
    ∃ parse,
      (Sample.Exact.parser ⟨.below (.finite (-1)), some 2, some 100⟩).parse
        ["dogs", "bark"] = .ok (some parse) ∧
      parse.derivation.leaves = ["dogs", "bark"] ∧ parse.tree.leaves = ["dogs", "bark"] ∧
      Sample.Exact.fine.scoreDerivation? parse.derivation = some parse.score := by
  have isModel : Model.IsModelOf Sample.Exact.grammar Sample.Exact.lexicon.score
      (Sample.Exact.parser ⟨.below (.finite (-1)), some 2, some 100⟩).fine :=
    Model.IsModelOf.sample_fine
  obtain ⟨-, -, genuine⟩ := parse_genuine Grammar.isDeclared_sample isModel ["dogs", "bark"]
  have score :
      ((Sample.Exact.parser ⟨.below (.finite (-1)), some 2, some 100⟩).parse
        ["dogs", "bark"]).map (Option.map ScoredParse.score) =
          .ok (some (.finite (-89 / 24))) := by
    decide +kernel
  rcases exists_of_map_eq_ok score with ⟨parse, parsed, -⟩
  rcases genuine parse parsed with ⟨-, leaves, -, treeLeaves, scored⟩
  exact ⟨parse, parsed, leaves, treeLeaves, scored⟩

end ChartParsing.Parser
