import ChartParsing.Parser.Basic
import ChartParsing.Proofs.Chart.InsideBest
import ChartParsing.Proofs.Computation
import ChartParsing.Proofs.Lexicon.Table

/-!
# The outcomes of parsing

A sentence is parsed by passes over the fine model, each behind the same checks.
`Pass.bestParse?` is what such a pass returns once the checks have been passed
(`Parser.finePass_eq_ok_iff`).  Where the model is sound and the taggings are accepted,
nothing is ever missing from it (`Pass.bestParse?_cases`).
-/

namespace ChartParsing

/-- The pass of a model over a sentence. -/
abbrev Model.pass {σ : Type} (model : Model σ) (words : List String) (pruned : Pruned) :
    Pass σ :=
  ⟨model, words, pruned⟩

/-! ## The checks before a pass -/

namespace Config

variable {σ : Type} {config : Config σ}

theorem charge_of_unlimited (unlimited : config.maxEdges = none) (spent edges : Nat) :
    config.charge spent edges = .ok (spent + edges) := by
  rw [charge, unlimited]

/-- Charging what is left of the budget succeeds. -/
theorem charge_of_le {max spent edges : Nat} (limited : config.maxEdges = some max)
    (enough : spent + edges ≤ max) : config.charge spent edges = .ok (spent + edges) := by
  rw [charge, limited]
  exact if_neg (Nat.not_lt_of_le enough)

/-- Charging adds up, and stays within the budget. -/
theorem of_charge_eq_ok {spent edges total : Nat}
    (charged : config.charge spent edges = .ok total) :
    total = spent + edges ∧ ∀ max, config.maxEdges = some max → spent + edges ≤ max := by
  unfold charge at charged
  dsimp only at charged
  split at charged
  · rename_i max limited
    split at charged
    · cases charged
    · rename_i within
      refine ⟨(Except.ok.inj charged).symm, ?_⟩
      rintro _ limitedAgain
      obtain rfl := Option.some.inj (limited.symm.trans limitedAgain)
      exact Nat.le_of_not_lt within
  · rename_i unlimited
    exact ⟨(Except.ok.inj charged).symm, fun max limited => nomatch unlimited.symm.trans limited⟩

/-- Charging a sentence fails only where its budget is exhausted. -/
theorem exists_max_of_charge {spent edges : Nat} {error : ParseError σ}
    (failed : config.charge spent edges = .error error) :
    ∃ max, config.maxEdges = some max ∧ error = .budgetExhausted max ∧
      max < spent + edges := by
  unfold charge at failed
  dsimp only at failed
  split at failed
  · rename_i max limited
    split at failed
    · rename_i exceeded
      exact ⟨max, limited, (Except.error.inj failed).symm, exceeded⟩
    · cases failed
  · cases failed

theorem checkLength_of_unlimited (unlimited : config.maxLength = none) (length : Nat) :
    config.checkLength length = .ok () := by
  rw [checkLength, unlimited]

theorem exists_max_of_checkLength {length : Nat} {error : ParseError σ}
    (failed : config.checkLength length = .error error) :
    ∃ max, config.maxLength = some max ∧ error = .sentenceTooLong length max := by
  unfold checkLength at failed
  split at failed
  · rename_i max limited
    split at failed
    · exact ⟨max, limited, (Except.error.inj failed).symm⟩
    · cases failed
  · cases failed

end Config

namespace Pass

section

variable {σ : Type} [Score σ] {pass : Pass σ}

/-- What a pass says of the word at a position and a label. -/
def taggingErrorAt? (pass : Pass σ) (position : Nat) (label : LabelId) :
    Option (ParseError σ) :=
  let word := pass.words.getD position ""
  let tag := pass.model.grammar.labels.name label
  let score := pass.model.tagScore word tag
  if pass.pruned .built label position (position + 1) then none
  else if 0 < score then some (.positiveTaggingScore position word tag score)
  else none

/-- A pass goes through its words by position, and for each of them through the labels. -/
theorem taggingError?_eq_findSome? (pass : Pass σ) :
    pass.taggingError? =
      (List.range pass.length).findSome? fun position =>
        (List.range pass.model.grammar.labels.size).findSome? (pass.taggingErrorAt? position) := by
  have numbered : pass.words.zipIdx = (List.range pass.words.length).map fun position =>
      (pass.words.getD position "", position) := by
    apply List.ext_getElem
    · simp
    · intro position inside _
      simp at inside
      simp [inside]
  rw [taggingError?, numbered, List.findSome?_map]
  rfl

/-- The taggings of a pass are accepted if no word in a cell to be filled scores above
zero. -/
theorem taggingError?_eq_none_iff :
    pass.taggingError? = none ↔
      ∀ label < pass.model.grammar.labels.size, ∀ start < pass.length,
        pass.pruned .built label start (start + 1) = false →
        ¬0 < pass.model.tagScore (pass.words.getD start "")
          (pass.model.grammar.labels.name label) := by
  rw [taggingError?_eq_findSome?]
  simp only [List.findSome?_eq_none_iff, List.mem_range, taggingErrorAt?]
  constructor
  · intro accepted label known start inside kept positive
    have noError := accepted start inside label known
    rw [kept, if_neg Bool.false_ne_true, if_pos positive] at noError
    cases noError
  · intro accepted start inside label known
    split
    · rfl
    · rename_i kept
      exact if_neg (accepted label known start inside (Bool.not_eq_true _ ▸ kept))

theorem checkTaggings_eq_ok_iff :
    pass.checkTaggings = .ok () ↔ pass.taggingError? = none := by
  unfold checkTaggings
  cases pass.taggingError? <;> simp

theorem checkTaggings_eq_error_iff {error : ParseError σ} :
    pass.checkTaggings = .error error ↔ pass.taggingError? = some error := by
  unfold checkTaggings
  cases pass.taggingError? <;> simp

/-- A tagging error is about a tagging. -/
theorem isTaggingError_of_taggingError? {error : ParseError σ}
    (found : pass.taggingError? = some error) :
    ∃ position word label score, error = .positiveTaggingScore position word label score := by
  rw [taggingError?_eq_findSome?] at found
  rcases List.exists_of_findSome?_eq_some found with ⟨position, -, found⟩
  rcases List.exists_of_findSome?_eq_some found with ⟨label, -, found⟩
  unfold taggingErrorAt? at found
  dsimp only at found
  split at found
  · cases found
  · split at found
    · exact ⟨_, _, _, _, (Option.some.inj found).symm⟩
    · cases found

/-- A tag that does not score above zero is not positive, whatever the lexicon
answers. -/
theorem tagScore_nonpos_of_not_pos [Score.Descending σ] {model : Model σ} {word tag : String}
    (notPositive : ¬0 < model.tagScore word tag) : model.tagScore word tag ≤ 0 := by
  unfold Model.tagScore Score.orImpossible at notPositive ⊢
  split at notPositive
  · rename_i undefined
    rw [if_pos undefined]
    exact Score.impossible_nonpos
  · rename_i isValue
    rw [if_neg isValue]
    exact Score.Descending.nonpos_of_not_pos (Bool.not_eq_true _ ▸ isValue) notPositive

/-- A lexicon that scores nothing above zero leaves no tag a positive score. -/
theorem not_tagScore_pos [Score.Monotone σ] {model : Model σ}
    (nonpositive : model.lexicon.Nonpositive) (word tag : String) :
    ¬0 < model.tagScore word tag := by
  unfold Model.tagScore Score.orImpossible
  split
  · exact Score.not_pos_of_nonpos Score.impossible_nonpos
  · exact nonpositive _ _

/-- The taggings of a lexicon that scores nothing above zero are accepted. -/
theorem taggingError?_of_nonpositive [Score.Monotone σ]
    (nonpositive : pass.model.lexicon.Nonpositive) : pass.taggingError? = none := by
  rw [taggingError?_eq_none_iff]
  intro label _ start _ _
  exact not_tagScore_pos nonpositive _ _

/-- The best parse of a pass whose taggings have been checked. -/
def bestParse? (pass : Pass σ) : Except (ParseError σ) (Option (ScoredParse σ)) :=
  if Score.isImpossible pass.total then .ok none
  else
    match pass.derivation? pass.inside pass.model.grammar.root 0 pass.length with
    | none => .error (.missingConstituent pass.model.grammar.rootName 0 0)
    | some derivation =>
        .ok (some ⟨Refinement.unannotate derivation, derivation, pass.total, false⟩)

/-- Once its taggings have been checked, a pass can only miss a constituent. -/
theorem exists_missing_of_bestParse? {error : ParseError σ}
    (failed : pass.bestParse? = .error error) :
    ∃ label start stop, error = .missingConstituent label start stop := by
  unfold bestParse? at failed
  split at failed
  · cases failed
  · split at failed
    · exact ⟨_, _, _, (Except.error.inj failed).symm⟩
    · cases failed

/-- The chart of the empty sentence is empty. -/
theorem score_of_length_eq_zero (empty : pass.length = 0) (stage : Stage)
    (label : LabelId) : pass.inside.score stage label 0 pass.length = impossible := by
  have noRows : pass.inside.cells.rows = #[] := by
    rw [inside, empty]
    rfl
  cases stage with
  | built =>
      simp [InsideChart.score, InsideChart.built, InsideChart.span, Rows.getD, noRows]
  | closed =>
      simp [InsideChart.score, InsideChart.closed, InsideChart.span, Rows.getD, noRows]

end

variable {pass : Pass ExactScore}

/-- A pass of a sound model whose taggings are accepted meets no positive score. -/
theorem nonpositive_of_accepted (sound : pass.model.Sound)
    (accepted : pass.taggingError? = none) : pass.Nonpositive :=
  nonpositive_of_sound sound fun label known start inside kept =>
    tagScore_nonpos_of_not_pos
      (taggingError?_eq_none_iff.mp accepted label known start inside kept)

/-- A root cell that is not impossible leads to a parse with its score. -/
theorem exists_root_derivation (sound : pass.model.Sound)
    (accepted : pass.taggingError? = none) (possible : pass.total ≠ impossible) :
    ∃ derivation,
      pass.derivation? pass.inside pass.model.grammar.root 0 pass.length =
        some derivation ∧
      pass.model.IsParse pass.words derivation pass.total := by
  have nonempty : 0 < pass.length := by
    by_contra empty
    exact possible (score_of_length_eq_zero (Nat.eq_zero_of_not_pos empty) _ _)
  obtain ⟨derivation, found, admits⟩ :=
    exists_derivation sound (nonpositive_of_accepted sound accepted) nonempty
      (Nat.le_refl _) sound.grammar.rooted possible
  exact ⟨derivation, found, admits.isParse sound.grammar⟩

/-- The root cell is not positive, even over the empty sentence. -/
theorem total_nonpos (sound : pass.model.Sound) (accepted : pass.taggingError? = none) :
    pass.total ≤ 0 := by
  unfold total
  rcases Nat.eq_zero_or_pos pass.length with empty | nonempty
  · rw [score_of_length_eq_zero empty]
    exact Score.impossible_nonpos
  · exact score_nonpos (nonpositive_of_accepted sound accepted) nonempty (Nat.le_refl _)
      sound.grammar.rooted .closed

/-- A pass either finds nothing possible or returns a parse with the score of the root
cell. -/
theorem bestParse?_cases (sound : pass.model.Sound)
    (accepted : pass.taggingError? = none) :
    (pass.total = impossible ∧ pass.bestParse? = .ok none) ∨
      ∃ derivation, pass.total ≠ impossible ∧
        pass.model.IsParse pass.words derivation pass.total ∧
        pass.bestParse? =
          .ok (some ⟨Refinement.unannotate derivation, derivation, pass.total, false⟩) := by
  have isImpossible_iff :=
    ExactScore.isImpossible_iff_of_nonpos (total_nonpos sound accepted)
  unfold bestParse?
  by_cases impossible : Score.isImpossible pass.total = true
  · rw [if_pos impossible]
    exact Or.inl ⟨isImpossible_iff.mp impossible, rfl⟩
  · have possible := fun same => impossible (isImpossible_iff.mpr same)
    rcases exists_root_derivation sound accepted possible with ⟨derivation, found, parse⟩
    rw [if_neg impossible, found]
    exact Or.inr ⟨derivation, possible, parse, rfl⟩

end Pass

/-! ## Passes of a parser -/

namespace Parser

variable {σ : Type} [Score σ] {parser : Parser σ} {words : List String}

/-- A pass returns what it finds if its taggings and its cost are accepted. -/
theorem finePass_eq_ok_iff {pruned : Pruned} {spent : Nat}
    {result : Option (ScoredParse σ)} :
    parser.finePass words pruned spent = .ok result ↔
      (parser.fine.pass words pruned).taggingError? = none ∧
        (∃ total, parser.config.charge spent
          (parser.fine.pass words pruned).cost = .ok total) ∧
        (parser.fine.pass words pruned).bestParse? = .ok result := by
  constructor
  · intro returned
    rcases bind_eq_ok_iff.mp returned with ⟨checked, taggings, returned⟩
    rcases bind_eq_ok_iff.mp returned with ⟨total, charged, returned⟩
    exact ⟨Pass.checkTaggings_eq_ok_iff.mp taggings, ⟨total, charged⟩, returned⟩
  · rintro ⟨taggings, ⟨total, charged⟩, returned⟩
    exact bind_eq_ok_iff.mpr ⟨(), Pass.checkTaggings_eq_ok_iff.mpr taggings,
      bind_eq_ok_iff.mpr ⟨total, charged, returned⟩⟩

/-- Without limits a pass is made if its taggings are accepted. -/
theorem finePass_of_unlimited (unlimited : parser.config.maxEdges = none)
    {pruned : Pruned} (spent : Nat)
    (accepted : (parser.fine.pass words pruned).taggingError? = none) :
    parser.finePass words pruned spent = (parser.fine.pass words pruned).bestParse? := by
  have charged := Config.charge_of_unlimited unlimited spent
    (parser.fine.pass words pruned).cost
  have checked := Pass.checkTaggings_eq_ok_iff.mpr accepted
  unfold finePass
  dsimp only
  rw [checked, charged]
  rfl

/-- A pass fails for a tagging, for its cost, or for what it finds after the checks. -/
theorem finePass_eq_error_cases {pruned : Pruned} {spent : Nat} {error : ParseError σ}
    (failed : parser.finePass words pruned spent = .error error) :
    (parser.fine.pass words pruned).taggingError? = some error ∨
      (∃ max, parser.config.maxEdges = some max ∧ error = .budgetExhausted max ∧
        max < spent + (parser.fine.pass words pruned).cost) ∨
      (parser.fine.pass words pruned).taggingError? = none ∧
        (parser.fine.pass words pruned).bestParse? = .error error := by
  rcases bind_eq_error_iff.mp failed with failed | ⟨checked, taggings, failed⟩
  · exact Or.inl (Pass.checkTaggings_eq_error_iff.mp failed)
  · right
    rcases bind_eq_error_iff.mp failed with failed | ⟨total, charged, failed⟩
    · exact Or.inl (Config.exists_max_of_charge failed)
    · exact Or.inr ⟨Pass.checkTaggings_eq_ok_iff.mp taggings, failed⟩

/-- A pass that misses a constituent has passed the checks. -/
theorem bestParse?_of_finePass_eq_missing {pruned : Pruned} {spent : Nat}
    {label : String} {start stop : Nat}
    (failed : parser.finePass words pruned spent =
      .error (.missingConstituent label start stop)) :
    (parser.fine.pass words pruned).taggingError? = none ∧
      (parser.fine.pass words pruned).bestParse? =
        .error (.missingConstituent label start stop) := by
  rcases finePass_eq_error_cases failed with found | ⟨_, -, same, -⟩ | passed
  · obtain ⟨_, _, _, _, same⟩ := Pass.isTaggingError_of_taggingError? found
    cases same
  · cases same
  · exact passed

end Parser

end ChartParsing
