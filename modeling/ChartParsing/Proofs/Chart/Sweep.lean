import ChartParsing.Chart.Recurrence
import ChartParsing.Proofs.Chart.Spending
import ChartParsing.Proofs.Chart.SweepCells
import ChartParsing.Proofs.Parser.Outcome
import ChartParsing.Proofs.Unary.Bounds

/-!
# Tables filled in place hold the chart

A sweep fills the cells one after the other.  What it spends and which error it fails with
does not depend on what the tables hold (`Sweep.insideSpending`), and the tables end up with
the scores of the inside chart, and their numbers with its choices
(`Sweep.inside_spends`).  While the sweep is at a cell, the cells before it hold those of the
finished chart and the others are empty (`Sweep.FilledTo`).

Numbers never run out (`Sweep.Fits`): a grammar has no more rules than fit, and chains and
words are taken to be no more than that.
-/

namespace ChartParsing

variable {σ : Type} [Score σ]

/-! ## The order of cells -/

/-- A number of labels for each of the two stages. -/
def stageCounts (built closed : Nat) : Stage → Nat
  | .built => built
  | .closed => closed

/-- The cells that come before some labels of the span that starts at `column` and leaves
out `missing` words: those of earlier rows, of spans further left, and of the span itself. -/
def Reached (earlier : Nat → Prop) (missing column : Nat) (counts : Stage → Nat)
    (stage : Stage) (label start right : Nat) : Prop :=
  earlier (start + right) ∨
    start + right = missing ∧ (start < column ∨ start = column ∧ label < counts stage)

section

variable {earlier : Nat → Prop} {missing column built closed label start right : Nat}
  {stage : Stage}

theorem reached_built_succ {place : Nat} :
    Reached earlier missing column (stageCounts (place + 1) closed) .built label start right ↔
      Reached earlier missing column (stageCounts place closed) .built label start right ∨
        start + right = missing ∧ start = column ∧ label = place := by
  simp only [Reached, stageCounts, Nat.lt_succ_iff_lt_or_eq]
  tauto

theorem reached_closed_succ {place : Nat} :
    Reached earlier missing column (stageCounts built (place + 1)) .closed label start right ↔
      Reached earlier missing column (stageCounts built place) .closed label start right ∨
        start + right = missing ∧ start = column ∧ label = place := by
  simp only [Reached, stageCounts, Nat.lt_succ_iff_lt_or_eq]
  tauto

/-- After all labels of a span comes the next span. -/
theorem reached_next_column {count : Nat} (known : label < count) :
    Reached earlier missing (column + 1) (stageCounts 0 0) stage label start right ↔
      Reached earlier missing column (stageCounts count count) stage label start right := by
  unfold Reached
  refine or_congr Iff.rfl (and_congr Iff.rfl ?_)
  cases stage <;> simp only [stageCounts] <;> omega

/-- Before a row come the rows above it. -/
theorem reached_row_above :
    Reached (missing < ·) missing 0 (stageCounts 0 0) stage label start right ↔
      Reached (missing + 1 < ·) (missing + 1) (missing + 1 + 1) (stageCounts 0 0) stage label
        start right := by
  unfold Reached
  cases stage <;> simp only [stageCounts] <;> omega

theorem reached_first_row :
    Reached (0 < ·) 0 (0 + 1) (stageCounts 0 0) stage label start right := by
  unfold Reached
  omega

/-- No cell comes before the first row. -/
theorem not_reached_above {shape : ChartShape} (valid : shape.Valid label start right) :
    ¬Reached (shape.length < ·) shape.length (shape.length + 1) (stageCounts 0 0) stage label
      start right := by
  have inside := valid.inside
  unfold Reached
  omega

end

namespace Sweep

/-- The pass that a sweep over its cells belongs to. -/
abbrev pass {σ : Type} (sweep : Sweep σ) (pruned : Pruned) : Pass σ :=
  ⟨sweep.model, sweep.words, pruned⟩

/-- All that tables refer to is in place and has a number. -/
structure Fits (sweep : Sweep σ) : Prop where
  grammar : sweep.model.grammar.WellFormed
  closure : sweep.model.closure.Bounded sweep.model.grammar.labels.size
  chains : sweep.model.closure.chains.length ≤ ruleLimit
  words : sweep.words.length ≤ ruleLimit

/-- A sweep passes over the cells that are pruned. -/
def Follows (sweep : Sweep σ) (pruned : Pruned) : Prop :=
  ∀ stage label start right, sweep.shape.Valid label start right →
    sweep.skips stage label start right =
      pruned stage label start (sweep.words.length - right)

/-- The cells before a place hold those of the finished chart and the others are empty. -/
structure FilledTo (sweep : Sweep σ) (pruned : Pruned) (missing column : Nat)
    (counts : Stage → Nat) (tables : InsideTables sweep.shape σ) : Prop where
  built : ∀ {label start right}, sweep.shape.Valid label start right →
    Reached (missing < ·) missing column counts .built label start right →
      tables.HoldsBuilt sweep.model.grammar label start right
        ((sweep.pass pruned).inside.built label start (sweep.words.length - right))
  unbuilt : ∀ {label start right}, sweep.shape.Valid label start right →
    ¬Reached (missing < ·) missing column counts .built label start right →
      tables.HoldsBuilt sweep.model.grammar label start right Best.empty
  closed : ∀ {label start right}, sweep.shape.Valid label start right →
    Reached (missing < ·) missing column counts .closed label start right →
      tables.HoldsClosed sweep.model.closure label start right
        ((sweep.pass pruned).inside.closed label start (sweep.words.length - right))
  unclosed : ∀ {label start right}, sweep.shape.Valid label start right →
    ¬Reached (missing < ·) missing column counts .closed label start right →
      tables.HoldsClosed sweep.model.closure label start right Best.empty
  kept : tables.backpointers?.isSome = sweep.keepsChoices

variable {sweep : Sweep σ} {pruned : Pruned} {missing column label : Nat}
  {tables next : InsideTables sweep.shape σ}

namespace FilledTo

/-- What matters is which cells have been reached. -/
theorem congr {otherMissing otherColumn : Nat} {counts otherCounts : Stage → Nat}
    (filled : sweep.FilledTo pruned missing column counts tables)
    (same : ∀ stage label start right, sweep.shape.Valid label start right →
      (Reached (otherMissing < ·) otherMissing otherColumn otherCounts stage label start right ↔
        Reached (missing < ·) missing column counts stage label start right)) :
    sweep.FilledTo pruned otherMissing otherColumn otherCounts tables where
  built valid reached := filled.built valid ((same _ _ _ _ valid).mp reached)
  unbuilt valid open_ := filled.unbuilt valid (open_ ∘ (same _ _ _ _ valid).mpr)
  closed valid reached := filled.closed valid ((same _ _ _ _ valid).mp reached)
  unclosed valid open_ := filled.unclosed valid (open_ ∘ (same _ _ _ _ valid).mpr)
  kept := filled.kept

variable {right : Nat}

/-- One more built cell holds what the chart holds. -/
theorem build (filled : sweep.FilledTo pruned missing column (stageCounts label 0) tables)
    (whole : column + right = missing)
    (only : tables.BuildsOnly next label column right)
    (here : next.HoldsBuilt sweep.model.grammar label column right
      ((sweep.pass pruned).inside.built label column (sweep.words.length - right))) :
    sweep.FilledTo pruned missing column (stageCounts (label + 1) 0) next := by
  constructor
  case built =>
    intro other otherStart otherRight valid reached
    by_cases same : label = other ∧ column = otherStart ∧ right = otherRight
    · rcases same with ⟨rfl, rfl, rfl⟩
      exact here
    · refine (filled.built valid ?_).of_builtAt_eq (only.built valid same _)
      rcases reached_built_succ.mp reached with before | ⟨sum, rfl, rfl⟩
      · exact before
      · exact absurd ⟨rfl, rfl, by omega⟩ same
  case unbuilt =>
    intro other otherStart otherRight valid ahead
    rw [reached_built_succ, not_or] at ahead
    refine (filled.unbuilt valid ahead.1).of_builtAt_eq (only.built valid ?_ _)
    rintro ⟨rfl, rfl, rfl⟩
    exact ahead.2 ⟨whole, rfl, rfl⟩
  case closed =>
    intro other otherStart otherRight valid reached
    exact (filled.closed valid reached).of_closedAt_eq (only.closed _ _ _ _)
  case unclosed =>
    intro other otherStart otherRight valid ahead
    exact (filled.unclosed valid ahead).of_closedAt_eq (only.closed _ _ _ _)
  case kept => exact (only.isSome_backpointers? sweep.model.closure).trans filled.kept

/-- One more closed cell holds what the chart holds. -/
theorem close {count : Nat}
    (filled : sweep.FilledTo pruned missing column (stageCounts count label) tables)
    (whole : column + right = missing)
    (only : tables.ClosesOnly next label column right)
    (here : next.HoldsClosed sweep.model.closure label column right
      ((sweep.pass pruned).inside.closed label column (sweep.words.length - right))) :
    sweep.FilledTo pruned missing column (stageCounts count (label + 1)) next := by
  constructor
  case built =>
    intro other otherStart otherRight valid reached
    exact (filled.built valid reached).of_builtAt_eq (only.built _ _ _ _)
  case unbuilt =>
    intro other otherStart otherRight valid ahead
    exact (filled.unbuilt valid ahead).of_builtAt_eq (only.built _ _ _ _)
  case closed =>
    intro other otherStart otherRight valid reached
    by_cases same : label = other ∧ column = otherStart ∧ right = otherRight
    · rcases same with ⟨rfl, rfl, rfl⟩
      exact here
    · refine (filled.closed valid ?_).of_closedAt_eq (only.closed valid same _)
      rcases reached_closed_succ.mp reached with before | ⟨sum, rfl, rfl⟩
      · exact before
      · exact absurd ⟨rfl, rfl, by omega⟩ same
  case unclosed =>
    intro other otherStart otherRight valid ahead
    rw [reached_closed_succ, not_or] at ahead
    refine (filled.unclosed valid ahead.1).of_closedAt_eq (only.closed valid ?_ _)
    rintro ⟨rfl, rfl, rfl⟩
    exact ahead.2 ⟨whole, rfl, rfl⟩
  case kept => exact (only.isSome_backpointers? sweep.model.grammar).trans filled.kept

/-- The parts of all splits of a span have been reached. -/
theorem parts {counts : Stage → Nat} (fits : sweep.Fits)
    (filled : sweep.FilledTo pruned missing column counts tables)
    (valid : sweep.shape.Valid label column right) (whole : column + right = missing) :
    ∀ rule ordinal, (sweep.model.grammar.byParent.rules label)[ordinal]? = some rule →
      ∀ middle ∈ middles column (sweep.words.length - right),
        tables.score .closed rule.left column (sweep.words.length - middle) =
            ((sweep.pass pruned).inside.closed rule.left column middle).score ∧
          tables.score .closed rule.right middle right =
            ((sweep.pass pruned).inside.closed rule.right middle
              (sweep.words.length - right)).score ∧
          InsideTables.Stands sweep.model.grammar label (ordinal, middle)
            (.split rule middle) := by
  intro rule ordinal found middle between
  rcases valid with ⟨known, inside⟩
  change column + right < sweep.words.length at inside
  rcases mem_middles.mp between with ⟨after, before⟩
  have listed := List.mem_of_getElem? found
  rcases fits.grammar.parts_of_mem_byParent known listed with ⟨leftKnown, rightKnown, -⟩
  have leftValid : sweep.shape.Valid rule.left column (sweep.words.length - middle) :=
    ⟨leftKnown, by change _ < sweep.words.length; omega⟩
  have rightValid : sweep.shape.Valid rule.right middle right :=
    ⟨rightKnown, by change _ < sweep.words.length; omega⟩
  have leftHeld := (filled.closed leftValid (Or.inl (by omega))).score
  rw [Nat.sub_sub_self (by omega)] at leftHeld
  have ordinalFits : ordinal < ruleLimit := by
    have within := (List.getElem?_eq_some_iff.mp found).1
    have rules := fits.grammar.length_byParent_le known
    have numbered := fits.grammar.numbered
    omega
  have middleFits : middle < ruleLimit := by
    have words := fits.words
    omega
  refine ⟨leftHeld, (filled.closed rightValid (Or.inl (by omega))).score, ?_, ordinalFits,
    middleFits⟩
  have set : ¬(ordinal = unset ∨ middle = unset) := by
    unfold unset
    omega
  rw [constructionOf?, if_neg set, found]
  rfl

end FilledTo

/-! ## Built cells -/

/-- What filling a built cell spends. -/
def buildSpending (sweep : Sweep σ) (start right spent : Nat) (label : LabelId) :
    Except (ParseError σ) Nat :=
  if sweep.skips .built label start right then .ok spent
  else if start + right = sweep.words.length - 1 then do
    let _ ← sweep.taggingScore label start
    return spent
  else
    (sweep.model.grammar.byParent.rules label).foldlM
      (fun spent _ => sweep.config.charge spent (sweep.words.length - right - start - 1)) spent

/-- The rules are charged while the best split is sought. -/
theorem bestSplit_eq (tables : InsideTables sweep.shape σ) (label : LabelId)
    (start right spent : Nat) :
    sweep.bestSplit tables label start right spent = do
      let total ← (sweep.model.grammar.byParent.rules label).foldlM
        (fun spent _ => sweep.config.charge spent (sweep.words.length - right - start - 1)) spent
      return (total, tables.numberedBestSplit sweep.model.grammar label start right) := by
  refine (sweep.config.foldlM_charge_search _ _
    (fun best (numbered : BinaryRule σ × Nat) =>
      tables.offerSplits start right best numbered.1 numbered.2) spent Best.empty).trans ?_
  conv_rhs => rw [← List.zipIdx_map_fst 0 (sweep.model.grammar.byParent.rules label),
    List.foldlM_map]
  rfl

section

variable {start right : Nat} (valid : sweep.shape.Valid label start right)

include valid

theorem built_inside :
    (sweep.pass pruned).inside.built label start (sweep.words.length - right) =
      (sweep.pass pruned).builtCell (sweep.pass pruned).inside label start
        (sweep.words.length - right) := by
  rcases valid with ⟨known, inside⟩
  change start + right < sweep.words.length at inside
  exact Pass.built_inside _ (by omega) (Nat.sub_le sweep.words.length right) known

theorem closed_inside :
    (sweep.pass pruned).inside.closed label start (sweep.words.length - right) =
      (sweep.pass pruned).closedCell
        ((sweep.pass pruned).builtCells start (sweep.words.length - right)) label start
        (sweep.words.length - right) := by
  rcases valid with ⟨known, inside⟩
  change start + right < sweep.words.length at inside
  exact Pass.closed_inside _ (by omega) (Nat.sub_le sweep.words.length right) known

end

/-- What is said of a tagging when the cell of its word is filled. -/
theorem taggingScore_eq [Score.Monotone σ] {position : Nat}
    (kept : pruned .built label position (position + 1) = false) :
    sweep.taggingScore label position =
      match (sweep.pass pruned).taggingErrorAt? position label with
      | some error => .error error
      | none => .ok (sweep.model.tagScore (sweep.words.getD position "")
          (sweep.model.grammar.labels.name label)) := by
  have filled : ¬pruned .built label position (position + 1) = true := by simp [kept]
  unfold taggingScore Pass.taggingErrorAt? Model.tagScore Score.orImpossible
  dsimp only
  rw [if_neg filled]
  split
  · rw [if_neg (Score.not_pos_of_nonpos Score.impossible_nonpos)]
  · split <;> rfl

/-- A word that is not positive has the score that is kept. -/
theorem score_word [Score.Descending σ]
    (lowest : ∀ score : σ, score ≤ impossible → score = impossible) {score : σ}
    (nonpos : score ≤ 0) :
    score = ((Best.empty : Best σ (Construction σ)).offer score .word).score := by
  rw [Best.score_offer]
  unfold Score.better
  split
  · rfl
  · rename_i notBetter
    have le : score ≤ impossible := by
      by_contra above
      exact notBetter ((Score.Monotone.lt_iff_not_le Score.impossible_nonpos nonpos).mpr above)
    exact lowest score le

section

variable [Score.Descending σ] (fits : sweep.Fits) (follows : sweep.Follows pruned)
  (lowest : ∀ score : σ, score ≤ impossible → score = impossible)
  {right : Nat} (whole : column + right = missing)
  (inside : missing < sweep.words.length)
  (known : label < sweep.model.grammar.labels.size)

include fits follows lowest whole inside known

omit fits [Score.Descending σ] follows lowest in
/-- No built cell of the span is filled before its column and label come. -/
theorem FilledTo.emptyAt
    (filled : sweep.FilledTo pruned missing column (stageCounts label 0) tables) :
    tables.HoldsBuilt sweep.model.grammar label column right Best.empty :=
  filled.unbuilt ⟨known, whole ▸ inside⟩ (by simp [Reached, stageCounts, whole])

omit fits [Score.Descending σ] lowest in
/-- A skipped cell stays as it is. -/
theorem FilledTo.skip
    (filled : sweep.FilledTo pruned missing column (stageCounts label 0) tables)
    (skipped : sweep.skips .built label column right = true) :
    sweep.FilledTo pruned missing column (stageCounts (label + 1) 0) tables := by
  have valid : sweep.shape.Valid label column right := ⟨known, whole ▸ inside⟩
  refine filled.build whole ⟨fun _ _ _ => rfl, fun _ _ _ _ => rfl⟩ ?_
  rw [built_inside valid, Pass.builtCell, if_pos ((follows _ _ _ _ valid).symm.trans skipped)]
  exact filled.emptyAt whole inside known

omit fits follows in
/-- The score of an accepted tagging fills the cell of its word. -/
theorem FilledTo.putWord
    (filled : sweep.FilledTo pruned missing column (stageCounts label 0) tables)
    (kept : pruned .built label column (sweep.words.length - right) = false)
    (last : column + right = sweep.words.length - 1)
    (accepted : (sweep.pass pruned).taggingErrorAt? column label = none) :
    sweep.FilledTo pruned missing column (stageCounts (label + 1) 0)
      (tables.putWord label column right
        (sweep.model.tagScore (sweep.words.getD column "")
          (sweep.model.grammar.labels.name label))) := by
  have valid : sweep.shape.Valid label column right := ⟨known, whole ▸ inside⟩
  have stop : sweep.words.length - right = column + 1 := by omega
  rw [stop] at kept
  refine filled.build whole (InsideTables.buildsOnly_putWord valid _)
    (InsideTables.holdsBuilt_putWord valid _ last ?_)
  rw [built_inside valid, Pass.builtCell, stop, if_neg (by simp [kept]), if_pos rfl]
  refine score_word lowest (Pass.tagScore_nonpos_of_not_pos ?_)
  intro positive
  unfold Pass.taggingErrorAt? at accepted
  dsimp only at accepted
  rw [if_neg (by simp [kept]), if_pos positive] at accepted
  cases accepted

omit [Score.Descending σ] lowest follows in
/-- The best split fills the cell of a span of several words. -/
theorem FilledTo.exists_putSplit
    (filled : sweep.FilledTo pruned missing column (stageCounts label 0) tables)
    (kept : pruned .built label column (sweep.words.length - right) = false)
    (several : column + right ≠ sweep.words.length - 1) :
    ∃ next, tables.putSplit label column right
        (tables.numberedBestSplit sweep.model.grammar label column right) = .ok next ∧
      sweep.FilledTo pruned missing column (stageCounts (label + 1) 0) next := by
  have valid : sweep.shape.Valid label column right := ⟨known, whole ▸ inside⟩
  have alike : Best.Alike Eq (InsideTables.Stands sweep.model.grammar label)
      (tables.numberedBestSplit sweep.model.grammar label column right)
      ((sweep.pass pruned).inside.bestSplit sweep.model.grammar label column
        (sweep.words.length - right)) :=
    InsideTables.alike_numberedBestSplit (filled.parts fits valid whole)
  have cell : (sweep.pass pruned).inside.built label column (sweep.words.length - right) =
      (sweep.pass pruned).inside.bestSplit sweep.model.grammar label column
        (sweep.words.length - right) := by
    rw [built_inside valid, Pass.builtCell, if_neg (by simp [kept]), if_neg (by omega)]
  rw [← cell] at alike
  obtain ⟨next, put, here, only⟩ :=
    InsideTables.exists_putSplit valid (filled.emptyAt whole inside known) alike
  exact ⟨next, put, filled.build whole only here⟩

/-- One built cell is filled. -/
theorem buildCell_spends :
    Spends (fun spent => sweep.buildSpending column right spent label)
      (sweep.FilledTo pruned missing column (stageCounts label 0))
      (sweep.FilledTo pruned missing column (stageCounts (label + 1) 0))
      fun work => sweep.buildCell column right work label := by
  intro spent tables filled
  have valid : sweep.shape.Valid label column right := ⟨known, whole ▸ inside⟩
  unfold buildSpending buildCell
  dsimp only
  by_cases skipped : sweep.skips .built label column right = true
  · rw [if_pos skipped, if_pos skipped]
    exact .ok ⟨rfl, filled.skip follows whole inside known skipped⟩
  have kept : pruned .built label column (sweep.words.length - right) = false :=
    (follows _ _ _ _ valid).symm.trans (Bool.not_eq_true _ ▸ skipped)
  rw [if_neg skipped, if_neg skipped]
  by_cases last : column + right = sweep.words.length - 1
  · have stop : sweep.words.length - right = column + 1 := by omega
    rw [if_pos last, if_pos last, taggingScore_eq (stop ▸ kept)]
    cases accepted : (sweep.pass pruned).taggingErrorAt? column label with
    | some error => exact .error error
    | none => exact .ok ⟨rfl, filled.putWord lowest whole inside known kept last accepted⟩
  · obtain ⟨next, put, filledNext⟩ := filled.exists_putSplit fits whole inside known kept last
    rw [if_neg last, if_neg last, bestSplit_eq]
    cases (sweep.model.grammar.byParent.rules label).foldlM
        (fun spent _ => sweep.config.charge spent (sweep.words.length - right - column - 1))
        spent with
    | error error => exact .error error
    | ok total =>
        change Agree _ _ (do
          let tables ← tables.putSplit label column right
            (tables.numberedBestSplit sweep.model.grammar label column right)
          return (total, tables))
        rw [put]
        exact .ok ⟨rfl, filledNext⟩

omit [Score.Descending σ] lowest in
/-- One closed cell is filled. -/
theorem closeCell_fills
    (filled : sweep.FilledTo pruned missing column
      (stageCounts sweep.model.grammar.labels.size label) tables) :
    sweep.FilledTo pruned missing column
      (stageCounts sweep.model.grammar.labels.size (label + 1))
      (sweep.closeCell column right tables label) := by
  have valid : sweep.shape.Valid label column right := ⟨known, whole ▸ inside⟩
  unfold closeCell
  by_cases skipped : sweep.skips .closed label column right = true
  · have ahead : ¬Reached (missing < ·) missing column
        (stageCounts sweep.model.grammar.labels.size label) .closed label column right := by
      simp [Reached, stageCounts, whole]
    rw [if_pos skipped]
    refine filled.close whole ⟨fun _ _ _ _ => rfl, fun _ _ _ => rfl⟩ ?_
    rw [closed_inside valid, Pass.closedCell,
      if_pos ((follows _ _ _ _ valid).symm.trans skipped)]
    exact filled.unclosed valid ahead
  · rw [if_neg skipped]
    refine filled.close whole (InsideTables.closesOnly_putClosing valid _)
      (InsideTables.holdsClosed_putClosing valid ?_)
    have kept : ¬pruned .closed label column (sweep.words.length - right) = true :=
      (follows _ _ _ _ valid) ▸ skipped
    rw [closed_inside valid, Pass.closedCell, if_neg kept]
    have held {other : LabelId} (known : other < sweep.model.grammar.labels.size) :
        tables.score .built other column right =
          (((sweep.pass pruned).builtCells column (sweep.words.length - right)).getD other
            Best.empty).score := by
      rw [Pass.getD_builtCells known]
      exact (filled.built ⟨known, valid.inside⟩
        (Or.inr ⟨whole, Or.inr ⟨rfl, known⟩⟩)).score
    apply InsideTables.alike_bestClosing
    · intro entry member
      have found := fits.closure.getElem?_of_mem_byParent known member
      have numbered := (List.getElem?_eq_some_iff.mp found).1
      have chains := fits.chains
      refine ⟨held (fits.closure.known entry.2 (List.mem_of_getElem? found)).2, ?_⟩
      unfold closingOf? noUnary unset
      rw [if_neg (by omega), if_neg (by omega), found]
      rfl
    · exact held known

end

/-! ## Spans and rows -/

/-- What filling a row of spans spends. -/
def rowSpending (sweep : Sweep σ) (spent missing : Nat) : Except (ParseError σ) Nat :=
  (List.range (missing + 1)).foldlM
    (fun spent start =>
      (List.range sweep.model.grammar.labels.size).foldlM
        (sweep.buildSpending start (missing - start)) spent)
    spent

/-- What filling the inside tables spends. -/
def insideSpending (sweep : Sweep σ) (spent : Nat) : Except (ParseError σ) Nat :=
  (List.range sweep.words.length).reverse.foldlM sweep.rowSpending spent

/-- The tables hold the chart of a pass. -/
structure Holds (sweep : Sweep σ) (pruned : Pruned) (tables : InsideTables sweep.shape σ) :
    Prop where
  built : ∀ {label start right}, sweep.shape.Valid label start right →
    tables.HoldsBuilt sweep.model.grammar label start right
      ((sweep.pass pruned).inside.built label start (sweep.words.length - right))
  closed : ∀ {label start right}, sweep.shape.Valid label start right →
    tables.HoldsClosed sweep.model.closure label start right
      ((sweep.pass pruned).inside.closed label start (sweep.words.length - right))
  kept : tables.backpointers?.isSome = sweep.keepsChoices

section

variable [Score.Descending σ] (fits : sweep.Fits) (follows : sweep.Follows pruned)
  (lowest : ∀ score : σ, score ≤ impossible → score = impossible)

include fits follows lowest

/-- One span is filled. -/
theorem fillSpan_spends {right : Nat} (whole : column + right = missing)
    (inside : missing < sweep.words.length) :
    Spends
      (fun spent => (List.range sweep.model.grammar.labels.size).foldlM
        (sweep.buildSpending column right) spent)
      (sweep.FilledTo pruned missing column (stageCounts 0 0))
      (sweep.FilledTo pruned missing (column + 1) (stageCounts 0 0))
      fun work => sweep.fillSpan work (column, right) := by
  have built := Spends.foldlM_range
    (fun label => sweep.FilledTo pruned missing column (stageCounts label 0))
    fun label known => buildCell_spends fits follows lowest whole inside known
  refine built.andThen
    ((List.range sweep.model.grammar.labels.size).foldl (sweep.closeCell column right))
    fun tables filled => ?_
  have closed := foldl_range_holds
    (fun label => sweep.FilledTo pruned missing column
      (stageCounts sweep.model.grammar.labels.size label))
    filled fun label known tables filled =>
      closeCell_fills fits follows whole inside known filled
  exact closed.congr fun stage label start right valid => reached_next_column valid.known

/-- One row is filled. -/
theorem fillRow_spends (inside : missing < sweep.words.length) :
    Spends (fun spent => sweep.rowSpending spent missing)
      (sweep.FilledTo pruned missing 0 (stageCounts 0 0))
      (sweep.FilledTo pruned missing (missing + 1) (stageCounts 0 0))
      fun work => (spansLeavingOut missing).foldlM sweep.fillSpan work := by
  unfold spansLeavingOut
  simp only [List.foldlM_map]
  exact Spends.foldlM_range
    (fun column => sweep.FilledTo pruned missing column (stageCounts 0 0))
    fun column before =>
      fillSpan_spends fits follows lowest (Nat.add_sub_of_le (Nat.le_of_lt_succ before)) inside

/-- A sweep spends what it spends whatever the tables hold, and leaves tables that hold the
chart. -/
theorem inside_spends (spent : Nat) :
    Agree (fun total work => work.1 = total ∧ sweep.Holds pruned work.2)
      (sweep.insideSpending spent) (sweep.inside spent) := by
  -- Row after row, the row above has been filled when a row is begun.
  have rows := Spends.foldlM_range_reverse
    (fun missing => sweep.FilledTo pruned missing (missing + 1) (stageCounts 0 0))
    fun missing inside => (fillRow_spends fits follows lowest inside).weaken
      (fun tables filled => filled.congr fun _ _ _ _ _ => reached_row_above)
      fun tables filled => filled
  have initial : sweep.FilledTo pruned sweep.words.length (sweep.words.length + 1)
      (stageCounts 0 0) (.empty sweep.shape sweep.keepsChoices) := by
    constructor
    case built => exact fun valid reached => absurd reached (not_reached_above valid)
    case unbuilt => exact fun _ _ => InsideTables.holdsBuilt_empty _
    case closed => exact fun valid reached => absurd reached (not_reached_above valid)
    case unclosed => exact fun _ _ => InsideTables.holdsClosed_empty _
    case kept => cases sweep.keepsChoices <;> rfl
  refine (rows spent _ initial).imp ?_
  rintro _ ⟨total, tables⟩ ⟨rfl, filled⟩
  exact ⟨rfl, ⟨fun valid => filled.built valid reached_first_row,
    fun valid => filled.closed valid reached_first_row, filled.kept⟩⟩

end

end Sweep

end ChartParsing
