import ChartParsing.Chart.OutsideSweep
import ChartParsing.Proofs.Chart.SweepCost

/-!
# Outside tables filled in place hold the chart

The outside tables are filled as the inside tables are, the widest spans first and the closed
constituents of a span before the built ones (`Sweep.SurroundedTo`).  They end up with the
scores of the outside chart around the inside chart that the inside tables hold, and charge
what this chart costs (`Sweep.outside_spends`).
-/

namespace ChartParsing

variable {σ : Type} [Score σ]

namespace Sweep

/-- The outside chart of the pass that a sweep belongs to. -/
abbrev around (sweep : Sweep σ) (pruned : Pruned) : OutsideChart σ :=
  sweep.model.outside sweep.words.length (sweep.pass pruned).inside

/-- The cells before a place hold those of the finished chart. -/
def SurroundedTo (sweep : Sweep σ) (pruned : Pruned) (missing column : Nat)
    (counts : Stage → Nat) (tables : OutsideTables sweep.shape σ) : Prop :=
  ∀ stage {label start right}, sweep.shape.Valid label start right →
    Reached (· < missing) missing column counts stage label start right →
      tables.score stage label start right =
        (sweep.around pruned).score stage label start (sweep.words.length - right)

variable {sweep : Sweep σ} {pruned : Pruned} {missing column label right : Nat}
  {tables next : OutsideTables sweep.shape σ} {inside : InsideTables sweep.shape σ}

namespace SurroundedTo

/-- What matters is which cells have been reached. -/
theorem congr {otherMissing otherColumn : Nat} {counts otherCounts : Stage → Nat}
    (surrounded : sweep.SurroundedTo pruned missing column counts tables)
    (same : ∀ stage label start right, sweep.shape.Valid label start right →
      Reached (· < otherMissing) otherMissing otherColumn otherCounts stage label start right →
        Reached (· < missing) missing column counts stage label start right) :
    sweep.SurroundedTo pruned otherMissing otherColumn otherCounts tables :=
  fun stage _ _ _ valid reached => surrounded stage valid (same _ _ _ _ valid reached)

/-- One more closed constituent is surrounded. -/
theorem close (surrounded : sweep.SurroundedTo pruned missing column (stageCounts 0 label) tables)
    (whole : column + right = missing) (valid : sweep.shape.Valid label column right) {score : σ}
    (here : score = (sweep.around pruned).score .closed label column
      (sweep.words.length - right)) :
    sweep.SurroundedTo pruned missing column (stageCounts 0 (label + 1))
      { tables with closed := tables.closed.set label column right score } := by
  intro stage other otherStart otherRight otherValid reached
  cases stage with
  | built => exact surrounded .built otherValid reached
  | closed =>
      rw [OutsideTables.score, Table.getD_set valid otherValid]
      split
      · rename_i same
        rcases same with ⟨rfl, rfl, rfl⟩
        exact here
      · rename_i different
        refine surrounded .closed otherValid ?_
        rcases reached_closed_succ.mp reached with before | ⟨sum, rfl, rfl⟩
        · exact before
        · exact absurd ⟨rfl, rfl, by omega⟩ different

/-- One more built constituent is surrounded. -/
theorem build {count : Nat}
    (surrounded : sweep.SurroundedTo pruned missing column (stageCounts label count) tables)
    (whole : column + right = missing) (valid : sweep.shape.Valid label column right) {score : σ}
    (here : score = (sweep.around pruned).score .built label column
      (sweep.words.length - right)) :
    sweep.SurroundedTo pruned missing column (stageCounts (label + 1) count)
      { tables with built := tables.built.set label column right score } := by
  intro stage other otherStart otherRight otherValid reached
  cases stage with
  | closed => exact surrounded .closed otherValid reached
  | built =>
      rw [OutsideTables.score, Table.getD_set valid otherValid]
      split
      · rename_i same
        rcases same with ⟨rfl, rfl, rfl⟩
        exact here
      · rename_i different
        refine surrounded .built otherValid ?_
        rcases reached_built_succ.mp reached with before | ⟨sum, rfl, rfl⟩
        · exact before
        · exact absurd ⟨rfl, rfl, by omega⟩ different

/-- Nothing surrounds the root over the whole sentence, and nothing else is possible there. -/
theorem start (nonempty : 0 < sweep.words.length)
    (rooted : sweep.model.grammar.root < sweep.model.grammar.labels.size) :
    sweep.SurroundedTo pruned 0 0 (stageCounts 0 sweep.model.grammar.labels.size)
      (.start sweep.shape sweep.model.grammar.root) := by
  intro stage label start right valid reached
  have rootValid : sweep.shape.Valid sweep.model.grammar.root 0 0 := ⟨rooted, nonempty⟩
  cases stage with
  | built => simp [Reached, stageCounts] at reached
  | closed =>
      obtain ⟨rfl, rfl⟩ : start = 0 ∧ right = 0 := by
        unfold Reached at reached
        omega
      change (Table.set _ _ 0 0 0).getD label 0 0 impossible = _
      rw [Table.getD_set rootValid valid, Table.getD_filled]
      refine Eq.trans ?_ (sweep.model.closed_outside _ _ (by simpa using nonempty) (Nat.le_refl _)
        valid.known).symm
      by_cases isRoot : label = sweep.model.grammar.root
      · simp [isRoot]
      · simp [isRoot, Ne.symm isRoot]

end SurroundedTo

/-! ## Closed constituents -/

/-- What filling the cell of a closed constituent spends. -/
def contextSpending (sweep : Sweep σ) (start right spent : Nat) (label : LabelId) :
    Except (ParseError σ) Nat := do
  let spent ← (sweep.model.grammar.byRight.rules label).foldlM
    (fun spent _ => sweep.config.charge spent start) spent
  (sweep.model.grammar.byLeft.rules label).foldlM
    (fun spent _ => sweep.config.charge spent right) spent

/-- The best context of a closed constituent by the tables. -/
def tableContext (tables : OutsideTables sweep.shape σ) (inside : InsideTables sweep.shape σ)
    (label : LabelId) (start right : Nat) : σ :=
  (sweep.model.grammar.byLeft.rules label).foldl (tables.betterAsLeft inside start right)
    ((sweep.model.grammar.byRight.rules label).foldl (tables.betterAsRight inside start right)
      impossible)

/-- The rules are charged while the best context is sought. -/
theorem bestContext_eq (tables : OutsideTables sweep.shape σ) (label : LabelId)
    (start right spent : Nat) :
    sweep.bestContext inside tables label start right spent = (do
      let total ← sweep.contextSpending start right spent label
      return (total, tableContext tables inside label start right)) := by
  have asRight := sweep.config.foldlM_charge_search
    (sweep.model.grammar.byRight.rules label) (fun _ => start)
    (tables.betterAsRight inside start right) spent impossible
  have asLeft (spent : Nat) (best : σ) := sweep.config.foldlM_charge_search
    (sweep.model.grammar.byLeft.rules label) (fun _ => right)
    (tables.betterAsLeft inside start right) spent best
  refine (congrArg (· >>= _) asRight).trans ?_
  unfold contextSpending
  cases (sweep.model.grammar.byRight.rules label).foldlM
      (fun spent _ => sweep.config.charge spent start) spent with
  | error error => rfl
  | ok total => exact asLeft total _

section

variable (fits : sweep.Fits) (holds : sweep.Holds pruned inside)

include fits holds

/-- The contexts of wider spans have been reached. -/
theorem tableContext_eq {counts : Stage → Nat}
    (surrounded : sweep.SurroundedTo pruned missing column counts tables)
    (valid : sweep.shape.Valid label column right) (whole : column + right = missing) :
    tableContext tables inside label column right =
      (sweep.around pruned).bestContext sweep.model.grammar (sweep.pass pruned).inside label
        column (sweep.words.length - right) := by
  rcases valid with ⟨known, bounded⟩
  change column + right < sweep.words.length at bounded
  have beyond : sweep.words.length - (sweep.words.length - right) = right := by omega
  unfold tableContext OutsideChart.bestContext
  refine List.foldl_rel (List.foldl_rel rfl ?_) ?_
  · rintro rule listed best _ rfl
    rcases (fits.grammar.mem_byRight known).mp listed with ⟨member, -⟩
    rcases fits.grammar.binaryKnown rule member with ⟨parentKnown, leftKnown, -⟩
    refine List.foldl_rel rfl ?_
    rintro left before best _ rfl
    rw [List.mem_range] at before
    have parentValid : sweep.shape.Valid rule.parent left right :=
      ⟨parentKnown, by change _ < sweep.words.length; omega⟩
    have leftValid : sweep.shape.Valid rule.left left (sweep.words.length - column) :=
      ⟨leftKnown, by change _ < sweep.words.length; omega⟩
    have sibling := (holds.closed leftValid).score
    rw [Nat.sub_sub_self (by omega)] at sibling
    rw [surrounded .built parentValid (Or.inl (by omega))]
    exact congrArg (Score.better best) (congrArg (_ + ·) sibling)
  · rintro rule listed best _ rfl
    rcases (fits.grammar.mem_byLeft known).mp listed with ⟨member, -⟩
    rcases fits.grammar.binaryKnown rule member with ⟨parentKnown, -, rightKnown⟩
    rw [widerStops, List.foldl_map]
    change _ = (List.range (sweep.words.length - (sweep.words.length - right))).foldl _ best
    rw [beyond]
    refine List.foldl_rel rfl ?_
    rintro rest before best _ rfl
    rw [List.mem_range] at before
    have parentValid : sweep.shape.Valid rule.parent column rest :=
      ⟨parentKnown, by change _ < sweep.words.length; omega⟩
    have rightValid : sweep.shape.Valid rule.right (sweep.words.length - right) rest :=
      ⟨rightKnown, by change _ < sweep.words.length; omega⟩
    rw [surrounded .built parentValid (Or.inl (by omega))]
    exact congrArg (Score.better best) (congrArg (_ + ·) (holds.closed rightValid).score)

/-- The cell of one closed constituent is filled. -/
theorem surroundClosed_spends (whole : column + right = missing)
    (bounded : missing < sweep.words.length) (proper : 0 < missing)
    (known : label < sweep.model.grammar.labels.size) :
    Spends (fun spent => sweep.contextSpending column right spent label)
      (sweep.SurroundedTo pruned missing column (stageCounts 0 label))
      (sweep.SurroundedTo pruned missing column (stageCounts 0 (label + 1)))
      fun work => sweep.surroundClosed inside column right work label := by
  intro spent tables surrounded
  have valid : sweep.shape.Valid label column right := ⟨known, whole ▸ bounded⟩
  unfold surroundClosed
  dsimp only
  rw [bestContext_eq]
  cases sweep.contextSpending column right spent label with
  | error error => exact .error error
  | ok total =>
      refine .ok ⟨rfl, surrounded.close whole valid ?_⟩
      rw [tableContext_eq fits holds surrounded valid whole, around,
        sweep.model.closed_outside _ _ (by omega) (Nat.sub_le _ _) known, if_neg (by omega)]

omit holds in
/-- The cell of one built constituent is filled. -/
theorem surroundBuilt_fills (whole : column + right = missing)
    (bounded : missing < sweep.words.length)
    (known : label < sweep.model.grammar.labels.size)
    (surrounded : sweep.SurroundedTo pruned missing column
      (stageCounts label sweep.model.grammar.labels.size) tables) :
    sweep.SurroundedTo pruned missing column
      (stageCounts (label + 1) sweep.model.grammar.labels.size)
      (sweep.surroundBuilt column right tables label) := by
  have valid : sweep.shape.Valid label column right := ⟨known, whole ▸ bounded⟩
  refine surrounded.build whole valid ?_
  have held {other : LabelId} (known : other < sweep.model.grammar.labels.size) :
      tables.score .closed other column right =
        ((sweep.around pruned).span column (sweep.words.length - right)).closed.getD other
          impossible :=
    surrounded .closed ⟨known, valid.inside⟩ (Or.inr ⟨whole, Or.inr ⟨rfl, known⟩⟩)
  rw [around, sweep.model.built_outside _ _ (by omega) (Nat.sub_le _ _) known]
  unfold OutsideTables.bestOpening OutsideChart.bestOpening
  have offered : (sweep.model.closure.byChild.chains label).foldl
      (fun best entry => Score.better best
        (entry.2.score + tables.score .closed entry.2.parent column right)) impossible =
      (sweep.model.closure.byChild.chains label).foldl
        (fun best entry => Score.better best
          (entry.2.score +
            ((sweep.around pruned).span column (sweep.words.length - right)).closed.getD
              entry.2.parent impossible)) impossible := by
    apply List.foldl_ext
    intro best entry member
    have listed := fits.closure.mem_byChild known member
    rw [held (fits.closure.known entry.2 listed).1]
  dsimp only
  rw [offered, held known]

end

/-! ## Spans and rows -/

omit [Score σ] in
/-- The cells of a span that are filled when the sweep comes to it: none, but for those of the
closed constituents over the whole sentence. -/
def openCounts (sweep : Sweep σ) (missing : Nat) : Stage → Nat :=
  stageCounts 0 (if missing = 0 then sweep.model.grammar.labels.size else 0)

omit [Score σ] in
/-- In the row of the whole sentence there is no further span. -/
theorem reached_of_open {stage : Stage} {start : Nat} :
    Reached (· < missing) missing (column + 1) (sweep.openCounts missing) stage label start
        right →
      Reached (· < missing) missing (column + 1) (stageCounts 0 0) stage label start right := by
  unfold Reached openCounts
  cases stage with
  | built => exact id
  | closed =>
      simp only [stageCounts]
      split <;> intro reached <;> omega

omit [Score σ] in
/-- Before a row come the rows below it. -/
theorem reached_row_below {stage : Stage} {start : Nat} :
    Reached (· < missing + 1) (missing + 1) 0 (sweep.openCounts (missing + 1)) stage label start
        right →
      Reached (· < missing) missing (missing + 1) (sweep.openCounts missing) stage label start
        right := by
  unfold Reached openCounts
  rw [if_neg (Nat.succ_ne_zero missing)]
  cases stage <;> simp only [stageCounts] <;> intro reached <;> omega

/-- What filling the cells of the closed constituents of a span spends. -/
def allClosedSpending (sweep : Sweep σ) (start right spent : Nat) :
    Except (ParseError σ) Nat :=
  if 0 < start + right then
    (List.range sweep.model.grammar.labels.size).foldlM (sweep.contextSpending start right) spent
  else .ok spent

/-- What filling a row of spans spends. -/
def surroundSpending (sweep : Sweep σ) (spent missing : Nat) : Except (ParseError σ) Nat :=
  (List.range (missing + 1)).foldlM
    (fun spent start => sweep.allClosedSpending start (missing - start) spent) spent

/-- What filling the outside tables spends. -/
def outsideSpending (sweep : Sweep σ) (spent : Nat) : Except (ParseError σ) Nat :=
  (List.range sweep.words.length).foldlM sweep.surroundSpending spent

section

variable (fits : sweep.Fits) (holds : sweep.Holds pruned inside)

include fits holds

/-- The closed constituents of a span are surrounded. -/
theorem surroundAllClosed_spends (whole : column + right = missing)
    (bounded : missing < sweep.words.length) :
    Spends (sweep.allClosedSpending column right)
      (sweep.SurroundedTo pruned missing column (sweep.openCounts missing))
      (sweep.SurroundedTo pruned missing column
        (stageCounts 0 sweep.model.grammar.labels.size))
      (sweep.surroundAllClosed inside column right) := by
  unfold openCounts allClosedSpending surroundAllClosed
  rw [whole]
  rcases Nat.eq_zero_or_pos missing with none | proper
  · simp only [if_pos none, if_neg (Nat.not_lt_of_le (Nat.le_of_eq none))]
    exact fun spent tables surrounded => .ok ⟨rfl, surrounded⟩
  · simp only [if_pos proper, if_neg (Nat.ne_of_gt proper)]
    exact Spends.foldlM_range
      (fun label => sweep.SurroundedTo pruned missing column (stageCounts 0 label))
      fun label known => surroundClosed_spends fits holds whole bounded proper known

/-- One span is surrounded. -/
theorem surroundSpan_spends (whole : column + right = missing)
    (bounded : missing < sweep.words.length) :
    Spends (sweep.allClosedSpending column right)
      (sweep.SurroundedTo pruned missing column (sweep.openCounts missing))
      (sweep.SurroundedTo pruned missing (column + 1) (stageCounts 0 0))
      fun work => sweep.surroundSpan inside work (column, right) := by
  refine (surroundAllClosed_spends fits holds whole bounded).andThen
    ((List.range sweep.model.grammar.labels.size).foldl (sweep.surroundBuilt column right))
    fun tables surrounded => ?_
  have built := foldl_range_holds
    (fun label => sweep.SurroundedTo pruned missing column
      (stageCounts label sweep.model.grammar.labels.size))
    surrounded fun label known tables surrounded =>
      surroundBuilt_fills fits whole bounded known surrounded
  exact built.congr fun stage label start right valid => (reached_next_column valid.known).mp

/-- One row is surrounded. -/
theorem surroundRow_spends (bounded : missing < sweep.words.length) :
    Spends (fun spent => sweep.surroundSpending spent missing)
      (sweep.SurroundedTo pruned missing 0 (sweep.openCounts missing))
      (sweep.SurroundedTo pruned (missing + 1) 0 (sweep.openCounts (missing + 1)))
      fun work => (spansLeavingOut missing).foldlM (sweep.surroundSpan inside) work := by
  unfold spansLeavingOut
  simp only [List.foldlM_map]
  have row := Spends.foldlM_range
    (fun column => sweep.SurroundedTo pruned missing column (sweep.openCounts missing))
    fun column before =>
      (surroundSpan_spends fits holds (Nat.add_sub_of_le (Nat.le_of_lt_succ before))
        bounded).weaken (fun _ surrounded => surrounded) fun _ surrounded =>
          surrounded.congr fun stage label start right _ => reached_of_open
  exact row.weaken (fun _ surrounded => surrounded) fun _ surrounded =>
    surrounded.congr fun stage label start right _ => reached_row_below

/-- A sweep charges what it charges whatever the tables hold, and leaves tables that hold the
outside chart. -/
theorem outside_spends (spent : Nat) (nonempty : 0 < sweep.words.length) :
    Agree
      (fun total work => work.1 = total ∧
        ∀ stage {label start right}, sweep.shape.Valid label start right →
          work.2.score stage label start right =
            (sweep.around pruned).score stage label start (sweep.words.length - right))
      (sweep.outsideSpending spent) (sweep.outside inside spent) := by
  have rows := Spends.foldlM_range
    (fun missing => sweep.SurroundedTo pruned missing 0 (sweep.openCounts missing))
    fun missing bounded => surroundRow_spends fits holds bounded
  refine (rows spent _ (.start nonempty fits.grammar.rooted)).imp ?_
  rintro _ ⟨total, tables⟩ ⟨rfl, surrounded⟩
  exact ⟨rfl, fun stage _ _ _ valid => surrounded stage valid (Or.inl valid.inside)⟩

end

/-! ## The cost -/

section

variable {start spent : Nat}

omit [Score σ] in
/-- Around a constituent each rule is charged for each sibling. -/
theorem contextSpending_charge (inside : start + right < sweep.words.length)
    (within : sweep.config.Within spent) :
    sweep.contextSpending start right spent label =
      sweep.config.charge spent
        (sweep.model.grammar.contextCost sweep.words.length label start
          (sweep.words.length - right)) := by
  have beyond : sweep.words.length - (sweep.words.length - right) = right := by omega
  unfold contextSpending Grammar.contextCost
  rw [beyond, ← Config.charge_charge, Config.foldlM_charge (fun _ _ _ _ => rfl) within,
    sumOver_const]
  cases charged : sweep.config.charge spent
      ((sweep.model.grammar.byRight.rules label).length * start) with
  | error error => rfl
  | ok total =>
      exact (Config.foldlM_charge (fun _ _ _ _ => rfl)
        (Config.within_of_charge charged)).trans
          (congrArg (sweep.config.charge total) (sumOver_const _ _))

omit [Score σ] in
theorem allClosedSpending_charge (inside : start + right < sweep.words.length)
    (within : sweep.config.Within spent) :
    sweep.allClosedSpending start right spent =
      sweep.config.charge spent
        (sumOver (List.range sweep.model.grammar.labels.size) fun label =>
          sweep.model.grammar.contextCost sweep.words.length label start
            (sweep.words.length - right)) := by
  unfold allClosedSpending
  split
  · apply Config.foldlM_charge _ within
    intro label _ spent within
    exact contextSpending_charge inside within
  · rename_i whole
    obtain ⟨rfl, rfl⟩ : start = 0 ∧ right = 0 := by omega
    have free : (sumOver (List.range sweep.model.grammar.labels.size) fun label =>
        sweep.model.grammar.contextCost sweep.words.length label 0
          (sweep.words.length - 0)) = 0 := by
      simp [Grammar.contextCost, sumOver_const]
    rw [free]
    exact within.symm

omit [Score σ] in
/-- A sweep from the whole sentence down charges the cost of the outside chart. -/
theorem outsideSpending_eq (within : sweep.config.Within spent) :
    sweep.outsideSpending spent =
      sweep.config.charge spent (sweep.model.grammar.outsideCost sweep.words.length) := by
  have cost : sweep.model.grammar.outsideCost sweep.words.length =
      sumOver (List.range sweep.words.length) fun missing =>
        sumOver (rowSpans sweep.words.length missing) fun span =>
          sumOver (List.range sweep.model.grammar.labels.size) fun label =>
            sweep.model.grammar.contextCost sweep.words.length label span.1 span.2 :=
    sumOver_spans_rows _ _
  rw [cost]
  apply Config.foldlM_charge _ within
  intro missing bounded spent within
  rw [rowSpans, sumOver_map]
  apply Config.foldlM_charge _ within
  intro start before spent within
  rw [List.mem_range] at bounded before
  exact allClosedSpending_charge (by omega) within

end

end Sweep

end ChartParsing
