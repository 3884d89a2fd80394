import ChartParsing.Chart.Sweep
import ChartParsing.Proofs.Chart.Table
import ChartParsing.Proofs.Score.Congruence

/-!
# Cells of tables and cells of charts

A cell of an inside chart holds a rule, a split or a chain, where the tables that are filled
in place keep numbers.  `InsideTables.HoldsBuilt` and `InsideTables.HoldsClosed` say that
tables tell of a cell what the chart holds there.  A search over numbered candidates ends
with the number of what the search over the candidates themselves ends with
(`InsideTables.alike_numberedBestSplit`, `InsideTables.alike_bestClosing`), and putting this
number in a cell makes the tables hold it there and changes no other cell
(`InsideTables.exists_putSplit`, `InsideTables.holdsClosed_putClosing`).
-/

namespace ChartParsing

variable {σ : Type} [Score σ]

namespace InsideTables

variable {shape : ChartShape}

/-- What the tables say of a built cell: its score, and its choice if choices are kept. -/
def builtAt (tables : InsideTables shape σ) (grammar : Grammar σ) (label : LabelId)
    (start right : Nat) : σ × Option (Option (Construction σ)) :=
  (tables.score .built label start right,
    tables.backpointers?.map fun numbers => numbers.construction? grammar label start right)

/-- What the tables say of a closed cell. -/
def closedAt (tables : InsideTables shape σ) (closure : UnaryClosure σ) (label : LabelId)
    (start right : Nat) : σ × Option (Option (Closing σ)) :=
  (tables.score .closed label start right,
    tables.backpointers?.map fun numbers => numbers.closing? closure label start right)

/-- What the tables say of a built cell is so in a chart.  The choice matters over several
words. -/
structure HoldsBuilt (tables : InsideTables shape σ) (grammar : Grammar σ) (label : LabelId)
    (start right : Nat) (cell : Best σ (Construction σ)) : Prop where
  score : (tables.builtAt grammar label start right).1 = cell.score
  choice : start + right ≠ shape.length - 1 →
    ∀ choice ∈ (tables.builtAt grammar label start right).2, choice = cell.choice

/-- What the tables say of a closed cell is so in a chart. -/
structure HoldsClosed (tables : InsideTables shape σ) (closure : UnaryClosure σ)
    (label : LabelId) (start right : Nat) (cell : Best σ (Closing σ)) : Prop where
  score : (tables.closedAt closure label start right).1 = cell.score
  choice : ∀ choice ∈ (tables.closedAt closure label start right).2, choice = cell.choice

variable {tables : InsideTables shape σ} {label other start right otherStart otherRight : Nat}
  {grammar : Grammar σ} {closure : UnaryClosure σ}

theorem holdsBuilt_empty (keepsChoices : Bool) :
    (empty shape keepsChoices : InsideTables shape σ).HoldsBuilt grammar label start right
      Best.empty := by
  constructor
  case score => exact Table.getD_filled impossible label start right
  case choice =>
    intro _ choice member
    cases keepsChoices with
    | false => cases member
    | true =>
        obtain rfl := Option.some.inj member
        simp [Backpointers.construction?, Backpointers.empty, constructionOf?, Best.empty]

theorem holdsClosed_empty (keepsChoices : Bool) :
    (empty shape keepsChoices : InsideTables shape σ).HoldsClosed closure label start right
      Best.empty := by
  constructor
  case score => exact Table.getD_filled impossible label start right
  case choice =>
    intro choice member
    cases keepsChoices with
    | false => cases member
    | true =>
        obtain rfl := Option.some.inj member
        simp [Backpointers.closing?, Backpointers.empty, closingOf?, Best.empty, unset, noUnary]

/-- Nothing has been changed but a built cell. -/
structure BuildsOnly (tables next : InsideTables shape σ) (label start right : Nat) : Prop where
  built : ∀ {other otherStart otherRight}, shape.Valid other otherStart otherRight →
    ¬(label = other ∧ start = otherStart ∧ right = otherRight) → ∀ grammar,
      next.builtAt grammar other otherStart otherRight =
        tables.builtAt grammar other otherStart otherRight
  closed : ∀ closure other otherStart otherRight,
    next.closedAt closure other otherStart otherRight =
      tables.closedAt closure other otherStart otherRight

/-- Nothing has been changed but a closed cell. -/
structure ClosesOnly (tables next : InsideTables shape σ) (label start right : Nat) : Prop where
  built : ∀ grammar other otherStart otherRight,
    next.builtAt grammar other otherStart otherRight =
      tables.builtAt grammar other otherStart otherRight
  closed : ∀ {other otherStart otherRight}, shape.Valid other otherStart otherRight →
    ¬(label = other ∧ start = otherStart ∧ right = otherRight) → ∀ closure,
      next.closedAt closure other otherStart otherRight =
        tables.closedAt closure other otherStart otherRight

theorem BuildsOnly.isSome_backpointers? {next : InsideTables shape σ}
    (only : tables.BuildsOnly next label start right) (closure : UnaryClosure σ) :
    next.backpointers?.isSome = tables.backpointers?.isSome := by
  simpa [closedAt] using congrArg (·.2.isSome) (only.closed closure label start right)

theorem ClosesOnly.isSome_backpointers? {next : InsideTables shape σ}
    (only : tables.ClosesOnly next label start right) (grammar : Grammar σ) :
    next.backpointers?.isSome = tables.backpointers?.isSome := by
  simpa [builtAt] using congrArg (·.2.isSome) (only.built grammar label start right)

theorem HoldsBuilt.of_builtAt_eq {next : InsideTables shape σ}
    {cell : Best σ (Construction σ)} (holds : tables.HoldsBuilt grammar label start right cell)
    (same : next.builtAt grammar label start right = tables.builtAt grammar label start right) :
    next.HoldsBuilt grammar label start right cell where
  score := same ▸ holds.score
  choice := same ▸ holds.choice

theorem HoldsClosed.of_closedAt_eq {next : InsideTables shape σ} {cell : Best σ (Closing σ)}
    (holds : tables.HoldsClosed closure label start right cell)
    (same : next.closedAt closure label start right =
      tables.closedAt closure label start right) :
    next.HoldsClosed closure label start right cell where
  score := same ▸ holds.score
  choice := same ▸ holds.choice

theorem buildsOnly_putWord (valid : shape.Valid label start right) (score : σ) :
    tables.BuildsOnly (tables.putWord label start right score) label start right where
  built := by
    intro other otherStart otherRight otherValid different grammar
    simp [builtAt, putWord, InsideTables.score, Table.getD_set valid otherValid, different]
  closed _ _ _ _ := rfl

theorem holdsBuilt_putWord (valid : shape.Valid label start right) (score : σ)
    (whole : start + right = shape.length - 1) {cell : Best σ (Construction σ)}
    (same : score = cell.score) :
    (tables.putWord label start right score).HoldsBuilt grammar label start right cell where
  score := by simp [builtAt, putWord, InsideTables.score, Table.getD_set valid valid, same]
  choice several := absurd whole several

/-- What a position and a place of a split stand for, where both fit. -/
def Stands (grammar : Grammar σ) (label : LabelId) (number : Nat × Nat)
    (construction : Construction σ) : Prop :=
  constructionOf? grammar label number.1 number.2 = some construction ∧
    number.1 < ruleLimit ∧ number.2 < ruleLimit

/-- Putting the best split in an empty cell succeeds if its numbers fit. -/
theorem exists_putSplit (valid : shape.Valid label start right)
    (before : tables.HoldsBuilt grammar label start right Best.empty)
    {best : Best σ (Nat × Nat)} {cell : Best σ (Construction σ)}
    (alike : Best.Alike Eq (Stands grammar label) best cell) :
    ∃ next, tables.putSplit label start right best = .ok next ∧
      next.HoldsBuilt grammar label start right cell ∧
      tables.BuildsOnly next label start right := by
  rcases tables with ⟨built, closed, backpointers?⟩
  rcases best with ⟨score, choice⟩
  rcases cell with ⟨cellScore, cellChoice⟩
  rcases alike with ⟨rfl, choices⟩
  cases choices with
  | none =>
      refine ⟨⟨built.set label start right score, closed, backpointers?⟩, ?_, ?_, ?_⟩
      · cases backpointers? <;> rfl
      · constructor
        case score => simp [builtAt, InsideTables.score, Table.getD_set valid valid]
        case choice => exact before.choice
      · constructor
        case built =>
          intro other otherStart otherRight otherValid different grammar
          simp [builtAt, InsideTables.score, Table.getD_set valid otherValid, different]
        case closed => exact fun _ _ _ _ => rfl
  | @some number construction stands =>
      rcases number with ⟨ordinal, middle⟩
      rcases stands with ⟨decoded, ordinalFits, middleFits⟩
      refine ⟨⟨built.set label start right score, closed,
        backpointers?.map (·.putSplit label start right ordinal middle)⟩, ?_, ?_, ?_⟩
      · cases backpointers? with
        | none => rfl
        | some numbers =>
            simp only [putSplit, backpointer, if_pos ordinalFits, if_pos middleFits]
            rfl
      · constructor
        case score => simp [builtAt, InsideTables.score, Table.getD_set valid valid]
        case choice =>
          intro _ choice member
          simp only [builtAt, Option.map_map, Option.mem_map] at member
          rcases member with ⟨numbers, -, rfl⟩
          simp [Backpointers.construction?, Backpointers.putSplit, Table.getD_set valid valid,
            decoded]
      · constructor
        case built =>
          intro other otherStart otherRight otherValid different grammar
          simp [builtAt, InsideTables.score, Table.getD_set valid otherValid, different,
            Backpointers.construction?, Backpointers.putSplit, Function.comp_def]
        case closed =>
          intro closure other otherStart otherRight
          simp [closedAt, InsideTables.score, Backpointers.closing?, Backpointers.putSplit,
            Function.comp_def]

theorem closesOnly_putClosing (valid : shape.Valid label start right) (best : Best σ Nat) :
    tables.ClosesOnly (tables.putClosing label start right best) label start right where
  built := by
    intro grammar other otherStart otherRight
    simp [builtAt, putClosing, InsideTables.score, Backpointers.construction?,
      Backpointers.putChain, Function.comp_def]
  closed := by
    intro other otherStart otherRight otherValid different closure
    simp [closedAt, putClosing, InsideTables.score, Table.getD_set valid otherValid, different,
      Backpointers.closing?, Backpointers.putChain, Function.comp_def]

theorem holdsClosed_putClosing (valid : shape.Valid label start right) {best : Best σ Nat}
    {cell : Best σ (Closing σ)}
    (alike : Best.Alike Eq (fun number closing => closingOf? closure number = some closing)
      best cell) :
    (tables.putClosing label start right best).HoldsClosed closure label start right cell := by
  rcases best with ⟨score, number?⟩
  rcases cell with ⟨cellScore, closing?⟩
  rcases alike with ⟨rfl, choices⟩
  constructor
  case score =>
    simp [closedAt, putClosing, InsideTables.score, Table.getD_set valid valid]
  case choice =>
    intro choice member
    simp only [closedAt, putClosing, Option.map_map, Option.mem_map] at member
    rcases member with ⟨numbers, -, rfl⟩
    simp only [Function.comp_apply, Backpointers.closing?, Backpointers.putChain,
      Table.getD_set valid valid, and_self, if_true]
    cases choices with
    | none => rfl
    | some stands => exact stands

/-! ### Searching among the same candidates -/

section

variable {chart : InsideChart σ}

/-- A rule offers the same splits from tables that hold the parts. -/
theorem alike_offerSplits {rule : BinaryRule σ} {ordinal : Nat}
    (parts : ∀ middle ∈ middles start (shape.length - right),
      tables.score .closed rule.left start (shape.length - middle) =
          (chart.closed rule.left start middle).score ∧
        tables.score .closed rule.right middle right =
          (chart.closed rule.right middle (shape.length - right)).score ∧
        Stands grammar label (ordinal, middle) (.split rule middle))
    {best : Best σ (Nat × Nat)} {cell : Best σ (Construction σ)}
    (soFar : Best.Alike Eq (Stands grammar label) best cell) :
    Best.Alike Eq (Stands grammar label) (tables.offerSplits start right best rule ordinal)
      (chart.offerSplits start (shape.length - right) cell rule) := by
  unfold offerSplits InsideChart.offerSplits
  apply List.foldl_rel soFar
  intro middle member best cell soFar
  rcases parts middle member with ⟨left, right, stands⟩
  dsimp only
  rw [left, right, soFar.score]
  split
  · exact soFar
  · exact soFar.offer_eq _ stands

/-- The best of the splits that the rules of a label offer, numbered by their positions. -/
def numberedBestSplit (tables : InsideTables shape σ) (grammar : Grammar σ) (label : LabelId)
    (start right : Nat) : Best σ (Nat × Nat) :=
  (grammar.byParent.rules label).zipIdx.foldl
    (fun best numbered => tables.offerSplits start right best numbered.1 numbered.2) Best.empty

theorem alike_numberedBestSplit
    (parts : ∀ rule ordinal, (grammar.byParent.rules label)[ordinal]? = some rule →
      ∀ middle ∈ middles start (shape.length - right),
        tables.score .closed rule.left start (shape.length - middle) =
            (chart.closed rule.left start middle).score ∧
          tables.score .closed rule.right middle right =
            (chart.closed rule.right middle (shape.length - right)).score ∧
          Stands grammar label (ordinal, middle) (.split rule middle)) :
    Best.Alike Eq (Stands grammar label) (tables.numberedBestSplit grammar label start right)
      (chart.bestSplit grammar label start (shape.length - right)) := by
  unfold numberedBestSplit InsideChart.bestSplit
  conv_rhs => rw [← List.zipIdx_map_fst 0 (grammar.byParent.rules label), List.foldl_map]
  apply List.foldl_rel ⟨rfl, .none⟩
  rintro ⟨rule, ordinal⟩ member best cell soFar
  exact alike_offerSplits (parts rule ordinal (List.mk_mem_zipIdx_iff_getElem?.mp member)) soFar

/-- The chains are offered by their numbers. -/
theorem alike_bestClosing {built : Array (Best σ (Construction σ))}
    (chains : ∀ entry ∈ closure.byParent.chains label,
      tables.score .built entry.2.child start right =
          (built.getD entry.2.child Best.empty).score ∧
        closingOf? closure entry.1 = some (.byChain entry.2))
    (own : tables.score .built label start right = (built.getD label Best.empty).score) :
    Best.Alike Eq (fun number closing => closingOf? closure number = some closing)
      (tables.bestClosing closure label start right)
      (InsideChart.bestClosing closure built label) := by
  have offered : Best.Alike Eq (fun number closing => closingOf? closure number = some closing)
      ((closure.byParent.chains label).foldl (fun best entry =>
        best.offer (entry.2.score + tables.score .built entry.2.child start right) entry.1)
        Best.empty)
      ((closure.byParent.chains label).foldl (fun best entry =>
        best.offer (entry.2.score + (built.getD entry.2.child Best.empty).score)
          (.byChain entry.2)) Best.empty) := by
    apply List.foldl_rel ⟨rfl, .none⟩
    intro entry member best cell soFar
    rcases chains entry member with ⟨part, stands⟩
    rw [part]
    exact soFar.offer_eq _ stands
  unfold bestClosing InsideChart.bestClosing
  dsimp only
  split
  · exact offered
  · rw [own]
    exact offered.offer_eq _ rfl

end

end InsideTables

end ChartParsing
