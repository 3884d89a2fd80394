import ChartParsing.Proofs.Chart.InsideBest
import ChartParsing.Proofs.Chart.Surroundings

/-!
# Outside scores are those of the best surroundings

Nothing that surrounds a constituent beats the outside score of its label and span
(`Pass.Surrounds.score_le`), by induction on what surrounds it.  Conversely, an
outside score that is not impossible is that of something around the span
(`Pass.surrounded`), by induction on how many words the span leaves out.
-/

namespace ChartParsing

namespace OutsideChart

variable {σ : Type} [Score σ]

/-! ## The candidates for a context -/

/-- The contexts of a label as the right child of a rule. -/
def asRight (chart : OutsideChart σ) (grammar : Grammar σ) (inside : InsideChart σ)
    (label : LabelId) (start stop : Nat) : Set σ :=
  {score | ∃ rule ∈ grammar.byRight.rules label, ∃ left ∈ List.range start,
    score = rule.score + chart.score .built rule.parent left stop +
      (inside.closed rule.left left start).score}

/-- The contexts of a label as the left child of a rule. -/
def asLeft (chart : OutsideChart σ) (grammar : Grammar σ) (inside : InsideChart σ)
    (label : LabelId) (start stop : Nat) : Set σ :=
  {score | ∃ rule ∈ grammar.byLeft.rules label,
    ∃ right ∈ widerStops chart.length stop,
      score = rule.score + chart.score .built rule.parent start right +
        (inside.closed rule.right stop right).score}

/-- The ways to close a label from above, given the contexts of the closed
constituents. -/
def openings (closure : UnaryClosure σ) (closed : Array σ) (label : LabelId) : Set σ :=
  {score | ∃ entry ∈ closure.byChild.chains label,
    score = entry.2.score + closed.getD entry.2.parent impossible} ∪
  {score | (closure.byChild.chains label).any (·.2.isReflexive) = false ∧
    score = closed.getD label impossible}

variable [Score.Lawful σ] {chart : OutsideChart σ} {inside : InsideChart σ}
  {label : LabelId} {start stop : Nat}

/-- The best context of a label is the best as either child of a rule. -/
theorem isBestOf_bestContext {grammar : Grammar σ}
    (rightNonpos : ∀ score ∈ chart.asRight grammar inside label start stop, score ≤ 0)
    (leftNonpos : ∀ score ∈ chart.asLeft grammar inside label start stop, score ≤ 0) :
    Score.IsBestOf
      (chart.asRight grammar inside label start stop ∪
        chart.asLeft grammar inside label start stop)
      (chart.bestContext grammar inside label start stop) := by
  have right := Score.IsBestOf.impossible_of_empty.foldl_foldl_better
    fun rule member left before => rightNonpos _ ⟨rule, member, left, before, rfl⟩
  rw [Set.empty_union] at right
  exact right.foldl_foldl_better
    fun rule member right after => leftNonpos _ ⟨rule, member, right, after, rfl⟩

/-- The best opening of a label is the best of all ways to close it from above. -/
theorem isBestOf_bestOpening {closure : UnaryClosure σ} {closed : Array σ}
    (nonpos : ∀ score ∈ openings closure closed label, score ≤ 0) :
    Score.IsBestOf (openings closure closed label)
      (bestOpening closure closed label) := by
  have offered := Score.IsBestOf.impossible_of_empty.foldl_better
    fun entry (member : entry ∈ closure.byChild.chains label) =>
      nonpos _ (Or.inl ⟨entry, member, rfl⟩)
  rw [Set.empty_union] at offered
  unfold bestOpening openings at *
  dsimp only
  cases loop : (closure.byChild.chains label).any (·.2.isReflexive) with
  | true =>
      simp only [Bool.true_eq_false, false_and, Set.ofPred_false, Set.union_empty]
      exact offered
  | false =>
      simp only [true_and]
      exact offered.better (nonpos _ (Or.inr ⟨loop, rfl⟩))

end OutsideChart

/-! ## Opening by a chain -/

section

variable {grammar : Grammar ExactScore} {closure : UnaryClosure ExactScore}
  {closed : Array ExactScore} {label top : LabelId}

/-- A way to close a label from above is by a chain of rules. -/
theorem exists_leads_of_mem_openings (faithful : closure.Faithful grammar)
    (known : label < grammar.labels.size) {score : ExactScore}
    (member : score ∈ OutsideChart.openings closure closed label) :
    ∃ top < grammar.labels.size, ∃ path chain,
      UnaryRule.Leads grammar.unary top label path chain ∧
        score = chain + closed.getD top impossible := by
  rcases member with ⟨⟨number, chain⟩, listed, rfl⟩ | ⟨-, rfl⟩
  · rcases (faithful.exists_mem_byChild known).mp ⟨number, listed⟩ with ⟨kept, rfl⟩
    exact ⟨chain.parent, (faithful.known chain kept).1, chain.path, chain.score,
      faithful.leads chain kept, rfl⟩
  · exact ⟨label, known, [label], 0, .stay label, (zero_add _).symm⟩

/-- No chain of rules is better than all ways to close a label from above. -/
theorem exists_opening_of_leads (wellFormed : grammar.WellFormed)
    (faithful : closure.Faithful grammar) (known : label < grammar.labels.size)
    (nonpos : closed.getD top impossible ≤ 0) {path : List LabelId} {chain : ExactScore}
    (leads : UnaryRule.Leads grammar.unary top label path chain) :
    ∃ score ∈ OutsideChart.openings closure closed label,
      chain + closed.getD top impossible ≤ score := by
  rcases faithful.exists_chain_or_no_loop wellFormed leads with
    ⟨found, member, rfl, child, better⟩ | ⟨rfl, noLoop⟩
  · rcases (faithful.exists_mem_byChild known).mpr ⟨member, child⟩ with ⟨number, listed⟩
    have le := ExactScore.add_le_add (faithful.nonpos wellFormed member) nonpos better
      (ExactScore.le_refl nonpos)
    exact ⟨_, Or.inl ⟨(number, found), listed, rfl⟩, le⟩
  · have unlooped : (closure.byChild.chains top).any (·.2.isReflexive) = false := by
      rw [List.any_eq_false]
      rintro ⟨number, found⟩ listed reflexive
      rcases (faithful.exists_mem_byChild known).mp ⟨number, listed⟩ with ⟨member, child⟩
      have parent : found.parent = top := (eq_of_beq reflexive).trans child
      exact Bool.false_ne_true ((noLoop found member parent).symm.trans reflexive)
    have chainNonpos := leads.nonpos fun _ member => wellFormed.unary_nonpos member
    exact ⟨_, Or.inr ⟨unlooped, rfl⟩, Score.add_le_right chainNonpos nonpos⟩

end

namespace Pass

/-- The outside chart around the chart of a pass. -/
def outside {σ : Type} [Score σ] (pass : Pass σ) : OutsideChart σ :=
  pass.model.outside pass.length pass.inside

/-- Over the whole sentence only the root is closed, and nothing surrounds it. -/
theorem closed_outside_whole {σ : Type} [Score σ] {pass : Pass σ} {label : LabelId}
    (known : label < pass.model.grammar.labels.size) (nonempty : 0 < pass.length) :
    pass.outside.score .closed label 0 pass.length =
      if label = pass.model.grammar.root then 0 else impossible := by
  unfold outside
  rw [pass.model.closed_outside _ _ nonempty (Nat.le_refl _) known, Nat.sub_zero,
    if_pos rfl]

variable {pass : Pass ExactScore} {label : LabelId} {start stop : Nat}

/-- What holds of the outside scores of a span: none is positive, and one that is not
impossible is that of something around the span. -/
structure Surrounded (pass : Pass ExactScore) (start stop : Nat) (stage : Stage) : Prop where
  nonpos : ∀ label < pass.model.grammar.labels.size,
    pass.outside.score stage label start stop ≤ 0
  attained : ∀ label < pass.model.grammar.labels.size,
    pass.outside.score stage label start stop ≠ impossible →
    pass.Surrounds stage label start stop (pass.outside.score stage label start stop)

section

variable (sound : pass.model.Sound) (nonpositive : pass.Nonpositive)
  (nonempty : start < stop) (bounded : stop ≤ pass.length)

include sound nonpositive nonempty bounded

/-- Over a part of the sentence the outside score of a closed constituent is the best
of its contexts, if no outside score of a wider span is positive. -/
theorem isBestOf_closed_outside
    (wider : ∀ label < pass.model.grammar.labels.size, ∀ left right, left ≤ start →
      stop ≤ right → right ≤ pass.length → stop - start < right - left →
      pass.outside.score .built label left right ≤ 0)
    (proper : stop - start ≠ pass.length) (known : label < pass.model.grammar.labels.size) :
    Score.IsBestOf
      (pass.outside.asRight pass.model.grammar pass.inside label start stop ∪
        pass.outside.asLeft pass.model.grammar pass.inside label start stop)
      (pass.outside.score .closed label start stop) := by
  have same : pass.outside.score .closed label start stop =
      pass.outside.bestContext pass.model.grammar pass.inside label start stop := by
    rw [outside, pass.model.closed_outside _ _ nonempty bounded known, if_neg proper]
  rw [same]
  apply OutsideChart.isBestOf_bestContext
  · rintro score ⟨rule, listed, left, before, rfl⟩
    rcases (sound.grammar.mem_byRight known).mp listed with ⟨member, rfl⟩
    rcases sound.grammar.binaryKnown rule member with ⟨parentKnown, leftKnown, -⟩
    have before := List.mem_range.mp before
    exact Score.add_nonpos
      (Score.add_nonpos (sound.grammar.binary_nonpos member)
        (wider rule.parent parentKnown left stop (by omega) (Nat.le_refl _) bounded
          (by omega)))
      (score_nonpos nonpositive before (by omega) leftKnown .closed)
  · rintro score ⟨rule, listed, right, after, rfl⟩
    rcases (sound.grammar.mem_byLeft known).mp listed with ⟨member, rfl⟩
    rcases sound.grammar.binaryKnown rule member with ⟨parentKnown, -, rightKnown⟩
    rcases (mem_widerStops bounded).mp after with ⟨after, within⟩
    exact Score.add_nonpos
      (Score.add_nonpos (sound.grammar.binary_nonpos member)
        (wider rule.parent parentKnown start right (Nat.le_refl _) (Nat.le_of_lt after) within
          (by omega)))
      (score_nonpos nonpositive after within rightKnown .closed)

omit nonpositive in
/-- The outside score of a built constituent is the best of its openings, if no outside
score of a closed constituent of the span is positive. -/
theorem isBestOf_built_outside
    (closedNonpos : ∀ label < pass.model.grammar.labels.size,
      pass.outside.score .closed label start stop ≤ 0)
    (known : label < pass.model.grammar.labels.size) :
    Score.IsBestOf
      (OutsideChart.openings pass.model.closure (pass.outside.span start stop).closed label)
      (pass.outside.score .built label start stop) := by
  have same : pass.outside.score .built label start stop =
      OutsideChart.bestOpening pass.model.closure (pass.outside.span start stop).closed
        label := by
    rw [outside, pass.model.built_outside _ _ nonempty bounded known]
  rw [same]
  apply OutsideChart.isBestOf_bestOpening
  intro score member
  obtain ⟨top, topKnown, path, chain, leads, rfl⟩ :=
    exists_leads_of_mem_openings sound.closure known member
  exact Score.add_nonpos (leads.nonpos fun _ member => sound.grammar.unary_nonpos member)
    (closedNonpos top topKnown)

/-- The contexts of the closed constituents of a span come from those of the built
constituents of wider spans. -/
theorem surrounded_closed_of_wider
    (wider : ∀ left right, left ≤ start → stop ≤ right → right ≤ pass.length →
      stop - start < right - left → pass.Surrounded left right .built) :
    pass.Surrounded start stop .closed := by
  by_cases whole : stop - start = pass.length
  · obtain rfl : start = 0 := by omega
    obtain rfl : stop = pass.length := by omega
    constructor
    case nonpos =>
      intro label known
      rw [closed_outside_whole known nonempty]
      split
      · exact Score.Lawful.zero_nonpos
      · exact Score.impossible_nonpos
    case attained =>
      intro label known possible
      rw [closed_outside_whole known nonempty] at possible ⊢
      split at possible
      · rename_i isRoot
        rw [if_pos isRoot, isRoot]
        exact .whole nonempty
      · exact absurd rfl possible
  · have best {label : LabelId} (known : label < pass.model.grammar.labels.size) :=
      isBestOf_closed_outside sound nonpositive nonempty bounded
        (fun label known left right before after within strict =>
          (wider left right before after within strict).nonpos label known)
        whole known
    constructor
    case nonpos => exact fun label known => (best known).nonpos
    case attained =>
      intro label known possible
      rcases (best known).attained.resolve_left possible with
        ⟨rule, listed, left, before, same⟩ | ⟨rule, listed, right, after, same⟩
      · rcases (sound.grammar.mem_byRight known).mp listed with ⟨member, rfl⟩
        rcases sound.grammar.binaryKnown rule member with ⟨parentKnown, leftKnown, -⟩
        have before := List.mem_range.mp before
        have around := wider left stop (by omega) (Nat.le_refl _) bounded (by omega)
        have beside := isBestOf_admits sound nonpositive before (by omega) leftKnown .closed
        rw [same] at possible ⊢
        obtain ⟨aroundPossible, siblingPossible⟩ := Score.possible_of_add_add_possible
          (sound.grammar.binary_nonpos member) (around.nonpos rule.parent parentKnown)
          beside.nonpos possible
        rcases beside.attained.resolve_left siblingPossible with ⟨tree, admits⟩
        exact .right member nonempty
          (around.attained rule.parent parentKnown aroundPossible) admits
      · rcases (sound.grammar.mem_byLeft known).mp listed with ⟨member, rfl⟩
        rcases sound.grammar.binaryKnown rule member with ⟨parentKnown, -, rightKnown⟩
        rcases (mem_widerStops bounded).mp after with ⟨after, within⟩
        have around := wider start right (Nat.le_refl _) (Nat.le_of_lt after) within (by omega)
        have beside := isBestOf_admits sound nonpositive after within rightKnown .closed
        rw [same] at possible ⊢
        obtain ⟨aroundPossible, siblingPossible⟩ := Score.possible_of_add_add_possible
          (sound.grammar.binary_nonpos member) (around.nonpos rule.parent parentKnown)
          beside.nonpos possible
        rcases beside.attained.resolve_left siblingPossible with ⟨tree, admits⟩
        exact .left member nonempty
          (around.attained rule.parent parentKnown aroundPossible) admits

omit nonpositive in
/-- The contexts of the built constituents of a span come from those of the closed
ones. -/
theorem surrounded_built_of_closed (closed : pass.Surrounded start stop .closed) :
    pass.Surrounded start stop .built := by
  have best {label : LabelId} (known : label < pass.model.grammar.labels.size) :=
    isBestOf_built_outside sound nonempty bounded closed.nonpos known
  constructor
  case nonpos => exact fun label known => (best known).nonpos
  case attained =>
    intro label known possible
    have offered := (best known).attained.resolve_left possible
    obtain ⟨top, topKnown, path, chain, leads, same⟩ :=
      exists_leads_of_mem_openings sound.closure known offered
    rw [same] at possible ⊢
    obtain ⟨-, closedPossible⟩ := Score.possible_of_add_possible
      (leads.nonpos fun _ member => sound.grammar.unary_nonpos member)
      (closed.nonpos top topKnown) possible
    exact .under known leads (closed.attained top topKnown closedPossible)

/-- The outside scores of a span are those of what surrounds it. -/
theorem surrounded (stage : Stage) : pass.Surrounded start stop stage := by
  -- The induction is on how many words the span leaves out, for both stages.
  suffices pass.Surrounded start stop .closed ∧ pass.Surrounded start stop .built by
    cases stage with
    | built => exact this.2
    | closed => exact this.1
  induction missing : pass.length - (stop - start) using Nat.strong_induction_on
    generalizing start stop with
  | _ missing inductionHypothesis =>
    have closed : pass.Surrounded start stop .closed := by
      apply surrounded_closed_of_wider sound nonpositive nonempty bounded
      intro left right before after within wider
      exact (inductionHypothesis _ (by omega) (by omega) within rfl).2
    exact ⟨closed,
      surrounded_built_of_closed sound nonempty bounded closed⟩

end

namespace Surrounds

variable {stage : Stage} {outer : ExactScore} (sound : pass.model.Sound)
  (nonpositive : pass.Nonpositive)

include sound nonpositive

theorem outside_nonpos (surrounds : pass.Surrounds stage label start stop outer) :
    pass.outside.score stage label start stop ≤ 0 :=
  (surrounded sound nonpositive surrounds.bounds.1 surrounds.bounds.2 stage).nonpos label
    (surrounds.known sound.grammar)

/-- Nothing that surrounds a constituent beats its outside score. -/
theorem score_le
    (surrounds : pass.Surrounds stage label start stop outer) :
    outer ≤ pass.outside.score stage label start stop := by
  induction surrounds with
  | whole nonempty =>
      rw [closed_outside_whole sound.grammar.rooted nonempty, if_pos rfl]
      exact Score.Lawful.zero_nonpos
  | @left rule start middle stop tree outer score member after around beside
      inductionHypothesis =>
      rcases beside.bounds with ⟨before, bounded⟩
      have known := (sound.grammar.binaryKnown rule member).2.1
      have best := isBestOf_closed_outside sound nonpositive after (by omega)
        (fun label known left right _ _ _ _ =>
          (surrounded sound nonpositive (by omega) (by omega) .built).nonpos label known)
        (by omega) known
      calc
        rule.score + outer + score
        _ ≤ rule.score + pass.outside.score .built rule.parent start stop +
              pass.inside.score .closed rule.right middle stop :=
          Score.add_add_le_add_add (sound.grammar.binary_nonpos member)
            (around.outside_nonpos sound nonpositive)
            (beside.inside_nonpos sound nonpositive) inductionHypothesis
            (beside.score_le sound nonpositive)
        _ ≤ pass.outside.score .closed rule.left start middle :=
          best.bound _ (Or.inr ⟨rule, (sound.grammar.mem_byLeft known).mpr ⟨member, rfl⟩,
            stop, (@mem_widerStops pass.length _ _ (by omega)).mpr ⟨before, bounded⟩, rfl⟩)
  | @right rule start middle stop tree outer score member before around beside
      inductionHypothesis =>
      rcases beside.bounds with ⟨after, -⟩
      rcases around.bounds with ⟨-, bounded⟩
      have known := (sound.grammar.binaryKnown rule member).2.2
      have best := isBestOf_closed_outside sound nonpositive before bounded
        (fun label known left right _ _ _ _ =>
          (surrounded sound nonpositive (by omega) (by omega) .built).nonpos label known)
        (by omega) known
      calc
        rule.score + outer + score
        _ ≤ rule.score + pass.outside.score .built rule.parent start stop +
              pass.inside.score .closed rule.left start middle :=
          Score.add_add_le_add_add (sound.grammar.binary_nonpos member)
            (around.outside_nonpos sound nonpositive)
            (beside.inside_nonpos sound nonpositive) inductionHypothesis
            (beside.score_le sound nonpositive)
        _ ≤ pass.outside.score .closed rule.right middle stop :=
          best.bound _ (Or.inl ⟨rule, (sound.grammar.mem_byRight known).mpr ⟨member, rfl⟩,
            start, List.mem_range.mpr after, rfl⟩)
  | @under label top start stop path chain outer known leads around inductionHypothesis =>
      rcases around.bounds with ⟨nonempty, bounded⟩
      have closed := surrounded sound nonpositive nonempty bounded .closed
      have best := isBestOf_built_outside sound nonempty bounded closed.nonpos known
      have topNonpos := around.outside_nonpos sound nonpositive
      obtain ⟨opening, member, le⟩ :=
        exists_opening_of_leads sound.grammar sound.closure known topNonpos leads
      have chainNonpos := leads.nonpos fun _ member => sound.grammar.unary_nonpos member
      calc
        chain + outer
        _ ≤ chain + pass.outside.score .closed top start stop :=
          ExactScore.add_le_add chainNonpos topNonpos (ExactScore.le_refl chainNonpos)
            inductionHypothesis
        _ ≤ opening := le
        _ ≤ pass.outside.score .built label start stop := best.bound opening member

end Surrounds

end Pass

end ChartParsing
