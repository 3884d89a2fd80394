import ChartParsing.Chart.Derivation
import ChartParsing.Proofs.Parser.PrunedScore
import ChartParsing.Proofs.Score.FirstBest

/-!
# Passing over left parts loses nothing

While a span is split, a left part that scores no better than the best so far is passed
over.  The plain pass `Pass.insideOfAll` fills its chart without this: each cell is the
best of the list of all its candidates.  As no score in a chart is positive, and as lawful
addition is monotone and raises no score by adding zero to it, the two charts are the same,
in their scores and in their choices (`Pass.inside_eq_insideOfAll`), and what each cell has
chosen is the first of its best candidates, in the order of the rules and of the places to
split a span, or in the order of the chains of the closure.
-/

namespace ChartParsing

variable {σ : Type} [Score σ]

/-- Tables are the same if their cells are computed alike from the same rows. -/
theorem Rows.fill_congr {α : Type} {width : Nat → Nat} {cell other : Rows α → Nat → Nat → α}
    {count : Nat}
    (agree : ∀ row < count, ∀ column < width row,
      cell (fill width cell row) row column = other (fill width cell row) row column) :
    fill width cell count = fill width other count := by
  induction count with
  | zero => rfl
  | succ row inductionHypothesis =>
      have earlier := inductionHypothesis fun row before =>
        agree row (Nat.lt_succ_of_lt before)
      rw [fill, fill, ← earlier]
      refine congrArg (fun cells => mk (Array.push _ (Array.ofFn cells))) ?_
      funext column
      exact agree row (Nat.lt_succ_self row) column column.isLt

/-! ## Lists of all candidates -/

namespace InsideChart

/-- What the given rules build over a span, rule by rule and split by split. -/
def splitList (chart : InsideChart σ) (rules : List (BinaryRule σ)) (start stop : Nat) :
    List (σ × Construction σ) :=
  rules.flatMap fun rule => (middles start stop).map (chart.candidate start stop rule)

/-- What the given rules build over a span, each with the position of its rule and the
place of its split. -/
def numberedSplits (chart : InsideChart σ) (rules : List (BinaryRule σ)) (start stop : Nat) :
    List ((Nat × Nat) × σ × Construction σ) :=
  rules.zipIdx.flatMap fun (rule, ordinal) =>
    (middles start stop).map fun middle =>
      ((ordinal, middle), chart.candidate start stop rule middle)

/-- The ways to close a label over a span whose built cells are given, the chains first. -/
def closingList (closure : UnaryClosure σ) (built : Array (Best σ (Construction σ)))
    (label : LabelId) : List (σ × Closing σ) :=
  let chains := closure.byParent.chains label
  chains.map (fun entry =>
      (entry.2.score + (built.getD entry.2.child Best.empty).score, .byChain entry.2)) ++
    if chains.any (·.2.isReflexive) then []
    else [((built.getD label Best.empty).score, .asBuilt)]

/-- The ways to close a label, numbered by their position. -/
def numberedClosings (closure : UnaryClosure σ) (built : Array (Best σ (Construction σ)))
    (label : LabelId) : List (Nat × σ × Closing σ) :=
  (closingList closure built label).zipIdx.map Prod.swap

theorem map_snd_numberedSplits (chart : InsideChart σ) (rules : List (BinaryRule σ))
    (start stop : Nat) :
    (chart.numberedSplits rules start stop).map Prod.snd = chart.splitList rules start stop := by
  calc
    (chart.numberedSplits rules start stop).map Prod.snd
        = chart.splitList (rules.zipIdx.map Prod.fst) start stop := by
      simp only [numberedSplits, splitList, List.map_flatMap, List.map_map, List.flatMap_map]
      rfl
    _ = chart.splitList rules start stop := by rw [List.zipIdx_map_fst]

theorem map_snd_numberedClosings (closure : UnaryClosure σ)
    (built : Array (Best σ (Construction σ))) (label : LabelId) :
    (numberedClosings closure built label).map Prod.snd = closingList closure built label := by
  rw [numberedClosings, List.map_map]
  exact List.zipIdx_map_fst 0 _

theorem mem_numberedSplits {chart : InsideChart σ} {rules : List (BinaryRule σ)}
    {start stop : Nat} {offer : (Nat × Nat) × σ × Construction σ} :
    offer ∈ chart.numberedSplits rules start stop ↔
      ∃ rule, rules[offer.1.1]? = some rule ∧ offer.1.2 ∈ middles start stop ∧
        offer.2 = chart.candidate start stop rule offer.1.2 := by
  rcases offer with ⟨⟨ordinal, middle⟩, candidate⟩
  simp only [numberedSplits, List.mem_flatMap, List.mem_map, Prod.exists,
    List.mk_mem_zipIdx_iff_getElem?]
  constructor
  · rintro ⟨rule, _, listed, _, between, ⟨⟩⟩
    exact ⟨rule, listed, between, rfl⟩
  · rintro ⟨rule, listed, between, rfl⟩
    exact ⟨rule, ordinal, listed, middle, between, rfl⟩

theorem mem_numberedClosings {closure : UnaryClosure σ}
    {built : Array (Best σ (Construction σ))} {label : LabelId}
    {offer : Nat × σ × Closing σ} :
    offer ∈ numberedClosings closure built label ↔
      (closingList closure built label)[offer.1]? = some offer.2 := by
  rw [numberedClosings, List.mem_map]
  constructor
  · rintro ⟨⟨candidate, position⟩, listed, rfl⟩
    exact List.mk_mem_zipIdx_iff_getElem?.mp listed
  · intro found
    exact ⟨(offer.2, offer.1), List.mk_mem_zipIdx_iff_getElem?.mpr found, rfl⟩

/-- The candidates are listed in the order of the rules and of the places to split. -/
theorem pairwise_numberedSplits (chart : InsideChart σ) (rules : List (BinaryRule σ))
    (start stop : Nat) :
    (chart.numberedSplits rules start stop).Pairwise fun offer later =>
      Prod.Lex (· < ·) (· < ·) offer.1 later.1 := by
  rw [numberedSplits, List.pairwise_flatMap]
  constructor
  · rintro ⟨rule, ordinal⟩ -
    rw [List.pairwise_map]
    exact (List.pairwise_lt_range' 1).imp fun earlier => .right ordinal earlier
  · have ordered : (rules.zipIdx.map Prod.snd).Pairwise (· < ·) := by
      rw [List.zipIdx_map_snd]
      exact List.pairwise_lt_range'
    rw [List.pairwise_map] at ordered
    refine ordered.imp ?_
    rintro ⟨rule, ordinal⟩ ⟨laterRule, laterOrdinal⟩ earlier offer member later laterMember
    rcases List.mem_map.mp member with ⟨middle, -, rfl⟩
    rcases List.mem_map.mp laterMember with ⟨laterMiddle, -, rfl⟩
    exact .left _ _ earlier

theorem pairwise_numberedClosings (closure : UnaryClosure σ)
    (built : Array (Best σ (Construction σ))) (label : LabelId) :
    (numberedClosings closure built label).Pairwise fun offer later => offer.1 < later.1 := by
  have ordered : ((closingList closure built label).zipIdx.map Prod.snd).Pairwise (· < ·) := by
    rw [List.zipIdx_map_snd]
    exact List.pairwise_lt_range'
  rw [List.pairwise_map] at ordered
  rw [numberedClosings, List.pairwise_map]
  exact ordered

/-! ## The best of all candidates -/

/-- The best closing is sought among all of them already. -/
theorem bestClosing_eq_ofList (closure : UnaryClosure σ)
    (built : Array (Best σ (Construction σ))) (label : LabelId) :
    bestClosing closure built label = Best.ofList (closingList closure built label) := by
  rw [Best.ofList_eq_offerAll, closingList, Best.offerAll_append, bestClosing]
  unfold Best.offerAll
  dsimp only
  rw [List.foldl_map]
  split <;> rfl

/-- The chains come first in the list of closings. -/
theorem getElem?_closingList {closure : UnaryClosure σ}
    {built : Array (Best σ (Construction σ))} {label : LabelId} {position : Nat}
    (within : position < (closure.byParent.chains label).length) :
    (closingList closure built label)[position]? =
      (closure.byParent.chains label)[position]?.map fun entry =>
        (entry.2.score + (built.getD entry.2.child Best.empty).score, .byChain entry.2) := by
  rw [closingList, List.getElem?_append_left (by rwa [List.length_map]), List.getElem?_map]

/-- A closing as built is chosen only if all chains score worse. -/
theorem lt_of_isFirstOf_asBuilt {closure : UnaryClosure σ}
    {built : Array (Best σ (Construction σ))} {label : LabelId} {best : Best σ (Closing σ)}
    (first : best.IsFirstOf (· < ·) (numberedClosings closure built label))
    (chosen : best.choice = some .asBuilt) {entry : Nat × UnaryChain σ}
    (listed : entry ∈ closure.byParent.chains label) :
    entry.2.score + (built.getD entry.2.child Best.empty).score < best.score := by
  cases first with
  | nothing none => cases chosen
  | @first position score _ member possible unbeaten =>
      obtain rfl := Option.some.inj chosen
      obtain ⟨index, found⟩ := List.getElem?_of_mem listed
      have within := (List.getElem?_eq_some_iff.mp found).1
      have chainMember : (index, entry.2.score + (built.getD entry.2.child Best.empty).score,
          .byChain entry.2) ∈ numberedClosings closure built label := by
        rw [mem_numberedClosings, getElem?_closingList within, found, Option.map_some]
      refine (unbeaten _ chainMember).2 ?_
      by_contra notBefore
      -- A position before the end of the chains holds a chain.
      rw [mem_numberedClosings,
        getElem?_closingList (Nat.lt_of_le_of_lt (Nat.le_of_not_lt notBefore) within)] at member
      rcases Option.map_eq_some_iff.mp member with ⟨other, -, same⟩
      cases same

variable [Score.Lawful σ] {chart : InsideChart σ} {start stop : Nat}

/-- The splits of a rule that are passed over would not be taken. -/
theorem offerSplits_eq_offerAll {rule : BinaryRule σ} (ruleNonpos : rule.score ≤ 0)
    (partsNonpos : ∀ middle ∈ middles start stop,
      (chart.closed rule.left start middle).score ≤ 0 ∧
        (chart.closed rule.right middle stop).score ≤ 0)
    {best : Best σ (Construction σ)} (nonpos : best.score ≤ 0) :
    chart.offerSplits start stop best rule =
      best.offerAll ((middles start stop).map (chart.candidate start stop rule)) := by
  unfold offerSplits
  generalize middles start stop = places at partsNonpos ⊢
  induction places generalizing best with
  | nil => rfl
  | cons middle rest inductionHypothesis =>
      rw [List.forall_mem_cons] at partsNonpos
      rcases partsNonpos with ⟨⟨leftNonpos, rightNonpos⟩, restNonpos⟩
      have halfNonpos := Score.add_nonpos ruleNonpos leftNonpos
      have wholeNonpos := Score.add_nonpos halfNonpos rightNonpos
      have step : (if rule.score + (chart.closed rule.left start middle).score ≤ best.score
            then best
            else best.offer (chart.candidate start stop rule middle).1
              (chart.candidate start stop rule middle).2) =
          best.offer (chart.candidate start stop rule middle).1
            (chart.candidate start stop rule middle).2 := by
        split
        · rename_i passedOver
          have worse := Score.Lawful.le_trans (Score.add_le_left halfNonpos rightNonpos)
            passedOver
          exact (Best.offer_eq_self nonpos wholeNonpos worse _).symm
        · rfl
      rw [List.map_cons, Best.offerAll, List.foldl_cons, List.foldl_cons]
      refine (congrArg (rest.foldl _) step).trans ?_
      refine inductionHypothesis ?_ restNonpos
      rw [Best.score_offer]
      exact Score.better_nonpos nonpos wholeNonpos

/-- The best split is the best of all candidates. -/
theorem bestSplit_eq_ofList {grammar : Grammar σ} {label : LabelId}
    (rulesNonpos : ∀ rule ∈ grammar.byParent.rules label, rule.score ≤ 0)
    (partsNonpos : ∀ rule ∈ grammar.byParent.rules label, ∀ middle ∈ middles start stop,
      (chart.closed rule.left start middle).score ≤ 0 ∧
        (chart.closed rule.right middle stop).score ≤ 0) :
    chart.bestSplit grammar label start stop =
      Best.ofList (chart.splitList (grammar.byParent.rules label) start stop) := by
  rw [bestSplit, Best.ofList_eq_offerAll, splitList]
  have nonpos : (Best.empty : Best σ (Construction σ)).score ≤ 0 :=
    Score.impossible_nonpos
  generalize grammar.byParent.rules label = rules at rulesNonpos partsNonpos ⊢
  generalize (Best.empty : Best σ (Construction σ)) = best at nonpos ⊢
  induction rules generalizing best with
  | nil => rfl
  | cons rule rest inductionHypothesis =>
      rw [List.forall_mem_cons] at rulesNonpos partsNonpos
      rw [List.foldl_cons, List.flatMap_cons, Best.offerAll_append,
        offerSplits_eq_offerAll rulesNonpos.1 partsNonpos.1 nonpos]
      refine inductionHypothesis rulesNonpos.2 partsNonpos.2 _
        (Best.score_offerAll_nonpos nonpos ?_)
      intro offer member
      rcases List.mem_map.mp member with ⟨middle, between, rfl⟩
      rcases partsNonpos.1 middle between with ⟨leftNonpos, rightNonpos⟩
      exact Score.add_nonpos (Score.add_nonpos rulesNonpos.1 leftNonpos) rightNonpos

end InsideChart

/-! ## The plain pass -/

namespace Pass

/-- The built cell of a label, sought among all candidates. -/
def builtCellOfAll (pass : Pass σ) (chart : InsideChart σ) (label : LabelId)
    (start stop : Nat) : Best σ (Construction σ) :=
  if pass.pruned .built label start stop then Best.empty
  else if stop = start + 1 then
    let word := pass.words.getD start ""
    let tag := pass.model.grammar.labels.name label
    Best.ofList [(pass.model.tagScore word tag, .word)]
  else Best.ofList (chart.splitList (pass.model.grammar.byParent.rules label) start stop)

/-- The closed cell of a label, sought among all candidates. -/
def closedCellOfAll (pass : Pass σ) (built : Array (Best σ (Construction σ)))
    (label : LabelId) (start stop : Nat) : Best σ (Closing σ) :=
  if pass.pruned .closed label start stop then Best.empty
  else Best.ofList (InsideChart.closingList pass.model.closure built label)

/-- The cells of a span, sought among all candidates. -/
def spanCellsOfAll (pass : Pass σ) (chart : InsideChart σ) (start stop : Nat) : SpanCells σ :=
  let labelCount := pass.model.grammar.labels.size
  let built := Array.ofFn fun label : Fin labelCount =>
    pass.builtCellOfAll chart label start stop
  { built
    closed := Array.ofFn fun label : Fin labelCount =>
      pass.closedCellOfAll built label start stop }

/-- The chart of a sentence that is filled without passing over any candidate. -/
def insideOfAll (pass : Pass σ) : InsideChart σ :=
  ⟨Rows.fill (fun row => pass.length - row)
    (fun narrower row start => pass.spanCellsOfAll ⟨narrower⟩ start (start + row + 1))
    pass.length⟩

theorem closedCell_eq_closedCellOfAll (pass : Pass σ) (built : Array (Best σ (Construction σ)))
    (label : LabelId) (start stop : Nat) :
    pass.closedCell built label start stop = pass.closedCellOfAll built label start stop := by
  rw [closedCell, closedCellOfAll, InsideChart.bestClosing_eq_ofList]

variable [Score.Lawful σ] {pass : Pass σ} {label : LabelId} {start stop : Nat}

section

variable (nonpositive : pass.Nonpositive)

include nonpositive

/-- A built cell is the best of all candidates, in every chart that has the narrower
spans. -/
theorem builtCell_eq_builtCellOfAll {rows : Nat} (filled : stop - start - 1 ≤ rows)
    (bounded : stop ≤ pass.length) (known : label < pass.model.grammar.labels.size) :
    pass.builtCell (pass.insideRows rows) label start stop =
      pass.builtCellOfAll (pass.insideRows rows) label start stop := by
  unfold builtCell builtCellOfAll
  split
  · rfl
  · split
    · rfl
    · have closedNonpos {part : LabelId} (known : part < pass.model.grammar.labels.size)
          {left right : Nat} (nonempty : left < right) (within : right - left ≤ rows)
          (inside : right ≤ pass.length) :
          ((pass.insideRows rows).closed part left right).score ≤ 0 := by
        unfold InsideChart.closed
        rw [pass.span_insideRows_eq_inside nonempty within inside]
        exact score_nonpos nonpositive nonempty inside known .closed
      apply InsideChart.bestSplit_eq_ofList
      · exact fun rule member => (nonpositive.rules label known rule member).2.2
      · intro rule member middle between
        rcases mem_middles.mp between with ⟨after, before⟩
        rcases nonpositive.rules label known rule member with ⟨leftKnown, rightKnown, -⟩
        exact ⟨closedNonpos leftKnown after (by omega) (by omega),
          closedNonpos rightKnown before (by omega) bounded⟩

/-- Passing over left parts changes no cell. -/
theorem inside_eq_insideOfAll : pass.inside = pass.insideOfAll := by
  refine congrArg InsideChart.mk (Rows.fill_congr ?_)
  intro row rowBound start startBound
  have built : (fun label : Fin pass.model.grammar.labels.size =>
        pass.builtCell (pass.insideRows row) label start (start + row + 1)) =
      fun label : Fin pass.model.grammar.labels.size =>
        pass.builtCellOfAll (pass.insideRows row) label start (start + row + 1) := by
    funext label
    exact builtCell_eq_builtCellOfAll nonpositive (by omega) (by omega) label.isLt
  change pass.spanCells (pass.insideRows row) start (start + row + 1) =
    pass.spanCellsOfAll (pass.insideRows row) start (start + row + 1)
  unfold spanCells spanCellsOfAll
  dsimp only
  rw [built]
  simp only [closedCell_eq_closedCellOfAll]

/-- A built cell over several words holds the first of the best splits. -/
theorem isFirstOf_built (several : start + 1 < stop) (bounded : stop ≤ pass.length)
    (known : label < pass.model.grammar.labels.size)
    (kept : pass.pruned .built label start stop = false) :
    (pass.inside.built label start stop).IsFirstOf (Prod.Lex (· < ·) (· < ·))
      (pass.inside.numberedSplits (pass.model.grammar.byParent.rules label) start stop) := by
  have filled : pass.inside.built label start stop = Best.ofList
      ((pass.inside.numberedSplits (pass.model.grammar.byParent.rules label) start stop).map
        Prod.snd) := by
    rw [pass.built_inside (by omega) bounded known, inside_eq_insideRows,
      builtCell_eq_builtCellOfAll nonpositive (by omega) bounded known, builtCellOfAll,
      if_neg (by simp [kept]), if_neg (by omega), InsideChart.map_snd_numberedSplits]
  rw [filled]
  refine Best.isFirstOf_ofList (fun _ _ => asymm)
    (InsideChart.pairwise_numberedSplits _ _ _ _) ?_
  intro offer member
  rcases InsideChart.mem_numberedSplits.mp member with ⟨rule, listed, between, same⟩
  rcases mem_middles.mp between with ⟨after, before⟩
  rcases nonpositive.rules label known rule (List.mem_of_getElem? listed) with
    ⟨leftKnown, rightKnown, ruleNonpos⟩
  rw [same]
  exact Score.add_nonpos
    (Score.add_nonpos ruleNonpos
      (score_nonpos nonpositive after (by omega) leftKnown .closed))
    (score_nonpos nonpositive before bounded rightKnown .closed)

/-- A closed cell holds the first of the best closings. -/
theorem isFirstOf_closed (nonempty : start < stop) (bounded : stop ≤ pass.length)
    (known : label < pass.model.grammar.labels.size)
    (kept : pass.pruned .closed label start stop = false) :
    (pass.inside.closed label start stop).IsFirstOf (· < ·)
      (InsideChart.numberedClosings pass.model.closure (pass.builtCells start stop) label) := by
  have filled : pass.inside.closed label start stop = Best.ofList
      ((InsideChart.numberedClosings pass.model.closure (pass.builtCells start stop) label).map
        Prod.snd) := by
    rw [pass.closed_inside nonempty bounded known, closedCell_eq_closedCellOfAll,
      closedCellOfAll, if_neg (by simp [kept]), InsideChart.map_snd_numberedClosings]
  rw [filled]
  refine Best.isFirstOf_ofList (fun _ _ => Nat.lt_asymm)
    (InsideChart.pairwise_numberedClosings _ _ _) ?_
  intro offer member
  have listed : offer.2 ∈
      InsideChart.closingList pass.model.closure (pass.builtCells start stop) label := by
    rw [← InsideChart.map_snd_numberedClosings]
    exact List.mem_map_of_mem member
  rcases List.mem_append.mp listed with chainOffer | asBuilt
  · rcases List.mem_map.mp chainOffer with ⟨entry, entryListed, same⟩
    rcases nonpositive.chains label known entry entryListed with ⟨childKnown, chainNonpos⟩
    rw [← same, getD_builtCells childKnown]
    exact Score.add_nonpos chainNonpos
      (score_nonpos nonpositive nonempty bounded childKnown .built)
  · split at asBuilt
    · cases asBuilt
    · rw [List.mem_singleton.mp asBuilt, getD_builtCells known]
      exact score_nonpos nonpositive nonempty bounded known .built

end

/-- In a pass of a model that has been built, over a lexicon that scores nothing above zero,
no score is positive, and passing over left parts that score no better than the best so far
changes no cell: the cells are those that the plain pass seeks among all candidates.  A
built cell holds the first of the best splits, by the order of the rules and then of the
places to split; a closed cell holds the first of the best closings, by the order of the
chains, or the constituent as built if no chain is as good.  The derivations read off the
two charts are the same. -/
theorem skipping_loses_nothing (built : pass.model.IsBuilt)
    (nonpositive : pass.model.lexicon.Nonpositive) :
    (∀ label < pass.model.grammar.labels.size, ∀ start stop, start < stop →
      stop ≤ pass.length →
        (∀ stage, pass.inside.score stage label start stop ≤ 0) ∧
        (start + 1 < stop → pass.pruned .built label start stop = false →
          (pass.inside.built label start stop).IsFirstOf (Prod.Lex (· < ·) (· < ·))
            (pass.inside.numberedSplits (pass.model.grammar.byParent.rules label) start
              stop)) ∧
        (pass.pruned .closed label start stop = false →
          (pass.inside.closed label start stop).IsFirstOf (· < ·)
            (InsideChart.numberedClosings pass.model.closure (pass.builtCells start stop)
              label)) ∧
        ((pass.inside.closed label start stop).choice = some .asBuilt →
          ∀ entry ∈ pass.model.closure.byParent.chains label,
            entry.2.score + (pass.inside.built entry.2.child start stop).score <
              (pass.inside.closed label start stop).score)) ∧
      pass.inside = pass.insideOfAll ∧
      ∀ label start stop,
        pass.derivation? pass.inside label start stop =
          pass.derivation? pass.insideOfAll label start stop := by
  have lawful := nonpositive_of_isBuilt built (taggingError?_of_nonpositive nonpositive)
  have same := inside_eq_insideOfAll lawful
  refine ⟨?_, same, fun label start stop => by rw [← same]⟩
  intro label known start stop nonempty bounded
  refine ⟨score_nonpos lawful nonempty bounded known,
    fun several kept => isFirstOf_built lawful several bounded known kept,
    fun kept => isFirstOf_closed lawful nonempty bounded known kept, ?_⟩
  intro chosen entry listed
  have kept : pass.pruned .closed label start stop = false := by
    by_contra dropped
    rw [pass.closed_inside nonempty bounded known, closedCell, if_pos (by simpa using dropped)]
      at chosen
    cases chosen
  have beaten := InsideChart.lt_of_isFirstOf_asBuilt
    (isFirstOf_closed lawful nonempty bounded known kept) chosen listed
  rwa [getD_builtCells (lawful.chains label known entry listed).1] at beaten

/-- The noun phrase is closed by a chain, the sentence is built by its only rule. -/
theorem skipping_loses_nothing_dogs_bark :
    ((Sample.Exact.fine.pass ["dogs", "bark"] .nothing).inside.built 1 0 2).IsFirstOf
        (Prod.Lex (· < ·) (· < ·))
        ((Sample.Exact.fine.pass ["dogs", "bark"] .nothing).inside.numberedSplits
          (Sample.Exact.fine.grammar.byParent.rules 1) 0 2) ∧
      ((Sample.Exact.fine.pass ["dogs", "bark"] .nothing).inside.built 1 0 2).score =
        .finite (-89 / 24) ∧
      (Sample.Exact.fine.pass ["dogs", "bark"] .nothing).inside =
        (Sample.Exact.fine.pass ["dogs", "bark"] .nothing).insideOfAll := by
  obtain ⟨cells, same, -⟩ :=
    @skipping_loses_nothing _ _ _ (Sample.Exact.fine.pass ["dogs", "bark"] .nothing)
      Model.isBuilt_sample_fine Model.nonpositive_sample_fine
  obtain ⟨-, first, -⟩ := cells 1 (by decide +kernel) 0 2 (by decide) (by decide)
  exact ⟨first (by decide) rfl, by decide +kernel, same⟩

end Pass

end ChartParsing
