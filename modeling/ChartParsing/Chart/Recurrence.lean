import Mathlib.Data.List.Basic
import ChartParsing.Chart.Outside

/-!
# The recurrences of charts

A chart is filled row by row, and each cell is computed while the later rows are
missing.  This module removes the row order: every cell of a finished chart is
given by one equation in terms of the finished chart itself.

`Pass.built_inside` and `Pass.closed_inside` state this for inside charts,
`Model.closed_outside` and `Model.built_outside` for outside charts.
-/

namespace ChartParsing

theorem mem_middles {start middle stop : Nat} :
    middle ∈ middles start stop ↔ start < middle ∧ middle < stop := by
  rw [middles, List.mem_range'_1]
  omega

theorem mem_widerStops {length stop right : Nat} (bounded : stop ≤ length) :
    right ∈ widerStops length stop ↔ stop < right ∧ right ≤ length := by
  rw [widerStops, List.mem_map]
  constructor
  · rintro ⟨beyond, inside, rfl⟩
    have before := List.mem_range.mp inside
    omega
  · rintro ⟨after, within⟩
    exact ⟨length - right, List.mem_range.mpr (by omega), Nat.sub_sub_self within⟩

variable {σ : Type} [Score σ]

/-! ## Inside charts -/

namespace InsideChart

/-- Over a span, only the closed cells of narrower spans matter for what a rule
builds. -/
theorem offerSplits_congr {chart other : InsideChart σ} {start stop : Nat}
    (agree : ∀ label left right, start ≤ left → left < right → right ≤ stop →
      right - left < stop - start →
      chart.closed label left right = other.closed label left right)
    (best : Best σ (Construction σ)) (rule : BinaryRule σ) :
    chart.offerSplits start stop best rule =
      other.offerSplits start stop best rule := by
  unfold offerSplits
  apply List.foldl_ext
  intro best middle member
  obtain ⟨after, before⟩ := mem_middles.mp member
  rw [agree rule.left start middle (Nat.le_refl _) after (Nat.le_of_lt before)
      (by omega),
    agree rule.right middle stop (Nat.le_of_lt after) before (Nat.le_refl _)
      (by omega)]

theorem bestSplit_congr {chart other : InsideChart σ} {start stop : Nat}
    (agree : ∀ label left right, start ≤ left → left < right → right ≤ stop →
      right - left < stop - start →
      chart.closed label left right = other.closed label left right)
    (grammar : Grammar σ) (label : LabelId) :
    chart.bestSplit grammar label start stop =
      other.bestSplit grammar label start stop := by
  unfold bestSplit
  exact List.foldl_ext _ _ _ fun best rule _ => offerSplits_congr agree best rule

end InsideChart

namespace Pass

variable (pass : Pass σ)

/-- The chart of the spans of at most `rows` words. -/
def insideRows (rows : Nat) : InsideChart σ :=
  ⟨Rows.fill (fun row => pass.length - row)
    (fun narrower row start =>
      pass.spanCells ⟨narrower⟩ start (start + row + 1))
    rows⟩

theorem inside_eq_insideRows : pass.inside = pass.insideRows pass.length :=
  rfl

/-- The cells of a span are computed from the chart of narrower spans. -/
theorem span_insideRows {rows start stop : Nat} (nonempty : start < stop)
    (filled : stop - start ≤ rows) (bounded : stop ≤ pass.length) :
    (pass.insideRows rows).span start stop =
      pass.spanCells (pass.insideRows (stop - start - 1)) start stop := by
  have row : stop - start - 1 < rows := by omega
  have column : start < pass.length - (stop - start - 1) := by omega
  have width : start + (stop - start - 1) + 1 = stop := by omega
  unfold InsideChart.span insideRows
  rw [Rows.getD_fill _ _ _ row column, width]

/-- The cells of a span are the same in every chart that has its row. -/
theorem span_insideRows_eq_inside {rows start stop : Nat}
    (nonempty : start < stop) (filled : stop - start ≤ rows)
    (bounded : stop ≤ pass.length) :
    (pass.insideRows rows).span start stop = pass.inside.span start stop := by
  rw [inside_eq_insideRows, pass.span_insideRows nonempty filled bounded,
    pass.span_insideRows nonempty (by omega) bounded]

/-- Filling a built cell asks for narrower spans only. -/
theorem builtCell_insideRows (label : LabelId) {start stop : Nat}
    (bounded : stop ≤ pass.length) :
    pass.builtCell (pass.insideRows (stop - start - 1)) label start stop =
      pass.builtCell pass.inside label start stop := by
  unfold builtCell
  split
  · rfl
  · split
    · rfl
    · apply InsideChart.bestSplit_congr
      intro label left right after between before narrower
      unfold InsideChart.closed
      rw [pass.span_insideRows_eq_inside between (by omega) (by omega)]

/-- The built cell of a label over a span, in terms of the closed cells of
narrower spans. -/
theorem built_inside {label : LabelId} {start stop : Nat}
    (nonempty : start < stop) (bounded : stop ≤ pass.length)
    (known : label < pass.model.grammar.labels.size) :
    pass.inside.built label start stop =
      pass.builtCell pass.inside label start stop := by
  rw [← pass.builtCell_insideRows label bounded]
  unfold InsideChart.built
  rw [inside_eq_insideRows, pass.span_insideRows nonempty (by omega) bounded]
  simp [spanCells, known]

/-- The built cells of a span, by label. -/
def builtCells (start stop : Nat) : Array (Best σ (Construction σ)) :=
  Array.ofFn fun label : Fin pass.model.grammar.labels.size =>
    pass.inside.built label start stop

/-- The closed cell of a label over a span, in terms of the built cells of the
same span. -/
theorem closed_inside {label : LabelId} {start stop : Nat}
    (nonempty : start < stop) (bounded : stop ≤ pass.length)
    (known : label < pass.model.grammar.labels.size) :
    pass.inside.closed label start stop =
      pass.closedCell (pass.builtCells start stop) label start stop := by
  have same :
      (Array.ofFn fun label : Fin pass.model.grammar.labels.size =>
        pass.builtCell (pass.insideRows (stop - start - 1)) label start stop) =
        pass.builtCells start stop := by
    refine congrArg Array.ofFn (funext fun label => ?_)
    rw [pass.builtCell_insideRows label bounded,
      pass.built_inside nonempty bounded label.isLt]
  unfold InsideChart.closed
  rw [inside_eq_insideRows, pass.span_insideRows nonempty (by omega) bounded]
  simp [spanCells, known, same]

end Pass

/-! ## Outside charts -/

namespace OutsideChart

/-- Over a span, only the contexts of wider spans matter for the context of a
closed constituent. -/
theorem bestContext_congr {length : Nat} {wider other : Rows (ContextCells σ)}
    {start stop : Nat} (nonempty : start < stop) (bounded : stop ≤ length)
    (agree : ∀ left right, left ≤ start → stop ≤ right → right ≤ length →
      stop - start < right - left →
      (⟨length, wider⟩ : OutsideChart σ).span left right =
        (⟨length, other⟩ : OutsideChart σ).span left right)
    (grammar : Grammar σ) (inside : InsideChart σ) (label : LabelId) :
    (⟨length, wider⟩ : OutsideChart σ).bestContext grammar inside label start
        stop =
      (⟨length, other⟩ : OutsideChart σ).bestContext grammar inside label start
        stop := by
  unfold bestContext
  apply Eq.trans
  · apply List.foldl_ext
    intro best rule _
    apply List.foldl_ext
    intro best right member
    rcases (mem_widerStops bounded).mp member with ⟨after, within⟩
    unfold score
    rw [agree start right (Nat.le_refl _) (by omega) within (by omega)]
  · refine congrArg (List.foldl _ · _) ?_
    apply List.foldl_ext
    intro best rule _
    apply List.foldl_ext
    intro best left member
    have before := List.mem_range.mp member
    unfold score
    rw [agree left stop (by omega) (Nat.le_refl _) bounded (by omega)]

end OutsideChart

namespace Model

variable (model : Model σ) (length : Nat) (inside : InsideChart σ)

/-- The outside chart of the spans that leave out fewer than `rows` words. -/
def outsideRows (rows : Nat) : OutsideChart σ where
  length := length
  cells :=
    Rows.fill (fun missing => missing + 1)
      (fun wider missing start =>
        OutsideChart.contextCells ⟨length, wider⟩ model inside start
          (start + (length - missing)))
      rows

theorem outside_eq_outsideRows :
    model.outside length inside = model.outsideRows length inside length :=
  rfl

/-- The contexts of a span are computed from the chart of wider spans. -/
theorem span_outsideRows {rows start stop : Nat} (nonempty : start < stop)
    (filled : length - (stop - start) < rows) (bounded : stop ≤ length) :
    (model.outsideRows length inside rows).span start stop =
      (model.outsideRows length inside (length - (stop - start))).contextCells
        model inside start stop := by
  have column : start < length - (stop - start) + 1 := by omega
  have width : start + (length - (length - (stop - start))) = stop := by omega
  unfold OutsideChart.span outsideRows
  rw [Rows.getD_fill _ _ _ filled column, width]

/-- The contexts of a span are the same in every chart that has its row. -/
theorem span_outsideRows_eq_outside {rows start stop : Nat}
    (nonempty : start < stop) (filled : length - (stop - start) < rows)
    (bounded : stop ≤ length) :
    (model.outsideRows length inside rows).span start stop =
      (model.outside length inside).span start stop := by
  rw [outside_eq_outsideRows,
    model.span_outsideRows length inside nonempty filled bounded,
    model.span_outsideRows length inside nonempty (by omega) bounded]

/-- The contexts of the closed constituents of a span, by label, in terms of the
contexts of wider spans. -/
theorem closed_contextCells {start stop : Nat} (nonempty : start < stop)
    (bounded : stop ≤ length) :
    ((model.outside length inside).span start stop).closed =
      Array.ofFn fun label : Fin model.grammar.labels.size =>
        if stop - start = length then
          if label.val = model.grammar.root then 0 else impossible
        else
          (model.outside length inside).bestContext model.grammar inside label
            start stop := by
  rw [outside_eq_outsideRows,
    model.span_outsideRows length inside nonempty (by omega) bounded]
  unfold OutsideChart.contextCells
  refine congrArg Array.ofFn (funext fun label => ?_)
  change (if stop - start = length then _ else _) = _
  split
  · rfl
  · apply OutsideChart.bestContext_congr nonempty bounded
    intro left right before after within wider
    exact model.span_outsideRows_eq_outside length inside (by omega) (by omega)
      within

/-- The context of a closed constituent, in terms of the contexts of wider spans;
over the whole sentence only the root has one. -/
theorem closed_outside {label : LabelId} {start stop : Nat}
    (nonempty : start < stop) (bounded : stop ≤ length)
    (known : label < model.grammar.labels.size) :
    (model.outside length inside).score .closed label start stop =
      if stop - start = length then
        if label = model.grammar.root then 0 else impossible
      else
        (model.outside length inside).bestContext model.grammar inside label start
          stop := by
  unfold OutsideChart.score ContextCells.score
  rw [model.closed_contextCells length inside nonempty bounded]
  simp [known]

/-- The context of a built constituent, in terms of those of the closed
constituents over the same span. -/
theorem built_outside {label : LabelId} {start stop : Nat}
    (nonempty : start < stop) (bounded : stop ≤ length)
    (known : label < model.grammar.labels.size) :
    (model.outside length inside).score .built label start stop =
      OutsideChart.bestOpening model.closure
        ((model.outside length inside).span start stop).closed label := by
  unfold OutsideChart.score ContextCells.score
  rw [outside_eq_outsideRows,
    model.span_outsideRows length inside nonempty (by omega) bounded]
  simp [OutsideChart.contextCells, known]

end Model

end ChartParsing
