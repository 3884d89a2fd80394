import ChartParsing.Proofs.Chart.Constituent
import ChartParsing.Proofs.Chart.Extraction

/-!
# Inside scores are those of the best constituents

No constituent beats the cell it would go into (`Pass.Admits.score_le`), by
induction on the constituent.  Conversely, the choices kept in a cell that is not
impossible lead to a constituent with the score of the cell
(`Pass.exists_derivation`), by induction on the width of its span.  Together they
make every cell of a chart the best of the constituents that the pass admits there,
whatever it prunes.
-/

namespace ChartParsing

/-! ## Closing by a chain -/

section

variable {grammar : Grammar ExactScore} {closure : UnaryClosure ExactScore}
  {built : Array (Best ExactScore (Construction ExactScore))} {label base : LabelId}

/-- A way to close a label is by a chain of rules. -/
theorem exists_leads_of_mem_closings (faithful : closure.Faithful grammar)
    (known : label < grammar.labels.size) {closing : Closing ExactScore}
    {score : ExactScore} (member : (score, closing) ∈ InsideChart.closings closure built label) :
    ∃ path chain,
      UnaryRule.Leads grammar.unary label (closing.base label) path chain ∧
        path.dropLast = closing.above ∧
        score = chain + (built.getD (closing.base label) Best.empty).score := by
  rcases member with ⟨⟨number, chain⟩, listed, same⟩ | ⟨-, same⟩
  · rcases Prod.mk.inj same with ⟨rfl, rfl⟩
    rcases (faithful.exists_mem_byParent known).mp ⟨number, listed⟩ with ⟨kept, rfl⟩
    exact ⟨chain.path, chain.score, faithful.leads chain kept, rfl, rfl⟩
  · rcases Prod.mk.inj same with ⟨rfl, rfl⟩
    exact ⟨[label], 0, .stay label, rfl, (zero_add _).symm⟩

/-- No chain of rules is better than all ways to close a label. -/
theorem exists_closing_of_leads (wellFormed : grammar.WellFormed)
    (faithful : closure.Faithful grammar) (known : label < grammar.labels.size)
    (nonpos : (built.getD base Best.empty).score ≤ 0) {path : List LabelId}
    {chain : ExactScore} (leads : UnaryRule.Leads grammar.unary label base path chain) :
    ∃ offer ∈ InsideChart.closings closure built label,
      chain + (built.getD base Best.empty).score ≤ offer.1 := by
  rcases faithful.exists_chain_or_no_loop wellFormed leads with
    ⟨found, member, parent, rfl, better⟩ | ⟨rfl, noLoop⟩
  · rcases (faithful.exists_mem_byParent known).mpr ⟨member, parent⟩ with ⟨number, listed⟩
    have le := ExactScore.add_le_add (faithful.nonpos wellFormed member) nonpos better
      (ExactScore.le_refl nonpos)
    exact ⟨_, Or.inl ⟨(number, found), listed, rfl⟩, le⟩
  · have unlooped : (closure.byParent.chains label).any (·.2.isReflexive) = false := by
      rw [List.any_eq_false]
      rintro ⟨number, found⟩ listed
      rcases (faithful.exists_mem_byParent known).mp ⟨number, listed⟩ with ⟨member, parent⟩
      simp [noLoop found member parent]
    have chainNonpos := leads.nonpos fun _ member => wellFormed.unary_nonpos member
    exact ⟨_, Or.inr ⟨unlooped, rfl⟩, Score.add_le_right chainNonpos nonpos⟩

end

namespace Pass

/-- The score of the root cell over the whole sentence. -/
def total {σ : Type} [Score σ] (pass : Pass σ) : σ :=
  pass.inside.score .closed pass.model.grammar.root 0 pass.length

variable {pass : Pass ExactScore} {label : LabelId} {start stop : Nat}
  {tree : Tree String} {score : ExactScore}

/-! ## What a cell is not beaten by -/

/-- A pass of a sound model meets no positive score if its tags are not positive. -/
theorem nonpositive_of_sound (sound : pass.model.Sound)
    (tags : ∀ label < pass.model.grammar.labels.size, ∀ start < pass.length,
      pass.pruned .built label start (start + 1) = false →
      pass.model.tagScore (pass.words.getD start "")
        (pass.model.grammar.labels.name label) ≤ 0) : pass.Nonpositive where
  rules _ known _ member := sound.grammar.parts_of_mem_byParent known member
  chains label known entry member := by
    rcases (sound.closure.exists_mem_byParent known).mp ⟨_, member⟩ with ⟨listed, -⟩
    exact ⟨(sound.closure.known entry.2 listed).2, sound.closure.nonpos sound.grammar listed⟩
  tags := tags

namespace Admits

variable {stage : Stage} (sound : pass.model.Sound) (nonpositive : pass.Nonpositive)

include sound nonpositive

theorem inside_nonpos (admits : pass.Admits stage label start stop tree score) :
    pass.inside.score stage label start stop ≤ 0 :=
  score_nonpos nonpositive admits.bounds.1 admits.bounds.2 (admits.known sound.grammar) stage

/-- No constituent beats the cell that it would go into. -/
theorem score_le (admits : pass.Admits stage label start stop tree score) :
    score ≤ pass.inside.score stage label start stop := by
  have cellNonpos {stage : Stage} {label : LabelId} {start stop : Nat}
      {tree : Tree String} {score : ExactScore}
      (admits : pass.Admits stage label start stop tree score) :=
    admits.inside_nonpos sound nonpositive
  induction admits with
  | @word label start word known found kept =>
      rcases List.getElem?_eq_some_iff.mp found with ⟨inside, rfl⟩
      have best := isBestOf_word nonpositive known inside kept
      rw [List.getD_eq_getElem _ _ inside] at best
      exact best.bound _ rfl
  | @split rule start middle stop left right leftScore rightScore member kept leftAdmits
      rightAdmits leftHypothesis rightHypothesis =>
      rcases leftAdmits.bounds with ⟨after, -⟩
      rcases rightAdmits.bounds with ⟨before, bounded⟩
      have known := (sound.grammar.binaryKnown rule member).1
      have best := isBestOf_split nonpositive known (by omega) bounded kept
      have ruleNonpos := sound.grammar.binary_nonpos member
      calc
        rule.score + leftScore + rightScore
        _ ≤ rule.score + pass.inside.score .closed rule.left start middle +
              pass.inside.score .closed rule.right middle stop :=
          Score.add_add_le_add_add ruleNonpos (cellNonpos leftAdmits)
            (cellNonpos rightAdmits) leftHypothesis rightHypothesis
        _ ≤ pass.inside.score .built rule.parent start stop :=
          best.bound (pass.inside.candidate start stop rule middle)
            ⟨rule, (sound.grammar.mem_byParent known).mpr ⟨member, rfl⟩, middle,
              mem_middles.mpr ⟨after, before⟩, rfl⟩
  | @close label base start stop path tree chain score known kept leads below
      inductionHypothesis =>
      rcases below.bounds with ⟨nonempty, bounded⟩
      have best := isBestOf_closed nonpositive known nonempty bounded kept
      have chainNonpos := leads.nonpos fun _ member => sound.grammar.unary_nonpos member
      have sameCell : ((pass.builtCells start stop).getD base Best.empty).score =
          pass.inside.score .built base start stop :=
        congrArg Best.score (getD_builtCells (below.known sound.grammar))
      obtain ⟨offer, member, le⟩ := exists_closing_of_leads sound.grammar sound.closure
        known (sameCell ▸ cellNonpos below) leads
      calc
        chain + score
        _ ≤ chain + pass.inside.score .built base start stop :=
          ExactScore.add_le_add chainNonpos (cellNonpos below)
            (ExactScore.le_refl chainNonpos) inductionHypothesis
        _ ≤ offer.1 := by
          rw [← sameCell]
          exact le
        _ ≤ pass.inside.score .closed label start stop := best.bound offer member

end Admits

/-! ## What the choices lead to -/

/-- The derivation of a label over a span that the built cell and those below it have
chosen, if none of them is empty. -/
def builtDerivation? (pass : Pass ExactScore) (label : LabelId) (start stop : Nat) :
    Option (Tree String) :=
  match (pass.inside.built label start stop).choice with
  | none => none
  | some .word =>
      some (.node (pass.model.grammar.labels.name label)
        [.leaf (pass.words.getD start "")])
  | some (.split rule middle) =>
      if start < middle ∧ middle < stop then do
        let left ← pass.derivation? pass.inside rule.left start middle
        let right ← pass.derivation? pass.inside rule.right middle stop
        return .node (pass.model.grammar.labels.name label) [left, right]
      else none

/-- A derivation puts the chosen chain on top of the derivation below it. -/
theorem derivation?_of_choice {closing : Closing ExactScore}
    (chosen : (pass.inside.closed label start stop).choice = some closing) :
    pass.derivation? pass.inside label start stop =
      (pass.builtDerivation? (closing.base label) start stop).map
        (Tree.under (closing.above.map pass.model.grammar.labels.name)) := by
  rw [builtDerivation?, derivation?, chosen]
  dsimp only
  cases (pass.inside.built (closing.base label) start stop).choice with
  | none => rfl
  | some construction =>
      cases construction with
      | word => rfl
      | split rule middle =>
          dsimp only
          split
          · cases pass.derivation? pass.inside rule.left start middle with
            | none => rfl
            | some left =>
                cases pass.derivation? pass.inside rule.right middle stop <;> rfl
          · rfl

/-- What holds of a closed cell: if it is not impossible, the choices below it make
up a constituent with its score. -/
def Extracts (pass : Pass ExactScore) (label : LabelId) (start stop : Nat) : Prop :=
  pass.inside.score .closed label start stop ≠ impossible →
    ∃ tree, pass.derivation? pass.inside label start stop = some tree ∧
      pass.Admits .closed label start stop tree
        (pass.inside.score .closed label start stop)

section

variable (sound : pass.model.Sound) (nonpositive : pass.Nonpositive)

include sound nonpositive

/-- A built cell leads to a constituent if the closed cells of narrower spans do. -/
theorem exists_builtDerivation (nonempty : start < stop) (bounded : stop ≤ pass.length)
    (known : label < pass.model.grammar.labels.size)
    (narrower : ∀ label < pass.model.grammar.labels.size, ∀ left right, left < right →
      right ≤ pass.length → right - left < stop - start → pass.Extracts label left right)
    (possible : pass.inside.score .built label start stop ≠ impossible) :
    ∃ tree, pass.builtDerivation? label start stop = some tree ∧
      pass.Admits .built label start stop tree
        (pass.inside.score .built label start stop) := by
  have kept := kept_of_possible known nonempty bounded possible
  obtain ⟨construction, chosen, holds⟩ :=
    exists_construction nonpositive nonempty bounded known possible
  rw [builtDerivation?, chosen]
  cases holds with
  | word single same =>
      subst single
      have found : pass.words[start]? = some (pass.words.getD start "") := by
        rw [List.getD_eq_getElem _ _ bounded]
        exact List.getElem?_eq_getElem bounded
      rw [same]
      exact ⟨_, rfl, .word known found kept⟩
  | split listed after before leftKnown rightKnown leftPossible rightPossible same =>
      rcases (sound.grammar.mem_byParent known).mp listed with ⟨member, rfl⟩
      obtain ⟨left, leftFound, leftAdmits⟩ :=
        narrower _ leftKnown _ _ after (by omega) (by omega) leftPossible
      obtain ⟨right, rightFound, rightAdmits⟩ :=
        narrower _ rightKnown _ _ before bounded (by omega) rightPossible
      dsimp only
      rw [if_pos ⟨after, before⟩, leftFound, rightFound, same]
      exact ⟨_, rfl, .split member kept leftAdmits rightAdmits⟩

/-- A closed cell leads to a constituent if those of narrower spans do. -/
theorem extracts_of_narrower (nonempty : start < stop) (bounded : stop ≤ pass.length)
    (known : label < pass.model.grammar.labels.size)
    (narrower : ∀ label < pass.model.grammar.labels.size, ∀ left right, left < right →
      right ≤ pass.length → right - left < stop - start → pass.Extracts label left right) :
    pass.Extracts label start stop := by
  intro possible
  have kept := kept_of_possible known nonempty bounded possible
  obtain ⟨closing, chosen, offered, baseKnown, builtPossible⟩ :=
    exists_closing nonpositive nonempty bounded known possible
  obtain ⟨path, chain, leads, above, same⟩ :=
    exists_leads_of_mem_closings sound.closure known offered
  rw [getD_builtCells baseKnown] at same
  obtain ⟨tree, found, admits⟩ := exists_builtDerivation sound nonpositive nonempty bounded
    baseKnown narrower builtPossible
  refine ⟨_, by rw [derivation?_of_choice chosen, found]; rfl, ?_⟩
  rw [same, ← above]
  exact .close known kept leads admits

/-- Every closed cell that is not impossible leads to a constituent with its
score. -/
theorem exists_derivation (nonempty : start < stop) (bounded : stop ≤ pass.length)
    (known : label < pass.model.grammar.labels.size) : pass.Extracts label start stop := by
  induction width : stop - start using Nat.strong_induction_on generalizing label start stop
    with
  | _ width inductionHypothesis =>
    apply extracts_of_narrower sound nonpositive nonempty bounded known
    intro label known left right between within narrower
    exact inductionHypothesis _ (width ▸ narrower) between within known rfl

/-- The score of a cell is the best of its constituents' scores. -/
theorem isBestOf_admits (nonempty : start < stop) (bounded : stop ≤ pass.length)
    (known : label < pass.model.grammar.labels.size) (stage : Stage) :
    Score.IsBestOf {score | ∃ tree, pass.Admits stage label start stop tree score}
      (pass.inside.score stage label start stop) where
  nonpos := score_nonpos nonpositive nonempty bounded known stage
  bound := by
    rintro score ⟨tree, admits⟩
    exact admits.score_le sound nonpositive
  attained := by
    by_cases possible : pass.inside.score stage label start stop = impossible
    · exact Or.inl possible
    · right
      cases stage with
      | built =>
          obtain ⟨tree, -, admits⟩ := exists_builtDerivation sound nonpositive nonempty
            bounded known
            (fun label known left right between within _ =>
              exists_derivation sound nonpositive between within known)
            possible
          exact ⟨tree, admits⟩
      | closed =>
          obtain ⟨tree, -, admits⟩ :=
            exists_derivation sound nonpositive nonempty bounded known possible
          exact ⟨tree, admits⟩

end

end Pass

end ChartParsing
