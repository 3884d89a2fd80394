import ChartParsing.Proofs.Unary.Chain
import ChartParsing.Unary.Reach

/-!
# Relaxation

Following rules from a source keeps an invariant: the source stays at score zero,
and every other label that has been reached has a predecessor, from which a rule
leads to it at no better a score than following the rule would give now.  Once no
rule improves anything the two scores agree, and so walking back over the
predecessors reads off a chain whose score is that of the label
(`Reach.leads_of_path?`).  At that point no chain of any length beats the score of
the label it leads to (`Reach.score_add_le_of_leads`).
-/

namespace ChartParsing

/-- A round follows the rules that are no loops. -/
theorem UnaryRule.mem_roundOrder {σ : Type} {rules : List (UnaryRule σ)}
    {rule : UnaryRule σ} :
    rule ∈ roundOrder rules ↔ rule ∈ rules ∧ rule.isLoop = false := by
  simp only [roundOrder, List.mem_flatMap, List.mem_eraseDups, List.mem_reverse,
    List.mem_filter, beq_iff_eq, Bool.not_eq_true']
  constructor
  · rintro ⟨label, -, proper, -⟩
    exact proper
  · intro proper
    exact ⟨rule.parent, ⟨rule, proper, List.mem_cons_self⟩, proper, rfl⟩

namespace Reach

variable {σ : Type} [Score σ]

/-! ## One step -/

/-- A label's cell changes only where a rule improves it. -/
theorem getD_follow (reach : Reach σ) (rule : UnaryRule σ) (label : LabelId) :
    (reach.follow rule).getD label Best.empty =
      if rule.child = label ∧ label < reach.size ∧
          reach.score label < reach.scoreBy rule then
        ⟨reach.scoreBy rule, some rule.parent⟩
      else reach.getD label Best.empty := by
  unfold follow
  simp only [Array.getD_eq_getD_getElem?, Array.getElem?_modify]
  by_cases same : rule.child = label
  · by_cases inside : label < reach.size
    · simp [same, inside, Best.offer, score]
    · simp [same, inside]
  · simp [same]

@[simp]
theorem size_follow (reach : Reach σ) (rule : UnaryRule σ) :
    (reach.follow rule).size = reach.size :=
  Array.size_modify

theorem getD_start (count : Nat) (source label : LabelId) :
    (start count source : Reach σ).getD label Best.empty =
      if source = label ∧ label < count then ⟨0, none⟩ else Best.empty := by
  unfold start
  simp only [Array.getD_eq_getD_getElem?, Array.getElem?_setIfInBounds,
    Array.size_replicate, Array.getElem?_replicate]
  by_cases same : source = label
  · by_cases inside : label < count
    · simp [same, inside]
    · simp [same, inside]
  · by_cases inside : label < count
    · simp [same, inside]
    · simp [same, inside]

/-! ## The invariant -/

/-- What is known of the labels that have been reached from a source by following
rules. -/
structure Sound (rules : List (UnaryRule σ)) (source : LabelId) (reach : Reach σ) :
    Prop where
  inside : source < reach.size
  nonpos : ∀ label, reach.score label ≤ 0
  sourceScore : reach.score source = 0
  /-- A predecessor leads to its label by a rule that scores no worse. -/
  traced : ∀ label previous, reach.predecessor? label = some previous →
    ∃ rule ∈ rules, rule.parent = previous ∧ rule.child = label ∧
      reach.score label ≤ reach.scoreBy rule
  /-- A label without a predecessor has not been reached. -/
  rooted : ∀ label, label ≠ source → reach.predecessor? label = none →
    reach.score label = impossible

variable {rules : List (UnaryRule σ)} {source : LabelId} {reach : Reach σ}

namespace Sound

variable [Score.Lawful σ]

theorem scoreBy_nonpos (sound : Sound rules source reach) {rule : UnaryRule σ}
    (nonpos : rule.score ≤ 0) : reach.scoreBy rule ≤ 0 :=
  Score.add_nonpos (sound.nonpos rule.parent) nonpos

theorem score_follow_nonpos (sound : Sound rules source reach) {rule : UnaryRule σ}
    (nonpos : rule.score ≤ 0) (label : LabelId) :
    (reach.follow rule).score label ≤ 0 := by
  rw [score, getD_follow]
  split
  · exact sound.scoreBy_nonpos nonpos
  · exact sound.nonpos label

/-- Following a rule makes no label's score worse. -/
theorem le_score_follow (sound : Sound rules source reach) {rule : UnaryRule σ}
    (nonpos : rule.score ≤ 0) (label : LabelId) :
    reach.score label ≤ (reach.follow rule).score label := by
  unfold score
  rw [getD_follow]
  split
  · rename_i improved
    exact Score.le_of_lt (sound.nonpos label) (sound.scoreBy_nonpos nonpos) improved.2.2
  · exact Score.le_refl (sound.nonpos label)

/-- Nothing is reached at first but the source. -/
theorem start {count : Nat} (inside : source < count) :
    Sound rules source (Reach.start count source : Reach σ) := by
  constructor
  case inside => simpa [Reach.start] using inside
  case nonpos =>
    intro label
    rw [score, getD_start]
    split
    · exact Score.Lawful.zero_nonpos
    · exact Score.impossible_nonpos
  case sourceScore =>
    rw [score, getD_start, if_pos ⟨rfl, inside⟩]
  case traced =>
    intro label previous found
    unfold predecessor? at found
    rw [getD_start] at found
    split at found <;> cases found
  case rooted =>
    intro label different _
    rw [score, getD_start, if_neg fun same => different same.1.symm]
    rfl

/-- Following a rule keeps the invariant. -/
theorem follow (sound : Sound rules source reach) {rule : UnaryRule σ}
    (member : rule ∈ rules) (nonpos : ∀ rule ∈ rules, rule.score ≤ 0) :
    Sound rules source (reach.follow rule) := by
  have ruleNonpos := nonpos rule member
  have scoreBy_le {other : UnaryRule σ} (otherMember : other ∈ rules) :
      reach.scoreBy other ≤ (reach.follow rule).scoreBy other := by
    have otherNonpos := nonpos other otherMember
    exact Score.Lawful.add_le_add (sound.score_follow_nonpos ruleNonpos other.parent)
      otherNonpos (sound.le_score_follow ruleNonpos other.parent)
      (Score.le_refl otherNonpos)
  constructor
  case inside =>
    rw [size_follow]
    exact sound.inside
  case nonpos => exact sound.score_follow_nonpos ruleNonpos
  case sourceScore =>
    -- No score is above that of the source, so that it is never improved.
    have unimproved : ¬reach.score source < reach.scoreBy rule := by
      rw [sound.sourceScore]
      exact Score.not_pos_of_nonpos (sound.scoreBy_nonpos ruleNonpos)
    rw [score, getD_follow, if_neg fun improved => unimproved improved.2.2]
    exact sound.sourceScore
  case traced =>
    intro label previous found
    unfold predecessor? at found
    unfold score
    rw [getD_follow] at found ⊢
    split at found
    · rename_i improved
      obtain rfl := Option.some.inj found
      rw [if_pos improved]
      exact ⟨rule, member, rfl, improved.1, scoreBy_le member⟩
    · rename_i kept
      obtain ⟨other, otherMember, parent, child, le⟩ := sound.traced label previous found
      rw [if_neg kept]
      exact ⟨other, otherMember, parent, child,
        Score.Lawful.le_trans le (scoreBy_le otherMember)⟩
  case rooted =>
    intro label different absent
    unfold predecessor? at absent
    unfold score
    rw [getD_follow] at absent ⊢
    split at absent
    · cases absent
    · rename_i kept
      rw [if_neg kept]
      exact sound.rooted label different absent

theorem followAll (sound : Sound rules source reach)
    (nonpos : ∀ rule ∈ rules, rule.score ≤ 0) {followed : List (UnaryRule σ)}
    (included : followed ⊆ rules) :
    Sound rules source (reach.followAll followed) := by
  induction followed generalizing reach with
  | nil => exact sound
  | cons rule rest inductionHypothesis =>
      have first := sound.follow (included List.mem_cons_self) nonpos
      exact inductionHypothesis first fun _ member =>
        included (List.mem_cons_of_mem rule member)

theorem settle (sound : Sound rules source reach)
    (nonpos : ∀ rule ∈ rules, rule.score ≤ 0) (rounds : Nat) :
    Sound rules source (Reach.settle rules rounds reach) := by
  induction rounds generalizing reach with
  | zero => exact sound
  | succ rounds inductionHypothesis =>
      unfold Reach.settle
      split
      · exact sound
      · exact inductionHypothesis (sound.followAll nonpos (List.Subset.refl rules))

end Sound

/-- The invariant holds of all that a source reaches. -/
theorem sound_best [Score.Lawful σ] {count : Nat} (inside : source < count)
    (nonpos : ∀ rule ∈ rules, rule.score ≤ 0) :
    Sound rules source (best rules count source) :=
  (Sound.start inside).settle nonpos count

/-! ## Settled scores -/

theorem scoreBy_le_of_isSettled [Score.Lawful σ] (sound : Sound rules source reach)
    (settled : reach.isSettled rules = true)
    (nonpos : ∀ rule ∈ rules, rule.score ≤ 0) {rule : UnaryRule σ}
    (member : rule ∈ rules) : reach.scoreBy rule ≤ reach.score rule.child := by
  have unimproved : ¬reach.score rule.child < reach.scoreBy rule := by
    simpa using List.all_eq_true.mp settled rule member
  exact (Score.not_lt_iff_le (sound.nonpos rule.child)
    (sound.scoreBy_nonpos (nonpos rule member))).mp unimproved

/-- Loops are left out of the rounds, but they improve nothing either. -/
theorem scoreBy_le_of_isSettled_roundOrder [Score.Lawful σ]
    (sound : Sound (UnaryRule.roundOrder rules) source reach)
    (settled : reach.isSettled (UnaryRule.roundOrder rules) = true)
    (nonpos : ∀ rule ∈ rules, rule.score ≤ 0) {rule : UnaryRule σ}
    (member : rule ∈ rules) : reach.scoreBy rule ≤ reach.score rule.child := by
  cases loop : rule.isLoop with
  | true =>
      have same : rule.parent = rule.child := eq_of_beq loop
      rw [scoreBy, ← same]
      exact Score.add_le_left (sound.nonpos rule.parent) (nonpos rule member)
  | false =>
      exact scoreBy_le_of_isSettled sound settled
        (fun rule member => nonpos rule (UnaryRule.mem_roundOrder.mp member).1)
        (UnaryRule.mem_roundOrder.mpr ⟨member, loop⟩)

/-! ## Exact scores -/

variable {rules : List (UnaryRule ExactScore)} {source : LabelId}
  {reach : Reach ExactScore}

/-- Where no rule improves anything, no chain does. -/
theorem score_add_le_of_leads (nonpos : ∀ label, reach.score label ≤ 0)
    (settled : ∀ rule ∈ rules, reach.scoreBy rule ≤ reach.score rule.child)
    (rulesNonpos : ∀ rule ∈ rules, rule.score ≤ 0) {first last : LabelId}
    {path : List LabelId} {score : ExactScore}
    (leads : UnaryRule.Leads rules first last path score) :
    reach.score first + score ≤ reach.score last := by
  induction leads with
  | stay label =>
      rw [add_zero]
      exact ExactScore.le_refl (nonpos label)
  | @step rule last path score member rest inductionHypothesis =>
      have restNonpos := rest.nonpos rulesNonpos
      calc
        reach.score rule.parent + (rule.score + score)
        _ = reach.scoreBy rule + score := (add_assoc _ _ _).symm
        _ ≤ reach.score rule.child + score :=
          ExactScore.add_le_add (nonpos rule.child) restNonpos (settled rule member)
            (ExactScore.le_refl restNonpos)
        _ ≤ reach.score last := inductionHypothesis

/-- Walking back reads off a chain that ends as it is to be continued. -/
theorem leads_of_walkBack (sound : Sound rules source reach)
    (settled : reach.isSettled rules = true)
    (rulesNonpos : ∀ rule ∈ rules, rule.score ≤ 0) {steps : Nat}
    {label target : LabelId} {tail path : List LabelId} {below : ExactScore}
    (walked : reach.walkBack source steps label tail = some path)
    (leads : UnaryRule.Leads rules label target (label :: tail) below) :
    UnaryRule.Leads rules source target path (reach.score label + below) := by
  fun_induction reach.walkBack source steps label tail generalizing below with
  | case1 steps tail =>
      obtain rfl := Option.some.inj walked
      rw [sound.sourceScore, zero_add]
      exact leads
  | case2 label tail distant steps previous found inductionHypothesis =>
      rcases sound.traced label previous found with ⟨rule, member, rfl, rfl, le⟩
      have same : reach.score rule.child = reach.scoreBy rule :=
        ExactScore.le_antisymm le
          (scoreBy_le_of_isSettled sound settled rulesNonpos member)
      have earlier := inductionHypothesis walked (.step member leads)
      rw [same]
      rw [scoreBy, add_assoc]
      exact earlier
  | case3 => cases walked

/-- The path of a label is that of a chain from the source at the label's
score. -/
theorem leads_of_path? (sound : Sound rules source reach)
    (settled : reach.isSettled rules = true)
    (rulesNonpos : ∀ rule ∈ rules, rule.score ≤ 0) {label : LabelId}
    {path : List LabelId} (found : reach.path? source label = some path) :
    UnaryRule.Leads rules source label path (reach.score label) := by
  rw [← add_zero (reach.score label)]
  exact leads_of_walkBack sound settled rulesNonpos found (.stay label)

end Reach

end ChartParsing
