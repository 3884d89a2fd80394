import Mathlib.Data.List.Nodup
import ChartParsing.Proofs.Unary.Relaxation

/-!
# Predecessors lead back to the source

A rule makes a label the predecessor of another only where this improves the other's
score, and no label scores better than its predecessor.  Going back from a label, the
scores therefore never get worse, so that no label is met twice and the way ends at the
source, even where rules go round in a cycle at score zero.  This is the invariant
`Reach.Grounded`, which every rule that is followed keeps (`Reach.Sound.grounded_follow`).

No more is used of scores than `Score.Lawful` asks for, which is that addition is monotone,
that adding zero raises no score, and that what is impossible stays so.
-/

namespace ChartParsing.Reach

variable {σ : Type} [Score σ] {rules : List (UnaryRule σ)} {source : LabelId}
  {reach : Reach σ}

/-! ## The way back to the source -/

/-- From a label the predecessors lead back to the source, over the labels of a path that
starts with the label and ends with the source. -/
inductive LeadsBack (reach : Reach σ) (source : LabelId) : LabelId → List LabelId → Prop
  | source : LeadsBack reach source source [source]
  | step {label previous : LabelId} {path : List LabelId} :
      label ≠ source → reach.predecessor? label = some previous →
      LeadsBack reach source previous path → LeadsBack reach source label (label :: path)

namespace LeadsBack

variable {label : LabelId} {path : List LabelId}

theorem path_ne_nil (back : LeadsBack reach source label path) : path ≠ [] := by
  cases back <;> exact List.cons_ne_nil _ _

/-- There is one way back at most. -/
theorem unique (back : LeadsBack reach source label path) {other : List LabelId}
    (otherBack : LeadsBack reach source label other) : path = other := by
  induction back generalizing other with
  | source =>
      cases otherBack with
      | source => rfl
      | step distant => exact absurd rfl distant
  | step distant found _ inductionHypothesis =>
      cases otherBack with
      | source => exact absurd rfl distant
      | step _ otherFound rest =>
          obtain rfl := Option.some.inj (found.symm.trans otherFound)
          rw [inductionHypothesis rest]

/-- The way back from a label on the way is the rest of the way. -/
theorem exists_suffix_of_mem (back : LeadsBack reach source label path)
    {earlier : LabelId} (member : earlier ∈ path) :
    ∃ rest, LeadsBack reach source earlier rest ∧ rest <:+ path := by
  induction back with
  | source =>
      obtain rfl := List.mem_singleton.mp member
      exact ⟨_, .source, List.suffix_rfl⟩
  | step distant found rest inductionHypothesis =>
      rcases List.mem_cons.mp member with rfl | later
      · exact ⟨_, .step distant found rest, List.suffix_rfl⟩
      · rcases inductionHypothesis later with ⟨remaining, remainingBack, isSuffix⟩
        exact ⟨remaining, remainingBack, isSuffix.trans (List.suffix_cons _ _)⟩

/-- No label is met twice on the way back. -/
theorem nodup (back : LeadsBack reach source label path) : path.Nodup := by
  induction back with
  | source => exact List.nodup_singleton source
  | @step label previous path distant found rest inductionHypothesis =>
      refine List.nodup_cons.mpr ⟨fun member => ?_, inductionHypothesis⟩
      rcases rest.exists_suffix_of_mem member with ⟨remaining, remainingBack, isSuffix⟩
      have same := remainingBack.unique (.step distant found rest)
      have shorter := isSuffix.length_le
      rw [same, List.length_cons] at shorter
      exact Nat.not_succ_le_self _ shorter

/-- Walking back finds the way if it may take enough steps. -/
theorem walkBack_eq (back : LeadsBack reach source label path) {steps : Nat}
    (enough : path.length ≤ steps + 1) (tail : List LabelId) :
    reach.walkBack source steps label tail = some (path.reverse ++ tail) := by
  induction back generalizing steps tail with
  | source =>
      unfold walkBack
      rw [if_pos rfl]
      rfl
  | @step label previous path distant found rest inductionHypothesis =>
      cases steps with
      | zero =>
          rw [List.length_cons, Nat.zero_add, Nat.succ_le_succ_iff, Nat.le_zero,
            List.length_eq_zero_iff] at enough
          exact absurd enough rest.path_ne_nil
      | succ steps =>
          unfold walkBack
          rw [if_neg distant, found]
          dsimp only
          rw [inductionHypothesis (Nat.le_of_succ_le_succ enough), List.reverse_cons,
            List.append_assoc, List.singleton_append]

/-- Every label on the way back but the first is the parent of a rule. -/
theorem eq_or_exists_rule (sound : Sound rules source reach)
    (back : LeadsBack reach source label path) {earlier : LabelId}
    (member : earlier ∈ path) : earlier = label ∨ ∃ rule ∈ rules, rule.parent = earlier := by
  induction back with
  | source => exact Or.inl (List.mem_singleton.mp member)
  | @step label previous path _ found _ inductionHypothesis =>
      rcases List.mem_cons.mp member with same | later
      · exact Or.inl same
      · rcases inductionHypothesis later with rfl | other
        · rcases sound.traced label earlier found with ⟨rule, ruleMember, parent, -⟩
          exact Or.inr ⟨rule, ruleMember, parent⟩
        · exact Or.inr other

end LeadsBack

/-! ## Following a rule -/

/-- A rule that improves nothing changes nothing. -/
theorem follow_of_not_lt {rule : UnaryRule σ}
    (unimproved : rule.child < reach.size → ¬reach.score rule.child < reach.scoreBy rule) :
    reach.follow rule = reach := by
  unfold follow
  apply Array.ext
  · exact Array.size_modify
  · intro label _ inside
    rw [Array.getElem_modify]
    split
    · rename_i same
      subst same
      have unimproved := unimproved inside
      rw [score, Array.getD_eq_getD_getElem?, Array.getElem?_eq_getElem inside] at unimproved
      exact if_neg unimproved
    · rfl

theorem predecessor?_follow_of_ne {rule : UnaryRule σ} {label : LabelId}
    (different : label ≠ rule.child) :
    (reach.follow rule).predecessor? label = reach.predecessor? label := by
  unfold predecessor?
  rw [getD_follow, if_neg fun improved => different improved.1.symm]

theorem score_follow_of_ne {rule : UnaryRule σ} {label : LabelId}
    (different : label ≠ rule.child) :
    (reach.follow rule).score label = reach.score label := by
  unfold score
  rw [getD_follow, if_neg fun improved => different improved.1.symm]

namespace LeadsBack

variable {rule : UnaryRule σ} {label : LabelId} {path : List LabelId}

/-- A way back that does not meet a rule's child stays as it is. -/
theorem follow_of_notMem (back : LeadsBack reach source label path)
    (absent : rule.child ∉ path) : LeadsBack (reach.follow rule) source label path := by
  induction back with
  | source => exact .source
  | step distant found _ inductionHypothesis =>
      rw [List.mem_cons, not_or] at absent
      refine .step distant ?_ (inductionHypothesis absent.2)
      rw [predecessor?_follow_of_ne (Ne.symm absent.1)]
      exact found

/-- A way back that meets a rule's child goes on from there as the child's does. -/
theorem exists_follow (back : LeadsBack reach source label path) {detour : List LabelId}
    (child : LeadsBack (reach.follow rule) source rule.child detour) :
    ∃ path, LeadsBack (reach.follow rule) source label path := by
  induction back with
  | source => exact ⟨_, .source⟩
  | @step label previous path distant found _ inductionHypothesis =>
      by_cases same : label = rule.child
      · exact ⟨detour, same ▸ child⟩
      · rcases inductionHypothesis with ⟨rest, restBack⟩
        refine ⟨label :: rest, .step distant ?_ restBack⟩
        rw [predecessor?_follow_of_ne same]
        exact found

end LeadsBack

/-! ## The invariant -/

/-- From all that has been reached the predecessors lead back to the source. -/
def Grounded (source : LabelId) (reach : Reach σ) : Prop :=
  ∀ label, reach.score label ≠ impossible → ∃ path, LeadsBack reach source label path

theorem grounded_start (count : Nat) (source : LabelId) :
    Grounded source (start count source : Reach σ) := by
  intro label possible
  rw [score, getD_start] at possible
  split at possible
  · rename_i isSource
    rw [← isSource.1]
    exact ⟨_, .source⟩
  · exact absurd rfl possible

variable [Score.Lawful σ]

namespace Sound

variable (sound : Sound rules source reach) (rulesNonpos : ∀ rule ∈ rules, rule.score ≤ 0)

include sound rulesNonpos

/-- No label scores better than its predecessor. -/
theorem score_le_predecessor {label previous : LabelId}
    (found : reach.predecessor? label = some previous) :
    reach.score label ≤ reach.score previous := by
  rcases sound.traced label previous found with ⟨rule, member, rfl, -, le⟩
  calc
    reach.score label
    _ ≤ reach.scoreBy rule := le
    _ ≤ reach.score rule.parent :=
      Score.add_le_left (sound.nonpos rule.parent) (rulesNonpos rule member)

/-- Nothing on the way back from a label scores worse than the label. -/
theorem score_le_of_leadsBack {label : LabelId} {path : List LabelId}
    (back : LeadsBack reach source label path) {earlier : LabelId}
    (member : earlier ∈ path) : reach.score label ≤ reach.score earlier := by
  induction back with
  | source =>
      obtain rfl := List.mem_singleton.mp member
      exact Score.le_refl (sound.nonpos earlier)
  | @step label previous path _ found _ inductionHypothesis =>
      rcases List.mem_cons.mp member with rfl | later
      · exact Score.le_refl (sound.nonpos earlier)
      · exact Score.Lawful.le_trans (sound.score_le_predecessor rulesNonpos found)
          (inductionHypothesis later)

/-- The child of a rule that improves its score is not the source, whose score is never
improved, and lies on no way back from the parent, where nothing scores worse than the
parent does. -/
theorem exists_leadsBack_of_lt (grounded : Grounded source reach) {rule : UnaryRule σ}
    (member : rule ∈ rules) (improved : reach.score rule.child < reach.scoreBy rule) :
    rule.child ≠ source ∧
      ∃ path, LeadsBack reach source rule.parent path ∧ rule.child ∉ path := by
  have ruleNonpos := rulesNonpos rule member
  have notLe := (Score.Lawful.lt_iff_not_le (sound.nonpos rule.child)
    (sound.scoreBy_nonpos ruleNonpos)).mp improved
  constructor
  · intro same
    apply notLe
    rw [same, sound.sourceScore]
    exact sound.scoreBy_nonpos ruleNonpos
  · have possible : reach.score rule.parent ≠ impossible := by
      intro same
      apply notLe
      rw [scoreBy, same, Score.Lawful.impossible_add ruleNonpos]
      exact Score.Lawful.impossible_le (sound.nonpos rule.child)
    rcases grounded rule.parent possible with ⟨path, back⟩
    refine ⟨path, back, fun met => notLe ?_⟩
    calc
      reach.scoreBy rule
      _ ≤ reach.score rule.parent :=
        Score.add_le_left (sound.nonpos rule.parent) ruleNonpos
      _ ≤ reach.score rule.child := sound.score_le_of_leadsBack rulesNonpos back met

/-- Following a rule leaves everything grounded: a new predecessor closes no cycle. -/
theorem grounded_follow (grounded : Grounded source reach) {rule : UnaryRule σ}
    (member : rule ∈ rules) : Grounded source (reach.follow rule) := by
  by_cases improved : rule.child < reach.size ∧ reach.score rule.child < reach.scoreBy rule
  · rcases sound.exists_leadsBack_of_lt rulesNonpos grounded member improved.2 with
      ⟨distant, path, back, absent⟩
    have predecessor : (reach.follow rule).predecessor? rule.child = some rule.parent := by
      unfold predecessor?
      rw [getD_follow, if_pos ⟨rfl, improved⟩]
    have child := LeadsBack.step distant predecessor (back.follow_of_notMem absent)
    intro label possible
    by_cases same : label = rule.child
    · rw [same]
      exact ⟨_, child⟩
    · rw [score_follow_of_ne same] at possible
      rcases grounded label possible with ⟨old, oldBack⟩
      exact oldBack.exists_follow child
  · rw [follow_of_not_lt fun inside less => improved ⟨inside, less⟩]
    exact grounded

theorem grounded_followAll (grounded : Grounded source reach)
    {followed : List (UnaryRule σ)} (included : followed ⊆ rules) :
    Grounded source (reach.followAll followed) := by
  induction followed generalizing reach with
  | nil => exact grounded
  | cons rule rest inductionHypothesis =>
      have member := included List.mem_cons_self
      exact inductionHypothesis (sound.follow member rulesNonpos)
        (sound.grounded_follow rulesNonpos grounded member)
        fun _ later => included (List.mem_cons_of_mem rule later)

end Sound

end ChartParsing.Reach
