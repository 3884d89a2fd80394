import Mathlib.Data.List.Perm.Subperm
import Mathlib.Logic.Function.Iterate
import ChartParsing.Proofs.Unary.Predecessors

/-!
# Relaxation comes to rest

Each round settles one more label of every way back to the source.  As no label is met
twice on a way back, no rule improves anything after as many rounds as labels occur in the
rules, less one (`Reach.isSettled_afterRounds`).  Stopping earlier, once nothing improves,
and going on for longer both make no difference (`Reach.best_eq_settle`), and every label
that has been reached has a path without repetitions (`Reach.exists_path?_best`).

No more is used of scores than `Score.Lawful` asks for, which is that addition is monotone,
that adding zero raises no score, and that what is impossible stays so.
-/

namespace ChartParsing.Reach

variable {σ : Type} [Score σ] [Score.Lawful σ] {rules : List (UnaryRule σ)}
  {source : LabelId} {reach : Reach σ}

namespace Sound

variable (sound : Sound rules source reach) (rulesNonpos : ∀ rule ∈ rules, rule.score ≤ 0)

include sound rulesNonpos

/-! ## One round -/

/-- A round makes no label's score worse. -/
theorem le_score_followAll {followed : List (UnaryRule σ)} (included : followed ⊆ rules)
    (label : LabelId) : reach.score label ≤ (reach.followAll followed).score label := by
  induction followed generalizing reach with
  | nil => exact Score.le_refl (sound.nonpos label)
  | cons rule rest inductionHypothesis =>
      have member := included List.mem_cons_self
      have later := inductionHypothesis (sound.follow member rulesNonpos)
        fun _ later => included (List.mem_cons_of_mem rule later)
      exact Score.Lawful.le_trans (sound.le_score_follow (rulesNonpos rule member) label) later

omit sound in
/-- What a rule offers grows with the score of its parent. -/
theorem scoreBy_le_scoreBy {other : Reach σ} (otherSound : Sound rules source other)
    {rule : UnaryRule σ} (member : rule ∈ rules)
    (le : reach.score rule.parent ≤ other.score rule.parent) :
    reach.scoreBy rule ≤ other.scoreBy rule :=
  Score.Lawful.add_le_add (otherSound.nonpos rule.parent) (rulesNonpos rule member) le
    (Score.le_refl (rulesNonpos rule member))

theorem scoreBy_le_score_follow {rule : UnaryRule σ} (member : rule ∈ rules)
    (inside : rule.child < reach.size) :
    reach.scoreBy rule ≤ (reach.follow rule).score rule.child := by
  have nonpos := sound.scoreBy_nonpos (rulesNonpos rule member)
  by_cases improved : reach.score rule.child < reach.scoreBy rule
  · rw [score, getD_follow, if_pos ⟨rfl, inside, improved⟩]
    exact Score.le_refl nonpos
  · rw [follow_of_not_lt fun _ => improved]
    exact (Score.not_lt_iff_le (sound.nonpos rule.child) nonpos).mp improved

/-- A round leaves the child of each of its rules no worse than the rule made it before
the round. -/
theorem scoreBy_le_score_followAll {followed : List (UnaryRule σ)}
    (included : followed ⊆ rules) {rule : UnaryRule σ} (member : rule ∈ followed)
    (inside : rule.child < reach.size) :
    reach.scoreBy rule ≤ (reach.followAll followed).score rule.child := by
  induction followed generalizing reach with
  | nil => cases member
  | cons first rest inductionHypothesis =>
      have firstMember := included List.mem_cons_self
      have firstSound := sound.follow firstMember rulesNonpos
      have restIncluded : rest ⊆ rules := fun _ later =>
        included (List.mem_cons_of_mem first later)
      rcases List.mem_cons.mp member with rfl | later
      · exact Score.Lawful.le_trans
          (sound.scoreBy_le_score_follow rulesNonpos firstMember inside)
          (firstSound.le_score_followAll rulesNonpos restIncluded rule.child)
      · have offered := inductionHypothesis firstSound restIncluded later
          (by rwa [size_follow])
        exact Score.Lawful.le_trans
          (scoreBy_le_scoreBy rulesNonpos firstSound (included member)
            (sound.le_score_follow (rulesNonpos first firstMember) rule.parent))
          offered

end Sound

/-! ## Many rounds -/

omit [Score.Lawful σ] in
theorem isSettled_iff :
    reach.isSettled rules = true ↔
      ∀ rule ∈ rules, ¬reach.score rule.child < reach.scoreBy rule := by
  simp [isSettled]

omit [Score.Lawful σ] in
/-- Where no rule improves anything a round changes nothing. -/
theorem followAll_of_isSettled (settled : reach.isSettled rules = true)
    {followed : List (UnaryRule σ)} (included : followed ⊆ rules) :
    reach.followAll followed = reach := by
  induction followed with
  | nil => rfl
  | cons rule rest inductionHypothesis =>
      have unimproved := isSettled_iff.mp settled rule (included List.mem_cons_self)
      rw [followAll, List.foldl_cons, follow_of_not_lt fun _ => unimproved]
      exact inductionHypothesis fun _ later => included (List.mem_cons_of_mem rule later)

omit [Score.Lawful σ] in
/-- Stopping as soon as nothing improves makes no difference to the result. -/
theorem settle_eq_iterate (rules : List (UnaryRule σ)) (rounds : Nat) (reach : Reach σ) :
    settle rules rounds reach = (followAll · rules)^[rounds] reach := by
  induction rounds generalizing reach with
  | zero => rfl
  | succ rounds inductionHypothesis =>
      unfold settle
      split
      · rename_i settled
        have unchanged := followAll_of_isSettled settled (List.Subset.refl rules)
        exact (Function.iterate_fixed unchanged (rounds + 1)).symm
      · rw [inductionHypothesis, Function.iterate_succ_apply]

/-- What has been reached from a source after some rounds. -/
def afterRounds (rules : List (UnaryRule σ)) (count : Nat) (source : LabelId)
    (rounds : Nat) : Reach σ :=
  (followAll · rules)^[rounds] (start count source)

omit [Score.Lawful σ] in
theorem afterRounds_succ (rules : List (UnaryRule σ)) (count : Nat) (source : LabelId)
    (rounds : Nat) :
    afterRounds rules count source (rounds + 1) =
      (afterRounds rules count source rounds).followAll rules :=
  Function.iterate_succ_apply' _ rounds _

omit [Score.Lawful σ] in
theorem size_afterRounds (rules : List (UnaryRule σ)) (count : Nat) (source : LabelId)
    (rounds : Nat) : (afterRounds rules count source rounds).size = count := by
  have keeps (followed : List (UnaryRule σ)) (reach : Reach σ) :
      (reach.followAll followed).size = reach.size := by
    induction followed generalizing reach with
    | nil => rfl
    | cons rule rest inductionHypothesis =>
        exact (inductionHypothesis (reach.follow rule)).trans (size_follow reach rule)
  induction rounds with
  | zero => simp [afterRounds, start]
  | succ rounds inductionHypothesis =>
      rw [afterRounds_succ, keeps, inductionHypothesis]

section

variable {count : Nat} (inside : source < count)
  (rulesNonpos : ∀ rule ∈ rules, rule.score ≤ 0)

include inside rulesNonpos

theorem sound_afterRounds (rounds : Nat) :
    Sound rules source (afterRounds rules count source rounds) := by
  induction rounds with
  | zero => exact .start inside
  | succ rounds inductionHypothesis =>
      rw [afterRounds_succ]
      exact inductionHypothesis.followAll rulesNonpos (List.Subset.refl rules)

theorem grounded_afterRounds (rounds : Nat) :
    Grounded source (afterRounds rules count source rounds) := by
  induction rounds with
  | zero => exact grounded_start count source
  | succ rounds inductionHypothesis =>
      rw [afterRounds_succ]
      exact (sound_afterRounds inside rulesNonpos rounds).grounded_followAll rulesNonpos
        inductionHypothesis (List.Subset.refl rules)

/-- More rounds make no label's score worse. -/
theorem score_afterRounds_mono {fewer more : Nat} (le : fewer ≤ more) (label : LabelId) :
    (afterRounds rules count source fewer).score label ≤
      (afterRounds rules count source more).score label := by
  induction more, le using Nat.le_induction with
  | base => exact Score.le_refl ((sound_afterRounds inside rulesNonpos fewer).nonpos label)
  | succ more _ inductionHypothesis =>
      have round := (sound_afterRounds inside rulesNonpos more).le_score_followAll
        rulesNonpos (List.Subset.refl rules) label
      rw [← afterRounds_succ] at round
      exact Score.Lawful.le_trans inductionHypothesis round

variable (known : ∀ rule ∈ rules, rule.child < count)

include known

/-- The next round does for the child of a rule at least what the rule offers. -/
theorem scoreBy_le_score_afterRounds (rounds : Nat) {rule : UnaryRule σ}
    (member : rule ∈ rules) :
    (afterRounds rules count source rounds).scoreBy rule ≤
      (afterRounds rules count source (rounds + 1)).score rule.child := by
  rw [afterRounds_succ]
  apply (sound_afterRounds inside rulesNonpos rounds).scoreBy_le_score_followAll rulesNonpos
    (List.Subset.refl rules) member
  rw [size_afterRounds]
  exact known rule member

/-- A label that the source is a number of steps away from has its score after as many
rounds, whatever rounds are still made. -/
theorem score_le_score_afterRounds {rounds : Nat} {label : LabelId} {path : List LabelId}
    (back : LeadsBack (afterRounds rules count source rounds) source label path)
    {steps : Nat} (length : path.length = steps + 1) :
    (afterRounds rules count source rounds).score label ≤
      (afterRounds rules count source steps).score label := by
  have sound := sound_afterRounds inside rulesNonpos
  induction back generalizing steps with
  | source =>
      rw [(sound rounds).sourceScore, (sound steps).sourceScore]
      exact Score.Lawful.zero_nonpos
  | @step label previous path _ found rest inductionHypothesis =>
      rcases (sound rounds).traced label previous found with ⟨rule, member, rfl, rfl, le⟩
      cases steps with
      | zero =>
          rw [List.length_cons, Nat.zero_add, Nat.succ_inj, List.length_eq_zero_iff] at length
          exact absurd length rest.path_ne_nil
      | succ steps =>
          have earlier := inductionHypothesis (Nat.succ.inj length)
          calc
            (afterRounds rules count source rounds).score rule.child
            _ ≤ (afterRounds rules count source rounds).scoreBy rule := le
            _ ≤ (afterRounds rules count source steps).scoreBy rule :=
              Sound.scoreBy_le_scoreBy rulesNonpos (sound steps) member earlier
            _ ≤ (afterRounds rules count source (steps + 1)).score rule.child :=
              scoreBy_le_score_afterRounds inside rulesNonpos known steps member

/-- After as many rounds as labels occur in the rules, less one, no rule improves
anything. -/
theorem isSettled_afterRounds {labels : List LabelId}
    (covered : ∀ rule ∈ rules, rule.parent ∈ labels ∧ rule.child ∈ labels) {rounds : Nat}
    (enough : labels.length ≤ rounds + 1) :
    (afterRounds rules count source rounds).isSettled rules = true := by
  have sound := sound_afterRounds inside rulesNonpos
  rw [isSettled_iff]
  intro rule member improved
  rcases (sound rounds).exists_leadsBack_of_lt rulesNonpos
    (grounded_afterRounds inside rulesNonpos rounds) member improved with
    ⟨-, path, back, absent⟩
  -- The way back from the parent and the child are different labels of the rules.
  have within : rule.child :: path ⊆ labels := by
    intro label met
    rcases List.mem_cons.mp met with rfl | onPath
    · exact (covered rule member).2
    · rcases back.eq_or_exists_rule (sound rounds) onPath with rfl | ⟨other, otherMember, rfl⟩
      · exact (covered rule member).1
      · exact (covered other otherMember).1
  have distinct : (rule.child :: path).Nodup := List.nodup_cons.mpr ⟨absent, back.nodup⟩
  have short := (List.subperm_of_subset distinct within).length_le
  obtain ⟨steps, length⟩ := Nat.exists_eq_succ_of_ne_zero
    fun empty => back.path_ne_nil (List.length_eq_zero_iff.mp empty)
  have inTime : steps + 1 ≤ rounds := by
    rw [List.length_cons, length] at short
    omega
  have le : (afterRounds rules count source rounds).scoreBy rule ≤
      (afterRounds rules count source rounds).score rule.child :=
    calc
      (afterRounds rules count source rounds).scoreBy rule
      _ ≤ (afterRounds rules count source steps).scoreBy rule :=
        Sound.scoreBy_le_scoreBy rulesNonpos (sound steps) member
          (score_le_score_afterRounds inside rulesNonpos known back length)
      _ ≤ (afterRounds rules count source (steps + 1)).score rule.child :=
        scoreBy_le_score_afterRounds inside rulesNonpos known steps member
      _ ≤ (afterRounds rules count source rounds).score rule.child :=
        score_afterRounds_mono inside rulesNonpos inTime rule.child
  rw [Score.Lawful.lt_iff_not_le ((sound rounds).nonpos rule.child)
    ((sound rounds).scoreBy_nonpos (rulesNonpos rule member))] at improved
  exact improved le

end

/-! ## All that a source reaches -/

omit [Score.Lawful σ] in
theorem best_eq_afterRounds (rules : List (UnaryRule σ)) (count : Nat) (source : LabelId) :
    best rules count source = afterRounds rules count source count :=
  settle_eq_iterate rules count (start count source)

section

variable {count : Nat} (inside : source < count)
  (rulesNonpos : ∀ rule ∈ rules, rule.score ≤ 0)
  (known : ∀ rule ∈ rules, rule.parent < count ∧ rule.child < count)

include inside rulesNonpos known

theorem isSettled_best : (best rules count source).isSettled rules = true := by
  have covered : ∀ rule ∈ rules,
      rule.parent ∈ List.range count ∧ rule.child ∈ List.range count := by
    simpa only [List.mem_range] using known
  have enough : (List.range count).length ≤ count + 1 := by
    rw [List.length_range]
    exact Nat.le_succ count
  rw [best_eq_afterRounds]
  exact isSettled_afterRounds inside rulesNonpos (fun rule member => (known rule member).2)
    covered enough

/-- Rounds beyond those that the labels of the rules ask for make no difference. -/
theorem best_eq_settle {labels : List LabelId}
    (covered : ∀ rule ∈ rules, rule.parent ∈ labels ∧ rule.child ∈ labels) {rounds : Nat}
    (enough : labels.length ≤ rounds + 1) :
    best rules count source = settle rules rounds (start count source) := by
  have settledFew := isSettled_afterRounds inside rulesNonpos
    (fun rule member => (known rule member).2) covered enough
  have settledMany := isSettled_best inside rulesNonpos known
  have unchanged {reach : Reach σ} (settled : reach.isSettled rules = true) (rounds : Nat) :
      (followAll · rules)^[rounds] reach = reach :=
    Function.iterate_fixed (followAll_of_isSettled settled (List.Subset.refl rules)) rounds
  rw [best_eq_afterRounds] at settledMany
  rw [best_eq_afterRounds, settle_eq_iterate]
  calc
    afterRounds rules count source count
    _ = (followAll · rules)^[rounds] (afterRounds rules count source count) :=
      (unchanged settledMany rounds).symm
    _ = (followAll · rules)^[count] (afterRounds rules count source rounds) :=
      Function.Commute.iterate_iterate_self _ rounds count (start count source)
    _ = afterRounds rules count source rounds := unchanged settledFew count

/-- Whatever has been reached has a path, which visits no label twice. -/
theorem exists_path?_best {label : LabelId}
    (possible : (best rules count source).score label ≠ impossible) :
    ∃ path, (best rules count source).path? source label = some path ∧ path.Nodup := by
  have size : (best rules count source).size = count := by
    rw [best_eq_afterRounds, size_afterRounds]
  have labelKnown : label < count := by
    by_contra unknown
    apply possible
    have outside := size.trans_le (Nat.le_of_not_lt unknown)
    rw [score, Array.getD_eq_getD_getElem?, Array.getElem?_eq_none outside]
    rfl
  have grounded := grounded_afterRounds inside rulesNonpos count
  rw [← best_eq_afterRounds] at grounded
  rcases grounded label possible with ⟨path, back⟩
  have within : path ⊆ List.range count := by
    intro earlier met
    rw [List.mem_range]
    rcases back.eq_or_exists_rule (sound_best inside rulesNonpos) met with
      rfl | ⟨rule, member, rfl⟩
    · exact labelKnown
    · exact (known rule member).1
  have short := (List.subperm_of_subset back.nodup within).length_le
  rw [List.length_range] at short
  have walked := back.walkBack_eq (Nat.le_succ_of_le short) []
  refine ⟨path.reverse, ?_, List.nodup_reverse.mpr back.nodup⟩
  rw [path?, size, walked, List.append_nil]

end

end ChartParsing.Reach
