import Mathlib.Data.List.Basic
import ChartParsing.Tree.Reader

/-!
# Where a text is rejected

Every state of the reader can still be completed, so a text begins some accepted text
exactly if the reader gets to its end (`isViable_iff`), and what the reader refuses is the
first character that no accepted text goes on with.  A rejection therefore names the
character where the text stops to be the beginning of an accepted one, and the end of the
text just if it never does (`found_of_read_eq_error`).
-/

namespace ChartParsing.Tree

namespace Reader

/-- The state after some characters, if none of them is refused. -/
def after? (state : State) (text : List Char) : Option State :=
  text.foldlM next? state

variable {state next : State} {c : Char} {text : List Char}

theorem after?_cons : after? state (c :: text) = (next? state c).bind (after? · text) :=
  rfl

/-- A run takes one step for each character. -/
theorem run_cons_of_next? (step : next? state c = some next) (rest : List Char) :
    run state (c :: rest) = run next rest := by
  cases state <;> simp only [run, step]

theorem run_cons_of_refused (refused : next? state c = none) (rest : List Char) :
    run state (c :: rest) = .error ⟨some c, expectedBy state (some c)⟩ := by
  cases state <;> simp only [run, refused]

/-! ## Every state can be completed -/

/-- Some text is read from a state to the end. -/
def IsCompletable (state : State) : Prop :=
  ∃ rest tree, run state rest = .ok tree

theorem IsCompletable.of_next? (step : next? state c = some next)
    (completable : IsCompletable next) : IsCompletable state := by
  rcases completable with ⟨rest, tree, accepted⟩
  exact ⟨c :: rest, tree, (run_cons_of_next? step rest).trans accepted⟩

/-- After a bracket has been closed, those around it can be closed one after the other. -/
theorem isCompletable_close (inner : Frame) (outer : List Frame) :
    IsCompletable (close inner outer) := by
  induction outer generalizing inner with
  | nil => exact ⟨[], inner.toTree, rfl⟩
  | cons frame outer inductionHypothesis =>
      have step : next? (close inner (frame :: outer)) ')' =
          some (close (frame.add inner.toTree) outer) :=
        rfl
      exact (inductionHypothesis _).of_next? step

theorem isCompletable_word (text : List Char) (inner : Frame) (outer : List Frame) :
    IsCompletable (.word text inner outer) := by
  have step : next? (.word text inner outer) ')' =
      some (close (inner.add (.leaf (textOf text))) outer) :=
    rfl
  exact (isCompletable_close _ outer).of_next? step

theorem isCompletable_between (inner : Frame) (outer : List Frame) :
    IsCompletable (.between inner outer) := by
  have step : next? (.between inner outer) '*' = some (.word ['*'] inner outer) := rfl
  exact (isCompletable_word _ inner outer).of_next? step

theorem isCompletable_label (text : List Char) (outer : List Frame) :
    IsCompletable (.label text outer) := by
  have step : next? (.label text outer) ' ' = some (.between ⟨textOf text, []⟩ outer) := rfl
  exact (isCompletable_between _ outer).of_next? step

theorem isCompletable_opened (skipped : Bool) (outer : List Frame) :
    IsCompletable (.opened skipped outer) := by
  have step : next? (.opened skipped outer) 'X' = some (.label ['X'] outer) := rfl
  exact (isCompletable_label _ outer).of_next? step

/-- No state is a dead end: each part of a text can be ended, and then the brackets around
it closed. -/
theorem isCompletable (state : State) : IsCompletable state := by
  cases state with
  | before =>
      have step : next? .before '(' = some (.opened false []) := rfl
      exact (isCompletable_opened false []).of_next? step
  | opened skipped outer => exact isCompletable_opened skipped outer
  | label text outer => exact isCompletable_label text outer
  | between inner outer => exact isCompletable_between inner outer
  | word text inner outer => exact isCompletable_word text inner outer
  | complete tree => exact ⟨[], tree, rfl⟩

/-! ## Runs over a beginning -/

theorem run_append_of_after? (reached : after? state text = some next) (rest : List Char) :
    run state (text ++ rest) = run next rest := by
  induction text generalizing state with
  | nil =>
      obtain rfl := Option.some.inj reached
      rfl
  | cons c text inductionHypothesis =>
      rw [after?_cons] at reached
      obtain ⟨middle, step, reached⟩ := Option.bind_eq_some_iff.mp reached
      rw [List.cons_append, run_cons_of_next? step, inductionHypothesis reached]

/-- A text that has been read to its end was never refused on the way. -/
theorem exists_after?_of_run_eq_ok {rest : List Char} {tree : Tree String}
    (accepted : run state (text ++ rest) = .ok tree) :
    ∃ next, after? state text = some next := by
  induction text generalizing state with
  | nil => exact ⟨state, rfl⟩
  | cons c text inductionHypothesis =>
      cases step : next? state c with
      | none =>
          rw [List.cons_append, run_cons_of_refused step] at accepted
          cases accepted
      | some next =>
          rw [List.cons_append, run_cons_of_next? step] at accepted
          rw [after?_cons, step]
          exact inductionHypothesis accepted

/-- A run fails at the end of the text, or at a character that the state before it
refuses. -/
theorem exists_after?_of_run_eq_error {error : ReadError}
    (rejected : run state text = .error error) :
    (∃ reached, after? state text = some reached ∧ error.found = none) ∨
      ∃ before c rest reached, text = before ++ c :: rest ∧
        after? state before = some reached ∧ next? reached c = none ∧
        error.found = some c := by
  induction text generalizing state with
  | nil =>
      cases state with
      | complete tree => cases rejected
      | _ =>
          obtain rfl := Except.error.inj rejected
          exact .inl ⟨_, rfl, rfl⟩
  | cons c text inductionHypothesis =>
      cases step : next? state c with
      | none =>
          rw [run_cons_of_refused step] at rejected
          obtain rfl := Except.error.inj rejected
          exact .inr ⟨[], c, text, state, rfl, rfl, step, rfl⟩
      | some next =>
          rw [run_cons_of_next? step] at rejected
          rcases inductionHypothesis rejected with ⟨reached, all, found⟩ |
            ⟨before, d, rest, reached, rfl, begun, refused, found⟩
          · exact .inl ⟨reached, by rwa [after?_cons, step], found⟩
          · exact .inr ⟨c :: before, d, rest, reached, rfl, by rwa [after?_cons, step],
              refused, found⟩

end Reader

/-! ## Beginnings of accepted texts -/

/-- A text begins some text that is read as a tree. -/
def IsViable (text : List Char) : Prop :=
  ∃ (whole : String) (tree : Tree String), text <+: whole.toList ∧ read whole = .ok tree

/-- At a position a text stops to be the beginning of an accepted text: what is before it
begins one, and with the character there it does not. -/
def BreaksAt (text : List Char) (position : Nat) : Prop :=
  IsViable (text.take position) ∧ ¬IsViable (text.take (position + 1))

theorem IsViable.of_isPrefix {text start : List Char} (viable : IsViable text)
    (starts : start <+: text) : IsViable start := by
  obtain ⟨whole, tree, begins, accepted⟩ := viable
  exact ⟨whole, tree, starts.trans begins, accepted⟩

/-- A text begins an accepted one exactly if the reader gets to its end. -/
theorem isViable_iff {text : List Char} :
    IsViable text ↔ ∃ reached, Reader.after? .before text = some reached := by
  constructor
  · rintro ⟨whole, tree, ⟨rest, split⟩, accepted⟩
    rw [read, ← split] at accepted
    exact Reader.exists_after?_of_run_eq_ok accepted
  · rintro ⟨reached, all⟩
    rcases Reader.isCompletable reached with ⟨rest, tree, accepted⟩
    refine ⟨String.ofList (text ++ rest), tree, ?_, ?_⟩
    · rw [String.toList_ofList]
      exact List.prefix_append text rest
    · rw [read, String.toList_ofList, Reader.run_append_of_after? all, accepted]

/-- A text breaks at one position at most. -/
theorem BreaksAt.unique {text : List Char} {first second : Nat}
    (breaks : BreaksAt text first) (others : BreaksAt text second) : first = second := by
  have ordered {first second : Nat} (breaks : BreaksAt text first)
      (others : BreaksAt text second) : second ≤ first := by
    by_contra less
    have starts : text.take (first + 1) <+: text.take second :=
      List.take_prefix_take_left (by omega)
    exact breaks.2 (others.1.of_isPrefix starts)
  exact Nat.le_antisymm (ordered others breaks) (ordered breaks others)

/-- A rejected text begins an accepted one as a whole, and its end has been found, or it
breaks at the character that has been found. -/
theorem isViable_or_breaksAt_of_read_eq_error {text : String} {error : Reader.ReadError}
    (rejected : read text = .error error) :
    (IsViable text.toList ∧ error.found = none) ∨
      ∃ c position, text.toList[position]? = some c ∧ BreaksAt text.toList position ∧
        error.found = some c := by
  rcases Reader.exists_after?_of_run_eq_error rejected with
    ⟨reached, all, found⟩ | ⟨before, c, rest, reached, split, begun, refused, found⟩
  · exact .inl ⟨isViable_iff.mpr ⟨reached, all⟩, found⟩
  · refine .inr ⟨c, before.length, by simp [split], ⟨?_, ?_⟩, found⟩
    · rw [split, List.take_left]
      exact isViable_iff.mpr ⟨reached, begun⟩
    · have broken : text.toList.take (before.length + 1) = before ++ [c] := by
        rw [split, List.take_length_add_append, List.take_succ_cons, List.take_zero]
      rw [broken, isViable_iff]
      rintro ⟨next, all⟩
      rw [Reader.after?, List.foldlM_append] at all
      obtain ⟨middle, same, step⟩ := Option.bind_eq_some_iff.mp all
      obtain rfl := Option.some.inj (begun.symm.trans same)
      rw [← Reader.after?, Reader.after?_cons, refused] at step
      cases step

/-- A rejection names the first character up to which, but not with which, the text begins
an accepted one, and the end of the text exactly if all of it can still be extended. -/
theorem found_of_read_eq_error {text : String} {error : Reader.ReadError}
    (rejected : read text = .error error) :
    (∀ c, error.found = some c ↔
      ∃ position, text.toList[position]? = some c ∧ BreaksAt text.toList position ∧
        ∀ earlier < position, ¬BreaksAt text.toList earlier) ∧
      (error.found = none ↔ ∀ start, start <+: text.toList → IsViable start) := by
  have unbroken {position : Nat} (viable : IsViable text.toList)
      (breaks : BreaksAt text.toList position) : False :=
    breaks.2 (viable.of_isPrefix (List.take_prefix _ _))
  rcases isViable_or_breaksAt_of_read_eq_error rejected with
    ⟨viable, found⟩ | ⟨c, position, there, breaks, found⟩
  · rw [found]
    refine ⟨fun c => ⟨nofun, ?_⟩, fun _ start => viable.of_isPrefix, fun _ => rfl⟩
    rintro ⟨position, -, breaks, -⟩
    exact (unbroken viable breaks).elim
  · rw [found]
    refine ⟨fun d => ⟨?_, ?_⟩, nofun, fun viable => (unbroken (viable _ List.prefix_rfl) breaks).elim⟩
    · rintro ⟨⟩
      exact ⟨position, there, breaks, fun earlier less other =>
        Nat.ne_of_lt less (other.unique breaks)⟩
    · rintro ⟨other, same, othersBreak, -⟩
      rw [breaks.unique othersBreak, same] at there
      exact there.symm

/-- A second tree is refused at its first character, and a text whose bracket stays open at
its end. -/
theorem found_of_read_eq_error_brackets :
    (read "(ROOT a)\n(NP b" = .error ⟨some '(', .endOfInput⟩ ∧
      ∃ position, "(ROOT a)\n(NP b".toList[position]? = some '(' ∧
        BreaksAt "(ROOT a)\n(NP b".toList position ∧
        ∀ earlier < position, ¬BreaksAt "(ROOT a)\n(NP b".toList earlier) ∧
      read "(ROOT (NP Vice)" = .error ⟨none, .child⟩ ∧
      ∀ start, start <+: "(ROOT (NP Vice)".toList → IsViable start := by
  have second : read "(ROOT a)\n(NP b" = .error ⟨some '(', .endOfInput⟩ := rfl
  have unclosed : read "(ROOT (NP Vice)" = .error ⟨none, .child⟩ := rfl
  exact ⟨⟨second, ((found_of_read_eq_error second).1 '(').mp rfl⟩, unclosed,
    (found_of_read_eq_error unclosed).2.mp rfl⟩

end ChartParsing.Tree
