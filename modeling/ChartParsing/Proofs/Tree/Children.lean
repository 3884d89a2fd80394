import ChartParsing.Proofs.Text.Combinator
import ChartParsing.Proofs.Tree.Reading
import ChartParsing.Proofs.Tree.Rejection
import ChartParsing.Tree.Composed

/-!
# Children of a composed reader

The parts of a bracket are followed in turn, as the reader composed of combinators and the
machine that takes one character at a time read them.  Each part fails where the machine stops,
with the furthest failure that the machine reports, or reads what the machine goes on from
(`Composed.Follows`).

A failure that has been passed is forgotten, but for that of a token whose end has just been
reached: more of the token could still have stood there (`Composed.Awaits`).  Children are read
one after the other (`Composed.many_child`), by induction on what is left of the text, if those
that are brackets are read as the machine reads them (`Composed.ReadsTrees`).
-/

namespace ChartParsing.Tree

open ChartParsing.Text
open Text.Failure Reader

/-- What could have stood there, in parts. -/
def Reader.Expected.alternatives : Expected → List String
  | .opening => ["'('"]
  | .label => ["label"]
  | .token => ["token"]
  | .labelOrChildren => ["any", "children"]
  | .otherOrChildren => ["something else", "children"]
  | .children => ["children"]
  | .wordOrChild => ["any", "'('", "token", "')'"]
  | .child => ["'('", "token", "')'"]
  | .endOfInput => ["end of input"]

namespace Composed

/-! ## Tokens -/

variable {text rest : List Char} {c : Char} {failure? : Option Failure}

/-- Why a token ends where it does. -/
def stopped (rest : List Char) : Failure :=
  ⟨rest, [if rest.isEmpty then "any" else "something else"]⟩

/-- No token begins here. -/
abbrev Stops (text : List Char) : Prop :=
  Ends isTokenChar text

/-- No blank comes first. -/
abbrev Visible (text : List Char) : Prop :=
  Ends isBlank text

theorem isTokenChar_iff :
    isTokenChar c = true ↔ c ∉ ['(', ')', ' ', '\t', '\n', '\r'] := by
  simp [isTokenChar, isDelimiter, and_assoc]

theorem tokenChar_cons (continues : isTokenChar c = true) :
    tokenChar (c :: rest) failure? = (some (c, rest), failure?) := by
  have admitted := isTokenChar_iff.mp continues
  simp only [tokenChar, Combinator.andIs, Combinator.any, Combinator.noneOf, if_neg admitted]

theorem tokenChar_of_stops (stops : Stops text) :
    tokenChar text failure? = (none, some ((stopped text).after failure?)) := by
  cases text with
  | nil => rfl
  | cons c rest =>
      have excluded : c ∈ ['(', ')', ' ', '\t', '\n', '\r'] :=
        Decidable.not_not.mp fun admitted =>
          ne_true_of_eq_false (stops c rfl) (isTokenChar_iff.mpr admitted)
      simp only [tokenChar, Combinator.andIs, Combinator.any, Combinator.noneOf, if_pos excluded]
      rfl

theorem many_tokenChar :
    Combinator.many tokenChar text failure? =
      ((text.takeWhile isTokenChar, text.dropWhile isTokenChar),
        some ((stopped (text.dropWhile isTokenChar)).after failure?)) := by
  induction text with
  | nil => exact Combinator.many_of_refused (tokenChar_of_stops fun _ first => nomatch first)
  | cons c rest inductionHypothesis =>
      cases continues : isTokenChar c with
      | true =>
          rw [Combinator.many_of_read (tokenChar_cons continues) (Nat.lt_succ_self _),
            inductionHypothesis, List.takeWhile_cons_of_pos continues,
            List.dropWhile_cons_of_pos continues]
      | false =>
          have stops : Stops (c :: rest) := ends_cons_iff.mpr continues
          have notContinues : ¬isTokenChar c = true := ne_true_of_eq_false continues
          rw [Combinator.many_of_refused (tokenChar_of_stops stops),
            List.takeWhile_cons_of_neg notContinues, List.dropWhile_cons_of_neg notContinues]

/-- A token is read as far as it goes. -/
theorem token_cons (continues : isTokenChar c = true)
    (before : Before (rest.dropWhile isTokenChar) failure?) :
    token (c :: rest) failure? =
      (some (String.ofList (c :: rest.takeWhile isTokenChar), rest.dropWhile isTokenChar),
        some (stopped (rest.dropWhile isTokenChar))) := by
  have shorter : (rest.dropWhile isTokenChar).length < (c :: rest).length :=
    Nat.lt_succ_of_le (List.dropWhile_suffix isTokenChar).length_le
  have unnamed : (tokenChar.atLeastOnce.map String.ofList) (c :: rest) none =
      (some (String.ofList (c :: rest.takeWhile isTokenChar), rest.dropWhile isTokenChar),
        some (stopped (rest.dropWhile isTokenChar))) := by
    simp only [Combinator.map, Combinator.atLeastOnce, tokenChar_cons continues, many_tokenChar]
    rfl
  exact Combinator.labelled_of_further unnamed (Nat.ne_of_lt shorter) before

/-- Where no token begins, one is expected. -/
theorem token_of_stops (stops : Stops text) :
    token text failure? = (none, some (Failure.after ⟨text, ["token"]⟩ failure?)) := by
  have unnamed : (tokenChar.atLeastOnce.map String.ofList) text none =
      (none, some (stopped text)) := by
    simp only [Combinator.map, Combinator.atLeastOnce, tokenChar_of_stops stops]
    rfl
  exact Combinator.labelled_of_here unnamed rfl

/-! ## The machine over several characters -/

variable {inner frame : Frame} {outer : List Frame} {read : List Char} {state : State}

/-- The machine reads characters of a kind in turn. -/
theorem run_while (kind : Char → Bool) (stateOf : List Char → State)
    (step : ∀ read c, kind c = true → next? (stateOf read) c = some (stateOf (c :: read)))
    (read text : List Char) :
    run (stateOf read) text =
      run (stateOf ((text.takeWhile kind).reverse ++ read)) (text.dropWhile kind) := by
  induction text generalizing read with
  | nil => rfl
  | cons c rest inductionHypothesis =>
      cases continues : kind c with
      | true =>
          rw [run_cons_of_next? (step read c continues), inductionHypothesis,
            List.takeWhile_cons_of_pos continues, List.dropWhile_cons_of_pos continues,
            List.reverse_cons, List.append_assoc]
          rfl
      | false =>
          have stops := ne_true_of_eq_false continues
          rw [List.takeWhile_cons_of_neg stops, List.dropWhile_cons_of_neg stops]
          rfl

theorem run_before (text : List Char) :
    run .before text = run .before (text.dropWhile isBlank) :=
  run_while isBlank (fun _ => State.before) (fun _ _ blank => if_pos blank) [] text

theorem run_between (text : List Char) :
    run (.between inner outer) text = run (.between inner outer) (text.dropWhile isBlank) :=
  run_while isBlank (fun _ => State.between inner outer) (fun _ _ blank => if_pos blank) [] text

theorem run_complete (tree : Tree String) (text : List Char) :
    run (.complete tree) text = run (.complete tree) (text.dropWhile isBlank) :=
  run_while isBlank (fun _ => State.complete tree) (fun _ _ blank => if_pos blank) [] text

/-! ## Children -/

/-- Reading ends with a failure that is reported. -/
def Reports (outcome : Except ReadError (Tree String)) (failure : Failure) : Prop :=
  ∃ expected : Expected, expected.alternatives = failure.expected ∧
    outcome = .error ⟨failure.left.head?, expected⟩

/-- A combinator fails where reading ends, or reads what reading goes on from.  In either case
its furthest failure is within the last `length` characters. -/
inductive Follows {α : Type} (length : Nat) (outcome : Except ReadError (Tree String))
    (GoesOn : α → List Char → Failure → Prop) : Option (α × List Char) × Option Failure → Prop
  | fails {failure : Failure} :
      failure.left.length ≤ length → Reports outcome failure →
        Follows length outcome GoesOn (none, some failure)
  | reads {value : α} {left : List Char} {failure : Failure} :
      failure.left.length ≤ length → GoesOn value left failure →
        Follows length outcome GoesOn (some (value, left), some failure)

/-- Where `inner` is open, a bracket begins a child and so does the first character of a
word. -/
structure BeginsChild (inner : Frame) (outer : List Frame) (state : State)
    (text : List Char) : Prop where
  bracket : ∀ rest, text = '(' :: rest →
    run state text = run (.opened false (inner :: outer)) rest
  word : ∀ c rest, text = c :: rest → isTokenChar c = true →
    run state text = run (.word [c] inner outer) rest

/-- Where `inner` is open and a child may begin, what has failed is something before the text,
or the token that ends there. -/
inductive Awaits (inner : Frame) (outer : List Frame) (text : List Char) :
    State → Option Failure → Prop
  | between {failure? : Option Failure} :
      Before text failure? → Awaits inner outer text (.between inner outer) failure?
  | word {read : List Char} {frame : Frame} :
      frame.add (.leaf (textOf read)) = inner → Stops text →
        Awaits inner outer text (.word read frame outer) (some (stopped text))
  | label {read : List Char} :
      Frame.mk (textOf read) [] = inner → Stops text →
        Awaits inner outer text (.label read outer) (some (stopped text))

/-- A child has been read, and the machine has come as far. -/
def ReadsChild (inner : Frame) (outer : List Frame) (state : State) (text : List Char)
    (value : Tree String) (left : List Char) (failure : Failure) : Prop :=
  left.length < text.length ∧ Visible left ∧
    ∃ next, Awaits (inner.add value) outer left next (some failure) ∧
      run state text = run next left

/-- A combinator reads bracketed trees as the machine does in texts shorter than a limit. -/
structure ReadsTrees (tree : Combinator (Tree String)) (limit : Nat) : Prop where
  refuses : ∀ {text failure?}, text.length < limit → '(' ∉ text.head? →
    tree text failure? = (none, some (Failure.after ⟨text, ["'('"]⟩ failure?))
  reads : ∀ {rest failure?} (outer : List Frame), rest.length + 1 < limit → Before rest failure? →
    Follows rest.length (run (.opened false outer) rest)
      (fun value left failure => left.length < failure.left.length ∧
        ∃ frame, frame.toTree = value ∧
          run (.opened false outer) rest = run (close frame outer) left)
      (tree ('(' :: rest) failure?)

variable {tree : Combinator (Tree String)} {limit : Nat}

theorem child_of_refused {failure : Failure} (refused : tree text failure? = (none, some failure))
    (stops : Stops text) :
    child tree text failure? = (none, some (Failure.after ⟨text, ["token"]⟩ (some failure))) := by
  unfold child Combinator.orElse
  rw [refused]
  dsimp only
  unfold Combinator.map
  rw [token_of_stops stops]

theorem child_of_tree {found : Tree String × List Char} {failed? : Option Failure}
    (read : tree text failure? = (some found, failed?)) :
    child tree text failure? = (some found, failed?) := by
  unfold child Combinator.orElse
  rw [read]

theorem child_of_word {failure : Failure}
    (refused : tree (c :: rest) failure? = (none, some failure))
    (continues : isTokenChar c = true)
    (before : Before (rest.dropWhile isTokenChar) (some failure)) :
    child tree (c :: rest) failure? =
      (some (.leaf (String.ofList (c :: rest.takeWhile isTokenChar)), rest.dropWhile isTokenChar),
        some (stopped (rest.dropWhile isTokenChar))) := by
  unfold child Combinator.orElse
  rw [refused]
  dsimp only
  unfold Combinator.map
  rw [token_cons continues before]

theorem ended?_of_blank (blank : isBlank c = true) :
    ended? inner outer c = some (.between inner outer) := by
  have notOpening : c ≠ '(' := by
    rintro rfl
    cases blank
  have notClosing : c ≠ ')' := by
    rintro rfl
    cases blank
  unfold ended?
  rw [if_neg notOpening, if_neg notClosing]

/-- After a token a child is awaited, if need be behind blanks. -/
theorem Awaits.exists_skipped (awaits : Awaits inner outer text state (some (stopped text)))
    (stops : Stops text)
    (ends : ∀ c, isTokenChar c = false → next? state c = ended? inner outer c) :
    ∃ next, Awaits inner outer (text.dropWhile isBlank) next (some (stopped text)) ∧
      run state text = run next (text.dropWhile isBlank) := by
  by_cases visible : Visible text
  · rw [visible.dropWhile_eq]
    exact ⟨state, awaits, rfl⟩
  · obtain ⟨c, rest, rfl, blank⟩ := exists_cons_of_not_ends visible
    have step : next? state c = some (.between inner outer) :=
      (ends c (stops c rfl)).trans (ended?_of_blank blank)
    have further : (rest.dropWhile isBlank).length < (c :: rest).length :=
      Nat.lt_succ_of_le (length_dropWhile_le isBlank rest)
    rw [List.dropWhile_cons_of_pos blank, run_cons_of_next? step]
    exact ⟨_, .between (before_some_iff.mpr further), run_between rest⟩

/-- Behind the first character of a token the machine reads the token, and a child is awaited
then.  `stateOf` is where the machine is within the token, and `frameOf` the open bracket when the
token has been read. -/
theorem exists_awaits_of_token (stateOf : List Char → State) (frameOf : String → Frame)
    (continues : ∀ read c, isTokenChar c = true →
      next? (stateOf read) c = some (stateOf (c :: read)))
    (ends : ∀ read c, isTokenChar c = false →
      next? (stateOf read) c = ended? (frameOf (textOf read)) outer c)
    (awaits : ∀ read text, Stops text →
      Awaits (frameOf (textOf read)) outer text (stateOf read) (some (stopped text)))
    (c : Char) (rest : List Char) :
    ∃ next,
      Awaits (frameOf (String.ofList (c :: rest.takeWhile isTokenChar))) outer
          ((rest.dropWhile isTokenChar).dropWhile isBlank) next
          (some (stopped (rest.dropWhile isTokenChar))) ∧
        run (stateOf [c]) rest =
          run next ((rest.dropWhile isTokenChar).dropWhile isBlank) := by
  have named : textOf ((rest.takeWhile isTokenChar).reverse ++ [c]) =
      String.ofList (c :: rest.takeWhile isTokenChar) := by
    simp [textOf]
  have stops := ends_dropWhile isTokenChar rest
  rw [← named, run_while isTokenChar stateOf continues]
  exact (awaits _ _ stops).exists_skipped stops (ends _)

/-- A bracketed child is read as far as the machine reads it. -/
theorem child_read_bracket (trees : ReadsTrees tree limit) (short : rest.length + 1 < limit)
    (begins : BeginsChild inner outer state ('(' :: rest)) (before : Before rest failure?) :
    Follows rest.length (run state ('(' :: rest)) (ReadsChild inner outer state ('(' :: rest))
      ((child tree).padded isBlank ('(' :: rest) failure?) := by
  have same : ('(' :: rest).dropWhile isBlank = '(' :: rest := rfl
  have follows := @ReadsTrees.reads _ _ trees _ failure? (inner :: outer) short before
  rw [← begins.bracket rest rfl] at follows
  generalize outcome : tree ('(' :: rest) failure? = result at follows
  cases follows with
  | @fails failure bound reports =>
      have further : failure.left.length < ('(' :: rest).length := Nat.lt_succ_of_le bound
      have refused := child_of_refused outcome (ends_cons_iff.mpr rfl)
      rw [after_of_lt further] at refused
      rw [Combinator.padded_of_refused (same.symm ▸ refused)]
      exact .fails bound reports
  | @reads value left failure bound goesOn =>
      obtain ⟨further, frame, rfl, reaches⟩ := goesOn
      have shorter := length_dropWhile_le isBlank left
      rw [Combinator.padded_of_read (same.symm ▸ child_of_tree outcome)]
      refine .reads bound ⟨Nat.lt_succ_of_le (by omega), ends_dropWhile isBlank left,
        .between (inner.add frame.toTree) outer, .between (before_some_iff.mpr (by omega)), ?_⟩
      rw [reaches]
      exact run_between left

/-- A word is read as far as the machine reads it. -/
theorem child_read_word (trees : ReadsTrees tree limit) (short : (c :: rest).length < limit)
    (visible : isBlank c = false) (continues : isTokenChar c = true) (notOpening : c ≠ '(')
    (begins : BeginsChild inner outer state (c :: rest)) (before : Before rest failure?) :
    Follows rest.length (run state (c :: rest)) (ReadsChild inner outer state (c :: rest))
      ((child tree).padded isBlank (c :: rest) failure?) := by
  have same : (c :: rest).dropWhile isBlank = c :: rest :=
    Ends.dropWhile_eq (ends_cons_iff.mpr visible)
  have opensNot : '(' ∉ (c :: rest).head? := fun first => notOpening (Option.some.inj first)
  have refused := @ReadsTrees.refuses _ _ trees _ failure? short opensNot
  have shorter := length_dropWhile_le isTokenChar rest
  have read := child_of_word refused continues
    ((before.of_le shorter).after (Nat.lt_succ_of_le shorter))
  obtain ⟨next, awaits, reaches⟩ := exists_awaits_of_token (State.word · inner outer)
    (fun word => inner.add (.leaf word)) (fun _ _ continues => if_pos continues)
    (fun _ _ => next?_word_eq_ended?) (fun _ _ stops => .word rfl stops) c rest
  rw [Combinator.padded_of_read (same.symm ▸ read)]
  refine .reads shorter ⟨?_, ends_dropWhile isBlank _, next, awaits, ?_⟩
  · exact Nat.lt_succ_of_le (Nat.le_trans (length_dropWhile_le isBlank _) shorter)
  · rw [begins.word c rest rfl continues, reaches]

/-- A child is read as far as the machine reads it. -/
theorem child_read (trees : ReadsTrees tree limit) (short : (c :: rest).length < limit)
    (visible : isBlank c = false) (notClosing : c ≠ ')')
    (begins : BeginsChild inner outer state (c :: rest)) (before : Before rest failure?) :
    Follows rest.length (run state (c :: rest)) (ReadsChild inner outer state (c :: rest))
      ((child tree).padded isBlank (c :: rest) failure?) := by
  by_cases opening : c = '('
  · subst opening
    exact child_read_bracket trees short begins before
  · cases continues : isTokenChar c with
    | true => exact child_read_word trees short visible continues opening begins before
    | false =>
        rcases eq_bracket_of_not_tokenChar visible continues with same | same
        · exact absurd same opening
        · exact absurd same notClosing

theorem BeginsChild.of_stops (stops : Stops text)
    (bracket : next? state '(' = some (.opened false (inner :: outer))) :
    BeginsChild inner outer state text where
  bracket rest split := by
    subst split
    exact run_cons_of_next? bracket rest
  word c rest split continues := by
    subst split
    exact absurd continues (ne_true_of_eq_false (stops c rfl))

theorem BeginsChild.between (visible : Visible text) :
    BeginsChild inner outer (.between inner outer) text where
  bracket rest split := by
    subst split
    exact run_cons_of_next? rfl rest
  word c rest split continues := by
    subst split
    have notOpening : c ≠ '(' := by
      rintro rfl
      cases continues
    have notClosing : c ≠ ')' := by
      rintro rfl
      cases continues
    have step : next? (.between inner outer) c = some (.word [c] inner outer) := by
      simp [next?, visible c rfl, notOpening, notClosing]
    exact run_cons_of_next? step rest

theorem Awaits.begins (awaits : Awaits inner outer text state failure?) (visible : Visible text) :
    BeginsChild inner outer state text := by
  cases awaits with
  | between before => exact .between visible
  | word filled stops =>
      subst filled
      exact .of_stops stops rfl
  | label named stops =>
      subst named
      exact .of_stops stops rfl

/-- No child begins where no token does and no bracket opens. -/
theorem child_refused (trees : ReadsTrees tree limit) (short : text.length < limit)
    (visible : Visible text) (stops : Stops text) (notOpening : '(' ∉ text.head?) :
    (child tree).padded isBlank text failure? =
      (none, some (Failure.after ⟨text, ["token"]⟩
        (some (Failure.after ⟨text, ["'('"]⟩ failure?)))) :=
  Combinator.padded_of_refused
    (visible.dropWhile_eq.symm ▸
      child_of_refused (trees.refuses short notOpening) stops)

/-- How reading goes on behind the children that have been read. -/
inductive Closes (inner : Frame) (outer : List Frame)
    (outcome : Except ReadError (Tree String)) :
    Forest String → List Char → Failure → Prop
  | closed {kids : Forest String} {rest : List Char} {failure : Failure} :
      failure.left.length = rest.length + 1 →
        outcome = run (close (kids.foldl Frame.add inner) outer) rest →
          Closes inner outer outcome kids (')' :: rest) failure
  | refused {kids : Forest String} {left : List Char} {failure : Failure} :
      ')' ∉ left.head? → Reports outcome (Failure.after ⟨left, ["')'"]⟩ (some failure)) →
        Closes inner outer outcome kids left failure

theorem Closes.cons {outcome : Except ReadError (Tree String)} {kid : Tree String}
    {kids : Forest String} {left : List Char} {failure : Failure}
    (closes : Closes (inner.add kid) outer outcome kids left failure) :
    Closes inner outer outcome (kid :: kids) left failure := by
  cases closes with
  | closed here closed => exact .closed here closed
  | refused open_ reports => exact .refused open_ reports

/-- Where no further child begins, the failures are those of a child and of the word before. -/
theorem Awaits.exists_refusal (awaits : Awaits inner outer text state failure?)
    (filled : inner.children ≠ []) :
    ∃ expected,
      Failure.after ⟨text, ["token"]⟩ (some (Failure.after ⟨text, ["'('"]⟩ failure?)) =
          ⟨text, expected⟩ ∧
        (text = [] → Reports (run state text)
          (Failure.after ⟨text, ["')'"]⟩ (some ⟨text, expected⟩))) := by
  cases awaits with
  | between before =>
      have first : Failure.after ⟨text, ["'('"]⟩ failure? = ⟨text, ["'('"]⟩ :=
        after_of_before before
      refine ⟨_, (congrArg (fun failure => Failure.after _ (some failure)) first).trans
        after_same, ?_⟩
      rintro rfl
      rcases inner with ⟨label, _ | ⟨kid, kids⟩⟩
      · exact absurd rfl filled
      · exact ⟨.child, rfl, rfl⟩
  | word same stops =>
      refine ⟨_, (congrArg (fun failure => Failure.after _ (some failure)) after_same).trans
        after_same, ?_⟩
      rintro rfl
      exact ⟨.wordOrChild, rfl, rfl⟩
  | label named => exact absurd (named ▸ rfl) filled

theorem Awaits.before (awaits : Awaits inner outer text state failure?)
    (further : rest.length < text.length) : Before rest failure? := by
  cases awaits with
  | between before => exact before.of_le (Nat.le_of_lt further)
  | word => exact before_some_iff.mpr further
  | label => exact before_some_iff.mpr further

theorem Awaits.run_closing (awaits : Awaits inner outer (')' :: rest) state failure?)
    (filled : inner.children ≠ []) :
    run state (')' :: rest) = run (close inner outer) rest := by
  cases awaits with
  | between before =>
      rcases inner with ⟨label, _ | ⟨kid, kids⟩⟩
      · exact absurd rfl filled
      · exact run_cons_of_next? rfl rest
  | word same stops =>
      subst same
      exact run_cons_of_next? rfl rest
  | label named => exact absurd (named ▸ rfl) filled

/-- Further children are read as far as the machine reads them. -/
theorem many_child (trees : ReadsTrees tree limit) (short : text.length < limit)
    (visible : Visible text) (filled : inner.children ≠ [])
    (awaits : Awaits inner outer text state failure?) :
    ∃ kids left failure,
      Combinator.many ((child tree).padded isBlank) text failure? =
          ((kids, left), some failure) ∧
        failure.left.length ≤ text.length ∧
          Closes inner outer (run state text) kids left failure := by
  induction length : text.length using Nat.strongRecOn
    generalizing text inner state failure? with
  | ind length inductionHypothesis =>
    obtain ⟨expected, same, reports⟩ := awaits.exists_refusal filled
    cases text with
    | nil =>
        have refused := Combinator.many_of_refused (@child_refused _ failure? _ _ trees short
          visible ends_nil (fun first => nomatch first))
        rw [same] at refused
        exact ⟨_, _, _, refused, Nat.le_of_eq length, .refused (fun first => nomatch first)
          (reports rfl)⟩
    | cons c rest =>
        by_cases closing : c = ')'
        · subst closing
          have refused := Combinator.many_of_refused (@child_refused _ failure? _ _ trees short
            visible (ends_cons_iff.mpr rfl) (fun first => nomatch first))
          rw [same] at refused
          exact ⟨_, _, _, refused, Nat.le_of_eq length, .closed rfl (awaits.run_closing filled)⟩
        · have follows := child_read trees short (visible c rfl) closing (awaits.begins visible)
            (awaits.before (Nat.lt_succ_self _))
          generalize outcome : (child tree).padded isBlank (c :: rest) failure? = result at follows
          cases follows with
          | @fails failure bound reports =>
              have further : failure.left.length < (c :: rest).length := Nat.lt_succ_of_le bound
              refine ⟨_, _, failure, Combinator.many_of_refused outcome,
                length ▸ Nat.le_of_lt further,
                .refused (fun first => closing (Option.some.inj first)) ?_⟩
              rw [after_of_lt further]
              exact reports
          | @reads value left failure bound goesOn =>
              obtain ⟨less, leftVisible, next, leftAwaits, reaches⟩ := goesOn
              obtain ⟨kids, end_, last, others, lastBound, closes⟩ :=
                inductionHypothesis left.length (length ▸ less) (Nat.lt_trans less short)
                  leftVisible (List.cons_ne_nil _ _) leftAwaits rfl
              refine ⟨value :: kids, end_, last, ?_, by omega, ?_⟩
              · rw [Combinator.many_of_read outcome less, others]
              · rw [reaches]
                exact closes.cons

/-- Without children an open bracket cannot be closed, and children are expected. -/
theorem Awaits.reports_children {label : String} (stops : Stops text)
    (visible : Visible text) (notOpening : '(' ∉ text.head?)
    (awaits : Awaits ⟨label, []⟩ outer text state failure?) :
    Reports (run state text) (Failure.after ⟨text, ["children"]⟩ failure?) := by
  have ends : text = [] ∨ ∃ rest, text = ')' :: rest := by
    cases text with
    | nil => exact .inl rfl
    | cons c rest =>
        rcases eq_bracket_of_not_tokenChar (visible c rfl) (stops c rfl) with rfl | rfl
        · exact absurd rfl notOpening
        · exact .inr ⟨rest, rfl⟩
  cases awaits with
  | between before =>
      have first : Failure.after ⟨text, ["children"]⟩ failure? = ⟨text, ["children"]⟩ :=
        after_of_before before
      rw [first]
      rcases ends with rfl | ⟨rest, rfl⟩
      · exact ⟨.children, rfl, rfl⟩
      · exact ⟨.children, rfl, rfl⟩
  | word same => cases congrArg Frame.children same
  | label named =>
      rcases ends with rfl | ⟨rest, rfl⟩
      · exact ⟨.labelOrChildren, rfl, rfl⟩
      · have same : Failure.after ⟨')' :: rest, ["children"]⟩ (some (stopped (')' :: rest))) =
            ⟨')' :: rest, ["something else", "children"]⟩ := after_same
        rw [same]
        exact ⟨.otherOrChildren, rfl, rfl⟩

/-- The children of a bracket are read as far as the machine reads them. -/
theorem children_read {label : String} (trees : ReadsTrees tree limit)
    (short : text.length < limit) (visible : Visible text)
    (awaits : Awaits ⟨label, []⟩ outer text state failure?) :
    Follows text.length (run state text) (Closes ⟨label, []⟩ outer (run state text))
      (children tree text failure?) := by
  by_cases begins : Stops text ∧ '(' ∉ text.head?
  · obtain ⟨stops, notOpening⟩ := begins
    have refused := @child_refused _ none _ _ trees short visible stops notOpening
    have same : Failure.after ⟨text, ["token"]⟩
        (some (Failure.after ⟨text, ["'('"]⟩ none)) = ⟨text, ["'('", "token"]⟩ := after_same
    rw [same] at refused
    unfold children
    rw [Combinator.labelled_of_here (Combinator.atLeastOnce_of_refused refused) rfl]
    exact .fails (length_after_le _ failure?) (awaits.reports_children stops visible notOpening)
  · cases text with
    | nil => exact absurd ⟨ends_nil, fun first => nomatch first⟩ begins
    | cons c rest =>
        have notClosing : c ≠ ')' := by
          rintro rfl
          exact begins ⟨ends_cons_iff.mpr rfl, fun first => nomatch first⟩
        have follows := child_read trees short (visible c rfl) notClosing (awaits.begins visible)
          before_none
        generalize outcome : (child tree).padded isBlank (c :: rest) none = result at follows
        unfold children
        cases follows with
        | @fails failure bound reports =>
            have further : failure.left.length < (c :: rest).length := Nat.lt_succ_of_le bound
            rw [Combinator.labelled_of_further (Combinator.atLeastOnce_of_refused outcome)
              (Nat.ne_of_lt further) (awaits.before further)]
            exact .fails (Nat.le_of_lt further) reports
        | @reads value left failure bound goesOn =>
            obtain ⟨less, leftVisible, next, leftAwaits, reaches⟩ := goesOn
            obtain ⟨kids, end_, last, others, lastBound, closes⟩ := many_child trees
              (Nat.lt_trans less short) leftVisible (List.cons_ne_nil _ _) leftAwaits
            have further : last.left.length < (c :: rest).length :=
              Nat.lt_of_le_of_lt lastBound less
            have read := Combinator.atLeastOnce_of_read outcome
            rw [others] at read
            rw [Combinator.labelled_of_further read (Nat.ne_of_lt further)
              (awaits.before further), reaches]
            exact .reads (Nat.le_of_lt further) closes.cons

end Composed

end ChartParsing.Tree
