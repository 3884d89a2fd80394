import ChartParsing.Proofs.Tree.Children

/-!
# The machine reads as the composed reader does

The reader of written trees takes one character at a time and never goes back, where the reader
composed of combinators tries one alternative after the other.  Both read the same trees, and
where they fail they have got to the same place and expect the same there
(`Tree.read_composed`).

A bracket is read as the machine reads it if those inside it are
(`Composed.bracketed_reads`), and so all brackets are, by induction on the depth to which the
composed reader refers to itself.
-/

namespace ChartParsing.Tree

open ChartParsing.Text
open Text.Failure Reader

namespace Composed

variable {text rest : List Char} {c : Char} {failure? : Option Failure} {outer : List Frame}
  {tree : Combinator (Tree String)} {limit : Nat}

/-! ## Labels -/

/-- After an opening bracket the machine reads blanks and keeps in mind whether there were
any. -/
theorem run_opened (text : List Char) :
    Visible text ∨
      (text.dropWhile isBlank).length < text.length ∧
        ∀ outer, run (.opened false outer) text =
          run (.opened true outer) (text.dropWhile isBlank) := by
  by_cases visible : Visible text
  · exact .inl visible
  · obtain ⟨c, rest, rfl, blank⟩ := exists_cons_of_not_ends visible
    have step (outer : List Frame) (skipped : Bool) (c : Char) (blank : isBlank c = true) :
        next? (.opened skipped outer) c = some (.opened true outer) := if_pos blank
    rw [List.dropWhile_cons_of_pos blank]
    refine .inr ⟨Nat.lt_succ_of_le (length_dropWhile_le isBlank rest), fun outer => ?_⟩
    rw [run_cons_of_next? (step outer false c blank)]
    exact run_while isBlank (fun _ => .opened true outer) (fun _ => step outer true) [] rest

/-- What the machine expects where no label begins. -/
theorem reports_opened (visible : Visible text) (stops : Stops text) (outer : List Frame) :
    Reports (run (.opened false outer) text) ⟨text, ["label"]⟩ ∧
      Reports (run (.opened true outer) text) ⟨text, ["token"]⟩ := by
  cases text with
  | nil => exact ⟨⟨.label, rfl, rfl⟩, ⟨.token, rfl, rfl⟩⟩
  | cons c rest =>
      have refused (skipped : Bool) : next? (.opened skipped outer) c = none := by
        simp [next?, visible c rfl, stops c rfl]
      exact ⟨⟨.label, rfl, run_cons_of_refused (refused false) rest⟩,
        ⟨.token, rfl, run_cons_of_refused (refused true) rest⟩⟩

/-- A label is read as the machine reads it. -/
theorem label_read (before : Before text failure?) (outer : List Frame) :
    Follows text.length (run (.opened false outer) text)
      (fun name left failure => left.length < text.length ∧ Visible left ∧
        ∃ next, Awaits ⟨name, []⟩ outer left next (some failure) ∧
          run (.opened false outer) text = run next left)
      (label text failure?) := by
  have visible := ends_dropWhile isBlank text
  have shorter := length_dropWhile_le isBlank text
  unfold label
  by_cases stops : Stops (text.dropWhile isBlank)
  · have refused := Combinator.padded_of_refused (@token_of_stops _ none stops)
    rcases run_opened text with here | ⟨further, skips⟩
    · have same := here.dropWhile_eq
      have first : Failure.after ⟨text, ["label"]⟩ failure? = ⟨text, ["label"]⟩ :=
        after_of_before before
      rw [Combinator.labelled_of_here refused same, first]
      exact .fails (Nat.le_refl _) (reports_opened here (same ▸ stops) outer).1
    · rw [Combinator.labelled_of_further refused (Nat.ne_of_lt further) (before.of_le shorter),
        skips]
      exact .fails shorter (reports_opened visible stops outer).2
  · obtain ⟨skipped, skips⟩ : ∃ skipped, run (.opened false outer) text =
        run (.opened skipped outer) (text.dropWhile isBlank) := by
      rcases run_opened text with here | ⟨-, skips⟩
      · exact ⟨false, by rw [here.dropWhile_eq]⟩
      · exact ⟨true, skips outer⟩
    obtain ⟨c, rest, split, continues⟩ := exists_cons_of_not_ends stops
    rw [split] at visible shorter skips
    have tokenShorter := length_dropWhile_le isTokenChar rest
    have leftShorter := length_dropWhile_le isBlank (rest.dropWhile isTokenChar)
    rw [List.length_cons] at shorter
    have further : (rest.dropWhile isTokenChar).length < text.length := by omega
    have read := Combinator.padded_of_read (split ▸ token_cons continues before_none)
    obtain ⟨next, awaits, reaches⟩ := exists_awaits_of_token (State.label · outer)
      (fun name => ⟨name, []⟩) (fun _ _ continues => if_pos continues)
      (fun _ _ => next?_label_eq_ended?) (fun _ _ stops => .label rfl stops) c rest
    have step : next? (.opened skipped outer) c = some (.label [c] outer) :=
      (if_neg (ne_true_of_eq_false (ends_cons_iff.mp visible))).trans (if_pos continues)
    rw [Combinator.labelled_of_further read (Nat.ne_of_lt further)
      (before.of_le (Nat.le_of_lt further))]
    refine .reads (Nat.le_of_lt further) ⟨by omega, ends_dropWhile isBlank _, next, awaits, ?_⟩
    rw [skips, run_cons_of_next? step, reaches]

/-! ## Brackets -/

section

variable {failed? lastFailed? : Option Failure} {name : String} {left : List Char}
  {kids : Forest String}

theorem bracketed_of_refused (refused : '(' ∉ text.head?) :
    bracketed tree text failure? = (none, some (Failure.after ⟨text, ["'('"]⟩ failure?)) := by
  simp only [bracketed, Combinator.map, Combinator.thenIgnore, Combinator.ignoreThen,
    Combinator.followedBy, Combinator.just_of_refused refused]

theorem bracketed_of_label_refused (refused : label rest failure? = (none, failed?)) :
    bracketed tree ('(' :: rest) failure? = (none, failed?) := by
  simp only [bracketed, Combinator.map, Combinator.thenIgnore, Combinator.ignoreThen,
    Combinator.followedBy, Combinator.just_same, refused]

theorem bracketed_of_label (read : label rest failure? = (some (name, text), failed?)) :
    bracketed tree ('(' :: rest) failure? =
      (((children tree).thenIgnore (.just ')')).map (Tree.node name)) text failed? := by
  simp only [bracketed, Combinator.map, Combinator.thenIgnore, Combinator.ignoreThen,
    Combinator.followedBy, Combinator.just_same, read]
  cases children tree text failed? with
  | mk found? failed? =>
      cases found? with
      | none => rfl
      | some found =>
          dsimp only
          cases Combinator.just ')' found.2 failed? with
          | mk closing? failed? => cases closing? <;> rfl

end

/-- The machine builds a tree from its children one by one. -/
theorem toTree_foldl_add (frame : Frame) (kids : Forest String) :
    (kids.foldl Frame.add frame).toTree = frame.fill kids := by
  induction kids generalizing frame with
  | nil => exact (Frame.fill_nil frame).symm
  | cons kid rest inductionHypothesis =>
      rw [List.foldl_cons, inductionHypothesis, Frame.fill_add]

/-- A bracketed tree is read as the machine reads it if those inside it are. -/
theorem bracketed_reads (trees : ReadsTrees tree limit) :
    ReadsTrees (bracketed tree) (limit + 1) := by
  constructor
  case refuses => exact fun _ notOpening => bracketed_of_refused notOpening
  case reads =>
    intro rest failure? outer short before
    have follows := label_read before outer
    generalize labelOutcome : label rest failure? = result at follows
    cases follows with
    | fails bound reports =>
        rw [bracketed_of_label_refused labelOutcome]
        exact .fails bound reports
    | @reads name left failure bound goesOn =>
        obtain ⟨shorter, visible, next, awaits, reaches⟩ := goesOn
        rw [bracketed_of_label labelOutcome, reaches]
        have follows := children_read trees (Nat.lt_trans shorter (Nat.lt_of_succ_lt_succ short))
          visible awaits
        generalize childrenOutcome : children tree left (some failure) = result at follows
        cases follows with
        | fails bound reports =>
            rw [Combinator.map_of_refused (Combinator.thenIgnore_of_refused childrenOutcome)]
            exact .fails (by omega) reports
        | @reads kids end_ last bound closes =>
            cases closes with
            | @closed _ after here closed =>
                rw [Combinator.map_of_read (Combinator.thenIgnore_of_read childrenOutcome
                  Combinator.just_same)]
                exact .reads (by omega) ⟨by omega, _,
                  (toTree_foldl_add _ kids).trans (Frame.fill_start name kids), closed⟩
            | refused open_ reports =>
                rw [Combinator.map_of_refused (Combinator.thenIgnore_of_read_refused
                  childrenOutcome (Combinator.just_of_refused open_))]
                have within : last.left.length ≤ rest.length := by omega
                exact .fails (length_after_some _ last ▸ Nat.le_trans (Nat.min_le_left _ _) within)
                  reports

theorem unrolled_reads (depth : Nat) : ReadsTrees (Combinator.unrolled bracketed depth) depth := by
  induction depth with
  | zero =>
      constructor
      case refuses => exact fun short => absurd short (Nat.not_lt_zero _)
      case reads => exact fun _ short => absurd short (Nat.not_lt_zero _)
  | succ depth inductionHypothesis => exact bracketed_reads inductionHypothesis

/-! ## Whole texts -/

/-- Behind blanks a tree is read as the machine reads it from the start. -/
theorem recursive_reads (visible : Visible text) :
    Follows text.length (run .before text)
      (fun tree left failure => left.length < failure.left.length ∧
        run .before text = run (.complete tree) left)
      (Combinator.recursive bracketed text none) := by
  have trees := unrolled_reads (text.length + 1)
  have short := Nat.lt_succ_self text.length
  unfold Combinator.recursive
  by_cases opening : '(' ∈ text.head?
  · obtain ⟨rest, rfl⟩ := List.head?_eq_some_iff.mp opening
    have step : run .before ('(' :: rest) = run (.opened false []) rest := rfl
    have follows := trees.reads [] short (@before_none rest)
    generalize Combinator.unrolled bracketed (('(' :: rest).length + 1) ('(' :: rest) none =
      result at follows
    rw [step]
    cases follows with
    | fails bound reports => exact .fails (Nat.le_succ_of_le bound) reports
    | reads bound goesOn =>
        obtain ⟨further, frame, rfl, reaches⟩ := goesOn
        exact .reads (Nat.le_succ_of_le bound) ⟨further, reaches⟩
  · rw [trees.refuses short opening]
    refine .fails (Nat.le_refl _) ⟨.opening, rfl, ?_⟩
    cases text with
    | nil => rfl
    | cons c rest =>
        have notOpening : c ≠ '(' := fun same => opening (congrArg some same)
        have refused : next? .before c = none := by
          simp [next?, visible c rfl, notOpening]
        exact run_cons_of_refused refused rest

/-- A whole text is read as the machine reads it. -/
theorem whole_reads (text : List Char) :
    Follows text.length (run .before text) (fun tree _ _ => run .before text = .ok tree)
      (whole text none) := by
  have shorter := length_dropWhile_le isBlank text
  have follows := recursive_reads (ends_dropWhile isBlank text)
  rw [← run_before] at follows
  generalize outcome : Combinator.recursive bracketed (text.dropWhile isBlank) none = result
    at follows
  unfold whole
  cases follows with
  | fails bound reports =>
      rw [Combinator.thenIgnore_of_refused (Combinator.padded_of_refused outcome)]
      exact .fails (Nat.le_trans bound shorter) reports
  | @reads tree left failure bound goesOn =>
      obtain ⟨further, reaches⟩ := goesOn
      have read := Combinator.padded_of_read outcome
      have leftShorter := length_dropWhile_le isBlank left
      have visible := ends_dropWhile isBlank left
      rw [run_complete] at reaches
      generalize left.dropWhile isBlank = behind at read leftShorter visible reaches
      cases behind with
      | nil =>
          rw [Combinator.thenIgnore_of_read read rfl]
          exact .reads (Nat.le_trans bound shorter) reaches
      | cons c rest =>
          have last : Failure.after ⟨c :: rest, ["end of input"]⟩ (some failure) =
              ⟨c :: rest, ["end of input"]⟩ :=
            after_of_before (before_some_iff.mpr (Nat.lt_of_le_of_lt leftShorter further))
          have refused : next? (.complete tree) c = none :=
            if_neg (ne_true_of_eq_false (ends_cons_iff.mp visible))
          have behind : (c :: rest).length ≤ text.length := by omega
          rw [Combinator.thenIgnore_of_read_refused read rfl, last, reaches]
          exact .fails behind ⟨.endOfInput, rfl, run_cons_of_refused refused rest⟩

end Composed

open Composed

theorem Reader.Expected.text_eq_listed (expected : Expected) :
    expected.text = listed expected.alternatives := by
  cases expected <;> rfl

/-- The machine reads the trees that the composed reader reads.  It fails in the same place, with
the same expectations and the same message. -/
theorem read_composed (text : String) :
    (∃ tree, read text = .ok tree ∧ Composed.read text = .ok tree) ∨
      ∃ error failure, read text = .error error ∧ Composed.read text = .error failure ∧
        error.found = failure.left.head? ∧
          error.expected.alternatives = failure.expected ∧ error.message = message failure := by
  have follows := whole_reads text.toList
  unfold read Composed.read
  generalize whole text.toList none = result at follows
  cases follows with
  | @reads tree _ _ _ accepts => exact .inl ⟨tree, accepts, rfl⟩
  | @fails failure _ reports =>
      obtain ⟨expected, same, fails⟩ := reports
      refine .inr ⟨_, failure, fails, rfl, rfl, same, ?_⟩
      unfold ReadError.message message
      dsimp only
      rw [expected.text_eq_listed, same]
      cases failure.left with
      | nil => rfl
      | cons c rest => rfl

end ChartParsing.Tree
