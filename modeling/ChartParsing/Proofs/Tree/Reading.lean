import ChartParsing.Proofs.Tree.Layout
import ChartParsing.Tree.Reader

/-!
# What the reader accepts

`Reader.Completes` says of each state of the reader how the rest of a text must go on
for the whole to be the layout of a given tree.  Reading a character keeps this
relation in both directions (`Reader.completes_cons_iff`), so a run succeeds with a
tree exactly if the text completes its state (`Reader.run_eq_ok_iff`).  From the first
state these texts are the layouts of the tree.
-/

namespace ChartParsing.Tree.Reader

open ChartParsing.Text

/-! ## Skipping gaps and tokens -/

/-- `P` holds of what is left of a text after some blanks. -/
def AfterBlanks (P : List Char → Prop) (text : List Char) : Prop :=
  ∃ blanks rest, text = blanks ++ rest ∧ IsBlankText blanks ∧ P rest

/-- `P` holds of what is left of a text after the gap that ends a token. -/
def AfterGap (P : List Char → Prop) (text : List Char) : Prop :=
  ∃ gap rest, text = gap ++ rest ∧ TokenGap gap rest ∧ P rest

/-- `P` holds of the characters that continue a token and of what is left of a text
after them and the gap that ends the token. -/
def AfterToken (P : List Char → List Char → Prop) (text : List Char) : Prop :=
  ∃ more rest, text = more ++ rest ∧ (∀ c ∈ more, isTokenChar c = true) ∧
    AfterGap (P more) rest

section Skipping

variable {P : List Char → Prop} {Q : List Char → List Char → Prop} {c : Char}
  {rest : List Char}

theorem AfterBlanks.here {text : List Char} (holds : P text) : AfterBlanks P text :=
  ⟨[], text, rfl, isBlankText_nil, holds⟩

theorem afterBlanks_nil_iff : AfterBlanks P [] ↔ P [] := by
  constructor
  · rintro ⟨blanks, rest, empty, -, holds⟩
    obtain ⟨rfl, rfl⟩ := List.append_eq_nil_iff.mp empty.symm
    exact holds
  · exact .here

theorem afterBlanks_cons_iff :
    AfterBlanks P (c :: rest) ↔ P (c :: rest) ∨ isBlank c = true ∧ AfterBlanks P rest := by
  constructor
  · rintro ⟨_ | ⟨blank, blanks⟩, left, split, areBlank, holds⟩
    · rw [List.nil_append] at split
      rw [split]
      exact .inl holds
    · injection split with same split
      subst same
      rcases isBlankText_cons.mp areBlank with ⟨isBlank, areBlank⟩
      exact .inr ⟨isBlank, blanks, left, split, areBlank, holds⟩
  · rintro (holds | ⟨isBlank, blanks, left, rfl, areBlank, holds⟩)
    · exact .here holds
    · exact ⟨c :: blanks, left, rfl, isBlankText_cons.mpr ⟨isBlank, areBlank⟩, holds⟩

theorem not_afterToken_nil : ¬ AfterToken Q [] := by
  rintro ⟨more, rest, empty, -, gap, left, split, fits, -⟩
  obtain ⟨-, rfl⟩ := List.append_eq_nil_iff.mp empty.symm
  obtain ⟨rfl, rfl⟩ := List.append_eq_nil_iff.mp split.symm
  cases fits

/-- No gap starts with a character that continues the token. -/
theorem not_afterGap_of_isTokenChar (continues : isTokenChar c = true) :
    ¬ AfterGap P (c :: rest) := by
  rintro ⟨gap, left, split, fits, -⟩
  cases fits with
  | opening => injection split with same; subst same; contradiction
  | closing => injection split with same; subst same; contradiction
  | blank delimiter =>
      injection split with same
      subst same
      simp [isTokenChar, delimiter] at continues

theorem afterToken_cons_iff_of_isTokenChar (continues : isTokenChar c = true) :
    AfterToken Q (c :: rest) ↔ AfterToken (fun more => Q (c :: more)) rest := by
  constructor
  · rintro ⟨_ | ⟨first, more⟩, left, split, chars, gap⟩
    · rw [List.nil_append] at split
      rw [← split] at gap
      exact absurd gap (not_afterGap_of_isTokenChar continues)
    · injection split with same split
      subst same
      exact ⟨more, left, split, (List.forall_mem_cons.mp chars).2, gap⟩
  · rintro ⟨more, left, rfl, chars, gap⟩
    exact ⟨c :: more, left, rfl, List.forall_mem_cons.mpr ⟨continues, chars⟩, gap⟩

theorem afterToken_cons_iff_of_not_isTokenChar (stops : isTokenChar c = false) :
    AfterToken Q (c :: rest) ↔ AfterGap (Q []) (c :: rest) := by
  constructor
  · rintro ⟨_ | ⟨first, more⟩, left, split, chars, gap⟩
    · rw [List.nil_append] at split
      rwa [split]
    · injection split with same
      subst same
      rw [chars c List.mem_cons_self] at stops
      contradiction
  · intro gap
    exact ⟨[], c :: rest, rfl, nofun, gap⟩

theorem afterGap_bracket_iff (bracket : c = '(' ∨ c = ')') :
    AfterGap P (c :: rest) ↔ P (c :: rest) := by
  constructor
  · rintro ⟨gap, left, split, fits, holds⟩
    cases fits with
    | opening => rwa [split]
    | closing => rwa [split]
    | blank delimiter =>
        injection split with same
        subst same
        rcases bracket with rfl | rfl <;> contradiction
  · intro holds
    rcases bracket with rfl | rfl
    · exact ⟨[], _, rfl, .opening, holds⟩
    · exact ⟨[], _, rfl, .closing, holds⟩

theorem afterGap_delimiter_iff (delimiter : isDelimiter c = true) :
    AfterGap P (c :: rest) ↔ AfterBlanks P rest := by
  constructor
  · rintro ⟨gap, left, split, fits, holds⟩
    cases fits with
    | opening => injection split with same; subst same; contradiction
    | closing => injection split with same; subst same; contradiction
    | blank _ areBlank =>
        injection split with _ split
        exact ⟨_, left, split, areBlank, holds⟩
  · rintro ⟨blanks, left, rfl, areBlank, holds⟩
    exact ⟨c :: blanks, left, rfl, .blank delimiter areBlank, holds⟩

end Skipping

/-! ## What the rest of a text must be -/

/-- The tree of a frame when `kids` are added to the children read so far. -/
def Frame.fill (frame : Frame) (kids : Forest String) : Tree String :=
  .node frame.label (frame.children.reverse ++ kids)

@[simp]
theorem Frame.fill_add (frame : Frame) (child : Tree String) (kids : Forest String) :
    (frame.add child).fill kids = frame.fill (child :: kids) := by
  simp [fill, add]

@[simp]
theorem Frame.fill_nil (frame : Frame) : frame.fill [] = frame.toTree := by
  simp [fill, toTree]

@[simp]
theorem Frame.fill_start (label : String) (kids : Forest String) :
    (Frame.mk label []).fill kids = .node label kids :=
  rfl

theorem Frame.isLeaf_fill_cons (frame : Frame) (kid : Tree String)
    (kids : Forest String) : (frame.fill (kid :: kids)).isLeaf = false := by
  simp [fill, isLeaf]

theorem Frame.isLeaf_toTree (frame : Frame) :
    frame.toTree.isLeaf = frame.children.isEmpty := by
  simp [toTree, isLeaf]

/-- The rest of a text after the bracket of `tree` has been closed inside the open
brackets `outer`, if all of it is to be a layout of `whole`. -/
def Encloses (whole : Tree String) : List Frame → Tree String → List Char → Prop
  | [], tree, text => tree = whole ∧ IsBlankText text
  | frame :: outer, tree, text =>
      -- After blanks this is `Fills whole (frame.add tree) outer`, written out so that the
      -- recursion is on the frames.
      AfterBlanks
        (fun text => ∃ kids inside after, text = inside ++ after ∧
          Enclosed kids inside ∧ ((frame.add tree).fill kids).isLeaf = false ∧
          Encloses whole outer ((frame.add tree).fill kids) after)
        text

/-- The rest of a text from a child of `inner`, or its closing bracket, on. -/
def Fills (whole : Tree String) (inner : Frame) (outer : List Frame)
    (text : List Char) : Prop :=
  ∃ kids inside after, text = inside ++ after ∧ Enclosed kids inside ∧
    (inner.fill kids).isLeaf = false ∧ Encloses whole outer (inner.fill kids) after

/-- The rest of a text from each state on, if all of it is to be a layout of `whole`. -/
def Completes (whole : Tree String) : State → List Char → Prop
  | .before, text => whole.Layout text
  | .opened _ outer, text =>
      AfterBlanks
        (fun text => ∃ label rest, text = label ++ rest ∧ IsToken label ∧
          AfterGap (Fills whole ⟨String.ofList label, []⟩ outer) rest)
        text
  | .label read outer, text =>
      AfterToken (fun more => Fills whole ⟨textOf (more.reverse ++ read), []⟩ outer) text
  | .between inner outer, text => AfterBlanks (Fills whole inner outer) text
  | .word read inner outer, text =>
      AfterToken
        (fun more => Fills whole (inner.add (.leaf (textOf (more.reverse ++ read)))) outer)
        text
  | .complete tree, text => tree = whole ∧ IsBlankText text

variable {whole : Tree String} {inner : Frame} {outer : List Frame} {c : Char}
  {rest : List Char}

/-- Closing a bracket leaves what its tree is enclosed in. -/
theorem completes_close_iff {text : List Char} :
    Completes whole (close inner outer) text ↔
      Encloses whole outer inner.toTree text := by
  cases outer <;> rfl

/-! ## The first character of a part -/

/-- After an opening bracket there comes the rest of a bracketed tree, and then what the
tree is enclosed in. -/
theorem completes_opened_iff (skipped : Bool) :
    Completes whole (.opened skipped outer) rest ↔
      ∃ tree bracketed after, '(' :: rest = bracketed ++ after ∧
        Bracketed tree bracketed ∧ Encloses whole outer tree after := by
  constructor
  · rintro ⟨blanks, _, rfl, areBlank, label, _, rfl, token, gap, _, rfl, fits, kids, inside,
      after, rfl, enclosed, isInner, encloses⟩
    cases kids with
    | nil => contradiction
    | cons first kids =>
        have bracketed := Bracketed.node areBlank (by rwa [String.toList_ofList (l := label)])
          (fits.of_append enclosed.ne_nil) enclosed
        exact ⟨_, _, after, by simp, bracketed, encloses⟩
  · rintro ⟨tree, _, after, split, bracketed, encloses⟩
    cases bracketed with
    | @node label first kids blanks gap inside areBlank token fits enclosed =>
        simp only [List.cons_append, List.append_assoc, List.cons.injEq, true_and] at split
        refine ⟨blanks, _, split, areBlank, label.toList, _, rfl, token, gap, _, rfl,
          fits.append after, first :: kids, inside, after, rfl, enclosed, rfl, ?_⟩
        rwa [Frame.fill_start, String.ofList_toList]

/-- A text that is to be read as a whole is an opened bracket after some blanks. -/
theorem completes_before_iff {text : List Char} (skipped : Bool) :
    Completes whole .before text ↔
      AfterBlanks
        (fun text => ∃ rest, text = '(' :: rest ∧
          Completes whole (.opened skipped []) rest)
        text := by
  simp only [completes_opened_iff]
  constructor
  · rintro ⟨before, bracketed, after, rfl, areBlank, isBracketed, blank⟩
    obtain ⟨inside, rfl⟩ := isBracketed.exists_cons
    exact ⟨before, _, List.append_assoc .., areBlank, inside ++ after, rfl, whole, _, after,
      rfl, isBracketed, rfl, blank⟩
  · rintro ⟨before, _, rfl, areBlank, rest, rfl, _, bracketed, after, split, isBracketed,
      rfl, blank⟩
    exact ⟨before, bracketed, after, by rw [split, List.append_assoc], areBlank,
      isBracketed, blank⟩

/-- A label starts with a token character that is not blank. -/
theorem completes_opened_cons_iff_or (skipped : Bool) :
    Completes whole (.opened skipped outer) (c :: rest) ↔
      (isBlank c = false ∧ isTokenChar c = true) ∧
        Completes whole (.label [c] outer) rest ∨
      isBlank c = true ∧ Completes whole (.opened true outer) rest := by
  refine afterBlanks_cons_iff.trans (or_congr ?_ Iff.rfl)
  constructor
  · rintro ⟨label, left, split, token, gap⟩
    obtain ⟨first, more, rfl⟩ := token.exists_cons
    obtain ⟨rfl, rfl⟩ := List.cons.inj split
    rcases isToken_cons.mp token with ⟨visible, continues, chars⟩
    refine ⟨⟨visible, continues⟩, more, left, rfl, chars, ?_⟩
    simpa [textOf] using gap
  · rintro ⟨⟨visible, continues⟩, more, left, rfl, chars, gap⟩
    refine ⟨c :: more, left, rfl, isToken_cons.mpr ⟨visible, continues, chars⟩, ?_⟩
    simpa [textOf] using gap

theorem word_of_token {word : String} {kids : Forest String}
    {gap text after : List Char}
    (split : c :: rest = word.toList ++ gap ++ text ++ after)
    (token : IsToken word.toList) (fits : TokenGap gap text) (enclosed : Enclosed kids text)
    (encloses : Encloses whole outer (inner.fill (.leaf word :: kids)) after) :
    (isBlank c = false ∧ isTokenChar c = true) ∧
      Completes whole (.word [c] inner outer) rest := by
  obtain ⟨first, more, written⟩ := token.exists_cons
  rw [written] at split token
  simp only [List.cons_append, List.append_assoc, List.cons.injEq] at split
  rcases split with ⟨rfl, rfl⟩
  rcases isToken_cons.mp token with ⟨visible, continues, chars⟩
  have read : textOf (more.reverse ++ [c]) = word := by
    rw [← String.ofList_toList (s := word), written]
    simp [textOf]
  refine ⟨⟨visible, continues⟩, more, _, rfl, chars, gap, _, rfl, fits.append after, kids,
    text, after, rfl, enclosed, ?_, ?_⟩
  · rw [Frame.fill_add]
    exact inner.isLeaf_fill_cons _ _
  · rwa [Frame.fill_add, read]

theorem fills_of_word (visible : isBlank c = false) (continues : isTokenChar c = true)
    (completes : Completes whole (.word [c] inner outer) rest) :
    Fills whole inner outer (c :: rest) := by
  obtain ⟨more, _, rfl, chars, gap, _, rfl, fits, kids, text, after, rfl, enclosed, -,
    encloses⟩ := completes
  rw [Frame.fill_add] at encloses
  have written : (textOf (more.reverse ++ [c])).toList = c :: more := by simp [textOf]
  have token : IsToken (textOf (more.reverse ++ [c])).toList := by
    rw [written]
    exact isToken_cons.mpr ⟨visible, continues, chars⟩
  refine ⟨_, _, after, ?_, .word token (fits.of_append enclosed.ne_nil) enclosed,
    inner.isLeaf_fill_cons _ _, encloses⟩
  rw [written]
  simp

/-- Inside a bracket there comes a bracketed child, the closing bracket, or a word.  The
three parts start with different characters, so the first one decides. -/
theorem fills_cons_iff :
    Fills whole inner outer (c :: rest) ↔
      c = '(' ∧ Completes whole (.opened false (inner :: outer)) rest ∨
      c = ')' ∧ inner.children.isEmpty = false ∧
        Completes whole (close inner outer) rest ∨
      (isBlank c = false ∧ isTokenChar c = true) ∧
        Completes whole (.word [c] inner outer) rest := by
  rw [completes_opened_iff, completes_close_iff]
  constructor
  · rintro ⟨kids, inside, after, split, enclosed, isInner, encloses⟩
    cases enclosed with
    | bracket =>
        obtain ⟨rfl, rfl⟩ := List.cons.inj split
        rw [Frame.fill_nil] at isInner encloses
        exact .inr (.inl ⟨rfl, inner.isLeaf_toTree ▸ isInner, encloses⟩)
    | word token fits enclosed =>
        exact .inr (.inr (word_of_token split token fits enclosed encloses))
    | @tree first kids bracketed gap text isBracketed blank enclosed =>
        obtain ⟨within, rfl⟩ := isBracketed.exists_cons
        rw [List.append_assoc, List.append_assoc] at split
        obtain ⟨rfl, rfl⟩ := List.cons.inj split
        rw [← Frame.fill_add] at isInner encloses
        exact .inl ⟨rfl, first, _, _, by simp, isBracketed, gap, _, rfl, blank, kids, text,
          after, rfl, enclosed, isInner, encloses⟩
  · rintro (⟨rfl, first, bracketed, _, split, isBracketed, gap, _, rfl, blank, kids, text,
      after, rfl, enclosed, isInner, encloses⟩ | ⟨rfl, isInner, encloses⟩ |
      ⟨⟨visible, continues⟩, completes⟩)
    · rw [Frame.fill_add] at isInner encloses
      exact ⟨first :: kids, _, after, by rw [split]; simp,
        .tree isBracketed blank enclosed, isInner, encloses⟩
    · rw [← Frame.isLeaf_toTree] at isInner
      rw [← Frame.fill_nil] at isInner encloses
      exact ⟨[], [')'], rest, rfl, .bracket, isInner, encloses⟩
    · exact fills_of_word visible continues completes

theorem not_fills_nil : ¬ Fills whole inner outer [] := by
  rintro ⟨kids, inside, after, empty, enclosed, -⟩
  exact enclosed.ne_nil (List.append_eq_nil_iff.mp empty.symm).1

/-! ## The end of a token -/

/-- The state after the character that ends a token, where `inner` is the innermost frame
with the token in it. -/
def ended? (inner : Frame) (outer : List Frame) (c : Char) : Option State :=
  if c = '(' then some (.opened false (inner :: outer))
  else if c = ')' then
    if inner.children.isEmpty then none else some (close inner outer)
  else some (.between inner outer)

theorem next?_label_eq_ended? {read : List Char} (stops : isTokenChar c = false) :
    next? (.label read outer) c = ended? ⟨textOf read, []⟩ outer c := by
  simp [next?, ended?, stops]

theorem next?_word_eq_ended? {read : List Char} (stops : isTokenChar c = false) :
    next? (.word read inner outer) c =
      ended? (inner.add (.leaf (textOf read))) outer c := by
  simp [next?, ended?, stops, Frame.add]

/-- A token ends at a bracket, or at a delimiter that starts a gap. -/
theorem afterGap_fills_cons_iff (stops : isTokenChar c = false) :
    AfterGap (Fills whole inner outer) (c :: rest) ↔
      ∃ next, ended? inner outer c = some next ∧ Completes whole next rest := by
  by_cases opening : c = '('
  · subst opening
    rw [afterGap_bracket_iff (.inl rfl), fills_cons_iff]
    simp [ended?, stops]
  by_cases closing : c = ')'
  · subst closing
    rw [afterGap_bracket_iff (.inr rfl), fills_cons_iff]
    simp [ended?, stops, and_assoc]
  · have gap : AfterGap (Fills whole inner outer) (c :: rest) ↔
        Completes whole (.between inner outer) rest :=
      afterGap_delimiter_iff (isDelimiter_of_not_isTokenChar stops opening closing)
    simp [gap, ended?, opening, closing]

/-! ## Steps and runs -/

theorem completes_before_cons_iff :
    Completes whole .before (c :: rest) ↔
      ∃ next, next? .before c = some next ∧ Completes whole next rest := by
  rw [completes_before_iff false, afterBlanks_cons_iff, ← completes_before_iff false]
  cases blank : isBlank c with
  | true =>
      have noOpening : c ≠ '(' := by rintro rfl; contradiction
      simp [next?, blank, noOpening]
  | false => simp [next?, blank, and_assoc]

theorem completes_opened_cons_iff {skipped : Bool} :
    Completes whole (.opened skipped outer) (c :: rest) ↔
      ∃ next, next? (.opened skipped outer) c = some next ∧ Completes whole next rest := by
  rw [completes_opened_cons_iff_or]
  cases blank : isBlank c with
  | true => simp [next?, blank]
  | false => simp [next?, blank, and_assoc]

theorem completes_label_cons_iff {read : List Char} :
    Completes whole (.label read outer) (c :: rest) ↔
      ∃ next, next? (.label read outer) c = some next ∧ Completes whole next rest := by
  cases continues : isTokenChar c with
  | true =>
      simp [Completes, next?, continues, afterToken_cons_iff_of_isTokenChar continues]
  | false =>
      rw [next?_label_eq_ended? continues, ← afterGap_fills_cons_iff continues]
      exact afterToken_cons_iff_of_not_isTokenChar continues

theorem completes_between_cons_iff :
    Completes whole (.between inner outer) (c :: rest) ↔
      ∃ next, next? (.between inner outer) c = some next ∧ Completes whole next rest := by
  have skip : Completes whole (.between inner outer) (c :: rest) ↔
      Fills whole inner outer (c :: rest) ∨
        isBlank c = true ∧ Completes whole (.between inner outer) rest :=
    afterBlanks_cons_iff
  rw [skip, fills_cons_iff]
  cases blank : isBlank c with
  | true =>
      have noOpening : c ≠ '(' := by rintro rfl; contradiction
      have noClosing : c ≠ ')' := by rintro rfl; contradiction
      simp [next?, blank, noOpening, noClosing]
  | false =>
      by_cases opening : c = '('
      · subst opening
        simp [next?, blank, isTokenChar]
      by_cases closing : c = ')'
      · subst closing
        simp [next?, blank, isTokenChar, and_assoc]
      · simp [next?, blank, opening, closing,
          isTokenChar_of_visible blank opening closing]

theorem completes_word_cons_iff {read : List Char} :
    Completes whole (.word read inner outer) (c :: rest) ↔
      ∃ next, next? (.word read inner outer) c = some next ∧ Completes whole next rest := by
  cases continues : isTokenChar c with
  | true =>
      simp [Completes, next?, continues, afterToken_cons_iff_of_isTokenChar continues]
  | false =>
      rw [next?_word_eq_ended? continues, ← afterGap_fills_cons_iff continues]
      exact afterToken_cons_iff_of_not_isTokenChar continues

theorem completes_complete_cons_iff {tree : Tree String} :
    Completes whole (.complete tree) (c :: rest) ↔
      ∃ next, next? (.complete tree) c = some next ∧ Completes whole next rest := by
  have skip : Completes whole (.complete tree) (c :: rest) ↔
      isBlank c = true ∧ Completes whole (.complete tree) rest := by
    simp [Completes, and_left_comm]
  rw [skip]
  simp [next?, and_assoc]

/-- Reading a character keeps what the rest of the text must be, and a character is
refused only where no rest would do. -/
theorem completes_cons_iff {state : State} :
    Completes whole state (c :: rest) ↔
      ∃ next, next? state c = some next ∧ Completes whole next rest := by
  cases state with
  | before => exact completes_before_cons_iff
  | opened skipped outer => exact completes_opened_cons_iff
  | label read outer => exact completes_label_cons_iff
  | between inner outer => exact completes_between_cons_iff
  | word read inner outer => exact completes_word_cons_iff
  | complete tree => exact completes_complete_cons_iff

/-- Nothing is left to read in the last state alone. -/
theorem completes_nil_iff {state : State} :
    Completes whole state [] ↔ state = .complete whole := by
  cases state with
  | before => simp [completes_before_iff false, afterBlanks_nil_iff]
  | opened skipped outer =>
      simp only [Completes, afterBlanks_nil_iff, reduceCtorEq, iff_false]
      rintro ⟨label, rest, empty, token, -⟩
      exact token.nonempty (List.append_eq_nil_iff.mp empty.symm).1
  | label read outer => simp [Completes, not_afterToken_nil]
  | between inner outer => simp [Completes, afterBlanks_nil_iff, not_fills_nil]
  | word read inner outer => simp [Completes, not_afterToken_nil]
  | complete tree => simp [Completes]

/-- A run succeeds with a tree exactly if the text makes a layout of that tree
complete. -/
theorem run_eq_ok_iff {state : State} {text : List Char} {tree : Tree String} :
    run state text = .ok tree ↔ Completes tree state text := by
  induction text generalizing state with
  | nil =>
      rw [completes_nil_iff]
      cases state <;> simp [run]
  | cons c rest inductionHypothesis =>
      rw [completes_cons_iff]
      -- A run from each state takes this one step, but only a case on the state shows it.
      cases step : next? state c with
      | none => cases state <;> simp [run, step]
      | some next => cases state <;> simp [run, step, inductionHypothesis]

end ChartParsing.Tree.Reader

namespace ChartParsing.Tree

/-! ## Whole texts -/

theorem read_eq_ok_iff {text : String} {tree : Tree String} :
    read text = .ok tree ↔ tree.Layout text.toList :=
  Reader.run_eq_ok_iff

/-- The rendering of a readable tree reads back as the tree. -/
theorem Readable.read_render {tree : Tree String} (readable : tree.Readable) :
    read tree.render = .ok tree :=
  read_eq_ok_iff.mpr readable.layout_render

theorem readable_of_read_eq_ok {text : String} {tree : Tree String}
    (accepted : read text = .ok tree) : tree.Readable :=
  (read_eq_ok_iff.mp accepted).readable

/-- The reader accepts exactly the layouts of readable trees, and no text is a layout of
two trees. -/
theorem read_exact (text : String) :
    (∀ tree, read text = .ok tree ↔ tree.Readable ∧ tree.Layout text.toList) ∧
      ∀ first second : Tree String,
        first.Layout text.toList → second.Layout text.toList → first = second := by
  constructor
  · intro tree
    rw [read_eq_ok_iff]
    exact ⟨fun layout => ⟨layout.readable, layout⟩, And.right⟩
  · intro first second layout otherLayout
    have accepted := read_eq_ok_iff.mpr layout
    rw [read_eq_ok_iff.mpr otherLayout] at accepted
    exact (Except.ok.inj accepted).symm

/-- Blanks of both kinds stand around the parts of this text, and one more, a no-break
space inside a label, is a part of it. -/
theorem read_exact_spaced :
    (Tree.node "ROOT" [.node "NN\u00a0S" [.leaf "Odds"], .leaf "and"]).Layout
        "\u00a0(\u3000ROOT(NN\u00a0S\tOdds)and\n\u2003)\u2003".toList ∧
      ∀ other : Tree String,
        other.Layout "\u00a0(\u3000ROOT(NN\u00a0S\tOdds)and\n\u2003)\u2003".toList →
          other = .node "ROOT" [.node "NN\u00a0S" [.leaf "Odds"], .leaf "and"] := by
  have layout := (((read_exact _).1 _).mp (rfl :
    read "\u00a0(\u3000ROOT(NN\u00a0S\tOdds)and\n\u2003)\u2003" =
      .ok (.node "ROOT" [.node "NN\u00a0S" [.leaf "Odds"], .leaf "and"]))).2
  exact ⟨layout, fun other otherLayout => (read_exact _).2 other _ otherLayout layout⟩

/-- A tree is read from some text exactly if it is readable, and then from its own
rendering, so that reading and rendering again changes nothing. -/
theorem read_render_exact (tree : Tree String) :
    ((∃ text, read text = .ok tree) ↔ tree.Readable) ∧
      (read tree.render = .ok tree ↔ tree.Readable) ∧
      ∀ text, read text = .ok tree →
        read tree.render = .ok tree ∧ (read tree.render).map render = .ok tree.render := by
  refine ⟨⟨?_, fun readable => ⟨_, readable.read_render⟩⟩,
    ⟨readable_of_read_eq_ok, Readable.read_render⟩, ?_⟩
  · rintro ⟨text, accepted⟩
    exact readable_of_read_eq_ok accepted
  · intro text accepted
    have readBack := (readable_of_read_eq_ok accepted).read_render
    exact ⟨readBack, by rw [readBack]; rfl⟩

theorem read_render_exact_spaced :
    read "  ( ROOT\n\t(NN  Odds) )\n" =
        .ok (.node "ROOT" [.node "NN" [.leaf "Odds"]]) ∧
      read (Tree.node "ROOT" [.node "NN" [.leaf "Odds"]]).render =
        .ok (.node "ROOT" [.node "NN" [.leaf "Odds"]]) := by
  have accepted : read "  ( ROOT\n\t(NN  Odds) )\n" =
      .ok (.node "ROOT" [.node "NN" [.leaf "Odds"]]) := rfl
  exact ⟨accepted, ((read_render_exact _).2.2 _ accepted).1⟩

end ChartParsing.Tree
