import ChartParsing.Text.Blank
import ChartParsing.Tree.Basic
import ChartParsing.Tree.Printer

/-!
# The layouts of a tree

`Tree.Layout` says which texts are written forms of a tree: labels and words between
round brackets, with gaps of blanks where they are allowed or needed.  The relation
speaks of texts only and knows nothing of how they are read.

The labels of a tree that has a layout are tokens, and the tree is not a word alone
(`Tree.Layout.readable`).  Conversely every readable tree is laid out by its rendering
(`Tree.Readable.layout_render`).
-/

namespace ChartParsing

open ChartParsing.Text

/-! ## Tokens and gaps -/

namespace Text

/-- A text of blanks only. -/
def IsBlankText (text : List Char) : Prop :=
  ∀ c ∈ text, isBlank c = true

/-- A text that can stand as a label: it is not empty, holds neither brackets nor
delimiters, and does not start with a blank. -/
structure IsToken (text : List Char) : Prop where
  nonempty : text ≠ []
  chars : ∀ c ∈ text, isTokenChar c = true
  visible : ∀ c ∈ text.head?, isBlank c = false

/-- The gap between a token and the text that follows it.  Only before a bracket may
there be none, since a token ends at brackets and delimiters alone. -/
inductive TokenGap : (gap following : List Char) → Prop
  | opening {following : List Char} : TokenGap [] ('(' :: following)
  | closing {following : List Char} : TokenGap [] (')' :: following)
  | blank {delimiter : Char} {blanks following : List Char} :
      isDelimiter delimiter = true → IsBlankText blanks →
      TokenGap (delimiter :: blanks) following

@[simp]
theorem isBlankText_nil : IsBlankText [] :=
  nofun

@[simp]
theorem isBlankText_cons {c : Char} {text : List Char} :
    IsBlankText (c :: text) ↔ isBlank c = true ∧ IsBlankText text :=
  List.forall_mem_cons

@[simp]
theorem isToken_cons {c : Char} {text : List Char} :
    IsToken (c :: text) ↔
      isBlank c = false ∧ isTokenChar c = true ∧ ∀ d ∈ text, isTokenChar d = true := by
  constructor
  · intro token
    exact ⟨token.visible c rfl, List.forall_mem_cons.mp token.chars⟩
  · rintro ⟨visible, chars⟩
    refine ⟨List.cons_ne_nil c text, List.forall_mem_cons.mpr chars, ?_⟩
    rintro d ⟨⟩
    exact visible

theorem IsToken.exists_cons {text : List Char} (token : IsToken text) :
    ∃ c rest, text = c :: rest :=
  List.exists_cons_of_ne_nil token.nonempty

/-- A character inside a bracket that is neither blank nor a bracket starts a token. -/
theorem isTokenChar_of_visible {c : Char} (visible : isBlank c = false)
    (noOpening : c ≠ '(') (noClosing : c ≠ ')') : isTokenChar c = true := by
  cases continues : isTokenChar c with
  | true => rfl
  | false =>
      rcases eq_bracket_of_not_tokenChar visible continues with same | same
      · exact absurd same noOpening
      · exact absurd same noClosing

/-- A character that ends a token and is not a bracket is a delimiter. -/
theorem isDelimiter_of_not_isTokenChar {c : Char} (stops : isTokenChar c = false)
    (noOpening : c ≠ '(') (noClosing : c ≠ ')') : isDelimiter c = true := by
  simpa [isTokenChar, noOpening, noClosing] using stops

/-- A gap looks at no more of what follows than its first character. -/
theorem TokenGap.append {gap text : List Char} (fits : TokenGap gap text)
    (rest : List Char) : TokenGap gap (text ++ rest) := by
  cases fits with
  | opening => exact .opening
  | closing => exact .closing
  | blank delimiter blanks => exact .blank delimiter blanks

theorem TokenGap.of_append {gap text rest : List Char} (nonempty : text ≠ [])
    (fits : TokenGap gap (text ++ rest)) : TokenGap gap text := by
  obtain ⟨c, text, rfl⟩ := List.exists_cons_of_ne_nil nonempty
  cases fits with
  | opening => exact .opening
  | closing => exact .closing
  | blank delimiter blanks => exact .blank delimiter blanks

/-- A gap holds nothing but blanks. -/
theorem TokenGap.isBlankText {gap text : List Char} (fits : TokenGap gap text) :
    IsBlankText gap := by
  cases fits with
  | opening => exact isBlankText_nil
  | closing => exact isBlankText_nil
  | blank delimiter blanks =>
      exact isBlankText_cons.mpr ⟨isBlank_of_isDelimiter delimiter, blanks⟩

/-- One space separates a token from anything. -/
theorem tokenGap_space (text : List Char) : TokenGap [' '] text :=
  .blank rfl isBlankText_nil

end Text

/-! ## Layouts -/

namespace Tree

mutual

/-- The texts of a tree from its opening to its closing bracket. -/
inductive Bracketed : Tree String → List Char → Prop
  | node {label : String} {first : Tree String} {rest : Forest String}
      {blanks gap text : List Char} :
      IsBlankText blanks → IsToken label.toList → TokenGap gap text →
      Enclosed (first :: rest) text →
      Bracketed (.node label (first :: rest))
        ('(' :: blanks ++ label.toList ++ gap ++ text)

/-- The texts of the children of a node together with its closing bracket. -/
inductive Enclosed : Forest String → List Char → Prop
  | bracket : Enclosed [] [')']
  | word {word : String} {rest : Forest String} {gap text : List Char} :
      IsToken word.toList → TokenGap gap text → Enclosed rest text →
      Enclosed (.leaf word :: rest) (word.toList ++ gap ++ text)
  | tree {first : Tree String} {rest : Forest String}
      {bracketed gap text : List Char} :
      Bracketed first bracketed → IsBlankText gap → Enclosed rest text →
      Enclosed (first :: rest) (bracketed ++ gap ++ text)

end

/-- The written forms of a tree: its bracketed texts with blanks around them. -/
def Layout (tree : Tree String) (text : List Char) : Prop :=
  ∃ before bracketed after, text = before ++ bracketed ++ after ∧
    IsBlankText before ∧ Bracketed tree bracketed ∧ IsBlankText after

/-- The trees that can be written down: those other than a word alone whose labels and
words are all tokens. -/
structure Readable (tree : Tree String) : Prop where
  inner : tree.isLeaf = false
  tokens : ∀ node ∈ tree.subtrees, IsToken node.label.toList

theorem Bracketed.exists_cons {tree : Tree String} {text : List Char}
    (bracketed : Bracketed tree text) : ∃ rest, text = '(' :: rest := by
  cases bracketed
  exact ⟨_, rfl⟩

theorem Enclosed.ne_nil {forest : Forest String} {text : List Char}
    (enclosed : Enclosed forest text) : text ≠ [] := by
  cases enclosed with
  | bracket => exact List.cons_ne_nil _ _
  | word token => simp [token.nonempty]
  | tree bracketed =>
      obtain ⟨rest, rfl⟩ := bracketed.exists_cons
      exact List.cons_ne_nil _ _

/-! ## Trees with a layout are readable -/

mutual

theorem Bracketed.tokens {tree : Tree String} {text : List Char} :
    Bracketed tree text → ∀ node ∈ tree.subtrees, IsToken node.label.toList
  | .node _ token _ enclosed, below, member => by
      rcases List.mem_cons.mp member with rfl | member
      · exact token
      · exact enclosed.tokens below member

theorem Enclosed.tokens {forest : Forest String} {text : List Char} :
    Enclosed forest text → ∀ node ∈ Forest.subtrees forest, IsToken node.label.toList
  | .bracket, below, member => nomatch member
  | .word token _ enclosed, below, member => by
      rcases List.mem_append.mp member with here | later
      · obtain rfl := List.mem_singleton.mp here
        exact token
      · exact enclosed.tokens below later
  | .tree bracketed _ enclosed, below, member => by
      rcases List.mem_append.mp member with here | later
      · exact bracketed.tokens below here
      · exact enclosed.tokens below later

end

theorem Bracketed.readable {tree : Tree String} {text : List Char}
    (bracketed : Bracketed tree text) : tree.Readable := by
  refine ⟨?_, bracketed.tokens⟩
  cases bracketed
  rfl

theorem Layout.readable {tree : Tree String} {text : List Char}
    (layout : tree.Layout text) : tree.Readable := by
  obtain ⟨before, bracketed, after, -, -, isBracketed, -⟩ := layout
  exact isBracketed.readable

/-! ## Renderings are layouts -/

mutual

theorem bracketed_render :
    (tree : Tree String) → tree.isLeaf = false →
      (∀ node ∈ tree.subtrees, IsToken node.label.toList) →
      Bracketed tree tree.render.toList
  | .node label (first :: rest), _, tokens => by
      rcases List.forall_mem_cons.mp tokens with ⟨token, below⟩
      obtain ⟨gap, text, rendered, fits, enclosed⟩ := enclosed_render (first :: rest) below
      have written : (Tree.node label (first :: rest)).render.toList =
          '(' :: [] ++ label.toList ++ gap ++ text := by
        rw [render_node label (List.cons_ne_nil first rest), List.append_assoc, ← rendered]
        simp
      rw [written]
      exact .node isBlankText_nil token fits enclosed

/-- The rendered children of a node start with the gap after its label. -/
theorem enclosed_render :
    (forest : Forest String) →
      (∀ node ∈ Forest.subtrees forest, IsToken node.label.toList) →
      ∃ gap text, (Forest.render forest).toList ++ [')'] = gap ++ text ∧
        TokenGap gap text ∧ Enclosed forest text
  | [], _ => ⟨[], [')'], rfl, .closing, .bracket⟩
  | .node word [] :: rest, tokens => by
      rcases List.forall_mem_append.mp tokens with ⟨here, later⟩
      obtain ⟨gap, text, rendered, fits, enclosed⟩ := enclosed_render rest later
      refine ⟨[' '], word.toList ++ gap ++ text, ?_, tokenGap_space _,
        .word (here _ List.mem_cons_self) fits enclosed⟩
      rw [List.append_assoc, ← rendered]
      simp [Forest.render, render]
  | .node label (kid :: kids) :: rest, tokens => by
      rcases List.forall_mem_append.mp tokens with ⟨here, later⟩
      obtain ⟨gap, text, rendered, fits, enclosed⟩ := enclosed_render rest later
      refine ⟨[' '], (Tree.node label (kid :: kids)).render.toList ++ gap ++ text, ?_,
        tokenGap_space _,
        .tree (bracketed_render (.node label (kid :: kids)) rfl here) fits.isBlankText
          enclosed⟩
      rw [List.append_assoc, ← rendered]
      simp [Forest.render]

end

/-- The rendering of a readable tree is one of its layouts. -/
theorem Readable.layout_render {tree : Tree String} (readable : tree.Readable) :
    tree.Layout tree.render.toList :=
  ⟨[], tree.render.toList, [], by simp, isBlankText_nil,
    bracketed_render tree readable.inner readable.tokens, isBlankText_nil⟩

end Tree

end ChartParsing
