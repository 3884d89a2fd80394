import ChartParsing.Text.Blank
import ChartParsing.Text.Combinator
import ChartParsing.Tree.Basic

/-!
# A composed reader of bracketed text

The reader of written trees put together from combinators, with the failure that
it reports.
-/

namespace ChartParsing.Tree.Composed

open ChartParsing.Text

/-- A character other than brackets and delimiters. -/
def tokenChar : Combinator Char :=
  Combinator.any.andIs (.noneOf ['(', ')', ' ', '\t', '\n', '\r'])

/-- A label or a word. -/
def token : Combinator String :=
  (tokenChar.atLeastOnce.map String.ofList).labelled "token"

/-- A child: a bracketed tree or a word. -/
def child (tree : Combinator (Tree String)) : Combinator (Tree String) :=
  tree.orElse (token.map .leaf)

/-- The label of a bracket. -/
def label : Combinator String :=
  (token.padded isBlank).labelled "label"

/-- The children of a bracket. -/
def children (tree : Combinator (Tree String)) : Combinator (Forest String) :=
  ((child tree).padded isBlank).atLeastOnce.labelled "children"

/-- A label and its children between brackets. -/
def bracketed (tree : Combinator (Tree String)) : Combinator (Tree String) :=
  ((((Combinator.just '(').ignoreThen label).followedBy (children tree)).thenIgnore
    (.just ')')).map fun (label, children) => .node label children

/-- A bracketed tree with nothing but blanks around it. -/
def whole : Combinator (Tree String) :=
  ((Combinator.recursive bracketed).padded isBlank).thenIgnore .finish

/-- Alternatives as a message lists them. -/
def listed : List String → String
  | [] => "something else"
  | [alternative] => alternative
  | alternatives =>
      String.join (alternatives.dropLast.map (· ++ ", ")) ++ "or " ++
        alternatives.getLastD ""

/-- The description of a failure to read a tree. -/
def message (failure : Failure) : String :=
  let found :=
    match failure.left with
    | c :: _ => String.ofList ['\'', c, '\'']
    | [] => "end of input"
  "Could not read tree: found " ++ found ++ " expected " ++ listed failure.expected

/-- Read a single bracketed tree, or fail where reading got to. -/
def read (text : String) : Except Failure (Tree String) :=
  match whole text.toList none with
  | (some (tree, _), _) => .ok tree
  | (none, some failure) => .error failure
  | (none, none) => .error ⟨text.toList, []⟩

end ChartParsing.Tree.Composed
