import ChartParsing.Text.Blank
import ChartParsing.Tree.Basic

/-!
# Reading bracketed text

A written tree is a label and one or more children between round brackets,
where a child is a bracketed tree or a bare token.  Blanks may stand between any
two parts and are needed only between two tokens.

Reading is a machine that takes one character at a time.  Its state says which
part of the innermost open bracket is being read and keeps, as a stack of
frames, the brackets around it.  A state refuses a character exactly when no
tree continues that way, so the machine stops at the first character that
cannot be read.  A reader that is composed from combinators (`Composed.read`)
reads the same trees and reports the same failures.
-/

namespace ChartParsing.Tree.Reader

open ChartParsing.Text

/-- What could have stood where reading stopped. -/
inductive Expected where
  /-- The bracket that opens the whole tree. -/
  | opening
  /-- The label, directly after an opening bracket. -/
  | label
  /-- The label, after an opening bracket and blanks. -/
  | token
  /-- More of a label, or its children; the text has ended. -/
  | labelOrChildren
  /-- The children of a label that a closing bracket follows directly. -/
  | otherOrChildren
  /-- The children of a label that blanks have ended. -/
  | children
  /-- More of a word, another child, or the closing bracket. -/
  | wordOrChild
  /-- Another child or the closing bracket. -/
  | child
  /-- Nothing: the whole tree has been read. -/
  | endOfInput
  deriving DecidableEq, Repr

/-- The description of an expectation in a message. -/
def Expected.text : Expected → String
  | .opening => "'('"
  | .label => "label"
  | .token => "token"
  | .labelOrChildren => "any, or children"
  | .otherOrChildren => "something else, or children"
  | .children => "children"
  | .wordOrChild => "any, '(', token, or ')'"
  | .child => "'(', token, or ')'"
  | .endOfInput => "end of input"

/-- The place where reading stopped: the offending character, or none at the
end of the text, and what could have stood there. -/
structure ReadError where
  found : Option Char
  expected : Expected
  deriving DecidableEq, Repr

/-- The description of a reading error. -/
def ReadError.message (error : ReadError) : String :=
  let found :=
    match error.found with
    | some c => String.ofList ['\'', c, '\'']
    | none => "end of input"
  "Could not read tree: found " ++ found ++ " expected " ++ error.expected.text

/-- An open bracket: its label and the children read so far, the latest first. -/
structure Frame where
  label : String
  children : Forest String

/-- The frame with one more child. -/
def Frame.add (frame : Frame) (child : Tree String) : Frame :=
  { frame with children := child :: frame.children }

/-- The tree of a frame that has been closed. -/
def Frame.toTree (frame : Frame) : Tree String :=
  .node frame.label frame.children.reverse

/-- How far a text has been read.  Texts under way are kept with their latest
character first, and `outer` lists the enclosing open brackets from the inside
out. -/
inductive State where
  /-- The opening bracket has not been seen. -/
  | before
  /-- A bracket has been opened, with blanks after it if `skipped`. -/
  | opened (skipped : Bool) (outer : List Frame)
  /-- Inside the label of a bracket. -/
  | label (text : List Char) (outer : List Frame)
  /-- After a label and blanks, or after a child. -/
  | between (inner : Frame) (outer : List Frame)
  /-- Inside a word that is a child of `inner`. -/
  | word (text : List Char) (inner : Frame) (outer : List Frame)
  /-- The whole tree has been read. -/
  | complete (tree : Tree String)

/-- The label or word whose characters were read in reverse. -/
def textOf (reversed : List Char) : String :=
  String.ofList reversed.reverse

/-- Close the innermost bracket and hand its tree to the one around it. -/
def close (inner : Frame) : List Frame → State
  | [] => .complete inner.toTree
  | next :: outer => .between (next.add inner.toTree) outer

/-- What a state could read next, as named when it cannot read what follows: a
character, or the end of the text if there is none. -/
def expectedBy : State → Option Char → Expected
  | .before, _ => .opening
  | .opened false _, _ => .label
  | .opened true _, _ => .token
  | .label _ _, some _ => .otherOrChildren
  | .label _ _, none => .labelOrChildren
  | .between ⟨_, []⟩ _, _ => .children
  | .between ⟨_, _ :: _⟩ _, _ => .child
  | .word _ _ _, _ => .wordOrChild
  | .complete _, _ => .endOfInput

/-- Read one character, or refuse it. -/
def next? : State → Char → Option State
  | .before, c =>
      if isBlank c then some .before
      else if c = '(' then some (.opened false [])
      else none
  | .opened _ outer, c =>
      if isBlank c then some (.opened true outer)
      else if isTokenChar c then some (.label [c] outer)
      else none
  | .label text outer, c =>
      if isTokenChar c then some (.label (c :: text) outer)
      else if c = '(' then some (.opened false (⟨textOf text, []⟩ :: outer))
      else if c = ')' then none
      else some (.between ⟨textOf text, []⟩ outer)
  | .between inner outer, c =>
      if isBlank c then some (.between inner outer)
      else if c = '(' then some (.opened false (inner :: outer))
      else if c = ')' then
        if inner.children.isEmpty then none else some (close inner outer)
      else some (.word [c] inner outer)
  | .word text inner outer, c =>
      if isTokenChar c then some (.word (c :: text) inner outer)
      else
        let filled := inner.add (.leaf (textOf text))
        if c = '(' then some (.opened false (filled :: outer))
        else if c = ')' then some (close filled outer)
        else some (.between filled outer)
  | .complete tree, c =>
      if isBlank c then some (.complete tree) else none

/-- Read the rest of a text from a state. -/
def run : State → List Char → Except ReadError (Tree String)
  | .complete tree, [] => .ok tree
  | state, [] => .error ⟨none, expectedBy state none⟩
  | state, c :: rest =>
      match next? state c with
      | some state => run state rest
      | none => .error ⟨some c, expectedBy state (some c)⟩

end ChartParsing.Tree.Reader

namespace ChartParsing.Tree

/-- Read a single bracketed tree with nothing but blanks around it. -/
def read (text : String) : Except Reader.ReadError (Tree String) :=
  Reader.run .before text.toList

end ChartParsing.Tree
