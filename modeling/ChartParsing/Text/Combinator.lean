/-!
# Parser combinators

A combinator reads a value off the front of a text or fails.  Alternatives are
tried in turn from the same place, so a failure is known only once all of them
have failed.  What is reported then is the place that reading got to at the
furthest, with all that could have stood there; it is handed from combinator to
combinator, those that succeed included.
-/

namespace ChartParsing.Text

/-- A place where reading failed, as the text that is left there, and what could
have stood there. -/
structure Failure where
  left : List Char
  expected : List String

namespace Failure

/-- The further of two failures.  In the same place both are kept. -/
def merge (failure other : Failure) : Failure :=
  if other.left.length < failure.left.length then other
  else if failure.left.length < other.left.length then failure
  else
    ⟨failure.left,
      failure.expected ++ other.expected.filter (!failure.expected.contains ·)⟩

/-- A failure after the furthest one so far. -/
def after (other : Failure) : Option Failure → Failure
  | none => other
  | some failure => failure.merge other

end Failure

/-- What is read off the front of a text, with the rest of the text, and the
furthest failure, from the furthest failure so far. -/
def Combinator (α : Type) : Type :=
  List Char → Option Failure → Option (α × List Char) × Option Failure

namespace Combinator

variable {α β : Type}

/-- Fail where something else is expected. -/
def refuse (expected : String) : Combinator α :=
  fun text failure? => (none, some (Failure.after ⟨text, [expected]⟩ failure?))

/-- Any character. -/
def any : Combinator Char
  | [], failure? => refuse "any" [] failure?
  | c :: rest, failure? => (some (c, rest), failure?)

/-- A given character. -/
def just (expected : Char) : Combinator Char
  | [], failure? => refuse (String.ofList ['\'', expected, '\'']) [] failure?
  | c :: rest, failure? =>
      if c = expected then (some (c, rest), failure?)
      else refuse (String.ofList ['\'', expected, '\'']) (c :: rest) failure?

/-- Any character but some. -/
def noneOf (excluded : List Char) : Combinator Char
  | [], failure? => refuse "something else" [] failure?
  | c :: rest, failure? =>
      if c ∈ excluded then refuse "something else" (c :: rest) failure?
      else (some (c, rest), failure?)

/-- The end of the text. -/
def finish : Combinator Unit
  | [], failure? => (some ((), []), failure?)
  | c :: rest, failure? => refuse "end of input" (c :: rest) failure?

/-- A function of what is read. -/
def map (f : α → β) (p : Combinator α) : Combinator β :=
  fun text failure? =>
    match p text failure? with
    | (none, failure?) => (none, failure?)
    | (some (value, rest), failure?) => (some (f value, rest), failure?)

/-- What `p` reads, where `q` could be read as well. -/
def andIs (p : Combinator α) (q : Combinator β) : Combinator α :=
  fun text failure? =>
    match p text failure? with
    | (none, failure?) => (none, failure?)
    | (some found, failure?) =>
        match q text failure? with
        | (none, failure?) => (none, failure?)
        | (some _, failure?) => (some found, failure?)

/-- One value and another behind it. -/
def followedBy (p : Combinator α) (q : Combinator β) : Combinator (α × β) :=
  fun text failure? =>
    match p text failure? with
    | (none, failure?) => (none, failure?)
    | (some (value, rest), failure?) =>
        match q rest failure? with
        | (none, failure?) => (none, failure?)
        | (some (other, rest), failure?) => (some ((value, other), rest), failure?)

/-- The second of two values. -/
def ignoreThen (p : Combinator α) (q : Combinator β) : Combinator β :=
  (p.followedBy q).map (·.2)

/-- The first of two values. -/
def thenIgnore (p : Combinator α) (q : Combinator β) : Combinator α :=
  (p.followedBy q).map (·.1)

/-- The first of two alternatives that can be read. -/
def orElse (p q : Combinator α) : Combinator α :=
  fun text failure? =>
    match p text failure? with
    | (none, failure?) => q text failure?
    | found => found

/-- Values as long as they can be read.  One that takes up no text is the
last. -/
def many (p : Combinator α) (text : List Char) (failure? : Option Failure) :
    (List α × List Char) × Option Failure :=
  match p text failure? with
  | (none, failure?) => (([], text), failure?)
  | (some (value, rest), failure?) =>
      if rest.length < text.length then
        let ((values, rest), failure?) := many p rest failure?
        ((value :: values, rest), failure?)
      else (([value], rest), failure?)
termination_by text.length

/-- Values as long as they can be read, one at least. -/
def atLeastOnce (p : Combinator α) : Combinator (List α) :=
  fun text failure? =>
    match p text failure? with
    | (none, failure?) => (none, failure?)
    | (some (value, rest), failure?) =>
        let ((values, rest), failure?) := many p rest failure?
        (some (value :: values, rest), failure?)

/-- A failure to read even the beginning is one of something with a name. -/
def labelled (p : Combinator α) (label : String) : Combinator α :=
  fun text failure? =>
    match p text none with
    | (found?, none) => (found?, failure?)
    | (found?, some failure) =>
        let named :=
          if failure.left.length = text.length then { failure with expected := [label] }
          else failure
        (found?, some (named.after failure?))

/-- What is read with characters of a kind skipped around it. -/
def padded (isPadding : Char → Bool) (p : Combinator α) : Combinator α :=
  fun text failure? =>
    match p (text.dropWhile isPadding) failure? with
    | (none, failure?) => (none, failure?)
    | (some (value, rest), failure?) =>
        (some (value, rest.dropWhile isPadding), failure?)

/-- A combinator that refers to itself, down to a depth. -/
def unrolled (body : Combinator α → Combinator α) : Nat → Combinator α
  | 0 => fun _ failure? => (none, failure?)
  | depth + 1 => body (unrolled body depth)

/-- A combinator that refers to itself behind a character at least, so no deeper
than the text is long. -/
def recursive (body : Combinator α → Combinator α) : Combinator α :=
  fun text failure? => unrolled body (text.length + 1) text failure?

end Combinator

end ChartParsing.Text
