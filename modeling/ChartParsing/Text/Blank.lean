/-!
# Blank characters

Two classes of characters separate the parts of a written tree.  A *blank* is
any character with the Unicode property `White_Space`; it may be skipped between
parts.  A *delimiter* is one of the four blanks that also end a token.  The
remaining blanks, such as the no-break space, are ordinary characters once a
token has begun.
-/

namespace ChartParsing.Text

/-- The characters with the Unicode property `White_Space`. -/
def isBlank (c : Char) : Bool :=
  let code := c.toNat
  (0x09 ≤ code && code ≤ 0x0D) || code == 0x20 || code == 0x85 ||
    code == 0xA0 || code == 0x1680 || (0x2000 ≤ code && code ≤ 0x200A) ||
    code == 0x2028 || code == 0x2029 || code == 0x202F || code == 0x205F ||
    code == 0x3000

/-- The blanks that end a token: space, tab, line feed and carriage return. -/
def isDelimiter (c : Char) : Bool :=
  c == ' ' || c == '\t' || c == '\n' || c == '\r'

/-- The characters that may stand in a token: all but the two brackets and the
delimiters. -/
def isTokenChar (c : Char) : Bool :=
  !(c == '(' || c == ')' || isDelimiter c)

/-- Every delimiter is a blank. -/
theorem isBlank_of_isDelimiter {c : Char} (delimiter : isDelimiter c = true) :
    isBlank c = true := by
  simp only [isDelimiter, Bool.or_eq_true, beq_iff_eq] at delimiter
  rcases delimiter with ((rfl | rfl) | rfl) | rfl <;> decide

/-- A character that is neither blank nor a token character is a bracket. -/
theorem eq_bracket_of_not_tokenChar {c : Char} (visible : isBlank c = false)
    (stops : isTokenChar c = false) : c = '(' ∨ c = ')' := by
  have noDelimiter : isDelimiter c = false := by
    cases delimiter : isDelimiter c with
    | false => rfl
    | true => rw [isBlank_of_isDelimiter delimiter] at visible; contradiction
  simpa [isTokenChar, noDelimiter, ← Classical.or_iff_not_imp_left] using stops

end ChartParsing.Text
