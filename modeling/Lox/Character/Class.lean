import Lox.Character.Alphabetic
import Lox.Character.Numeric

/-!
The classes of characters that the lexical grammar speaks of. Letters and numbers are those of
Unicode; blanks and digits are ASCII alone. An underscore is neither a letter nor a number.
-/

namespace Lox.Character

/-- Whether a code point lies in one of the ranges. -/
def within (ranges : List (Nat × Nat)) (n : Nat) : Bool :=
  ranges.any fun r => r.1 ≤ n && n ≤ r.2

/-- A space, a tab, a carriage return or a newline. -/
def isBlank (c : Char) : Bool := c == ' ' || c == '\t' || c == '\r' || c == '\n'

/-- An ASCII digit. -/
def isDigit (c : Char) : Bool := c.isDigit

/-- A character that can start a word: one that Unicode calls alphabetic. -/
def isLetter (c : Char) : Bool :=
  if c.toNat < 0x80 then c.isAlpha
  else if c.toNat < 0x10000 then within alphabeticBasic c.toNat
  else within alphabeticSupplementary c.toNat

/-- A digit, or a character beyond ASCII that Unicode calls a number. -/
def isNumber (c : Char) : Bool :=
  if c.toNat < 0x80 then c.isDigit else within numeric c.toNat

/-- A character that can go on a word: a letter or a number. -/
def isWordPart (c : Char) : Bool := isLetter c || isNumber c

end Lox.Character
