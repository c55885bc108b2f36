/-!
Tokens, the words of a program. A token knows its kind, the text it was written with, where that
text stands, and the value it denotes when it is a literal.
-/

namespace Lox

/-- What a token is: a mark, a name, a literal, a keyword, or the end of the program. -/
inductive Kind where
  | leftParen | rightParen | leftBrace | rightBrace | comma | dot | minus | plus | semicolon
  | slash | star
  | bang | bangEqual | equal | equalEqual | greater | greaterEqual | less | lessEqual
  | identifier | string | number
  | kwAnd | kwClass | kwElse | kwFalse | kwFor | kwFun | kwIf | kwNil | kwOr | kwPrint | kwReturn
  | kwSuper | kwThis | kwTrue | kwVar | kwWhile
  | eof
  deriving DecidableEq, Repr, Inhabited

/-- The keywords that open a declaration or a statement of their own. -/
def Kind.startsStatement : Kind → Bool
  | .kwClass | .kwFun | .kwVar | .kwFor | .kwIf | .kwWhile | .kwPrint | .kwReturn => true
  | _ => false

/-- The value a literal token denotes; every other token carries `nil`. -/
inductive Literal where
  | nil
  | bool (b : Bool)
  | num (x : Float)
  | str (s : String)
  deriving Inhabited

/-- Literals are equal as values are. Numbers go by the rules of doubles, so `NaN` differs from
itself. -/
def Literal.same : Literal → Literal → Bool
  | .nil, .nil => true
  | .bool a, .bool b => a == b
  | .num x, .num y => x == y
  | .str s, .str t => s == t
  | _, _ => false

instance : BEq Literal := ⟨Literal.same⟩

/-- One word of a program. -/
structure Token where
  kind : Kind
  /-- The text of the token as it is written. -/
  lexeme : String
  /-- The line on which the lexeme ends, counted from 1. -/
  line : Nat
  /-- The byte at which the lexeme starts. -/
  col : Nat
  /-- How many tokens come before this one. -/
  idx : Nat
  value : Literal
  deriving Inhabited

/-- The end of a program is a token too. -/
def Token.isEof (t : Token) : Bool := t.kind == .eof

end Lox
