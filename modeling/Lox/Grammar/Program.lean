import Lox.Grammar.Statement

/-!
Programs. A program is declarations up to the end of the tokens.
-/

namespace Lox

/-- The most levels of nesting a program may have. -/
def maxNesting : Nat := 1024

namespace Parse

/-- Declarations up to the end, put behind those in `acc`. -/
def programFrom (declaration : Parse Stmt) : Nat → Array Stmt → Parse (List Stmt)
  | 0, acc => return acc.toList
  | n + 1, acc => do
    if ← atEnd then return acc.toList
    else
      let s ← declaration
      programFrom declaration n (acc.push s)

/-- All declarations of a program of `size` tokens. -/
def program (size : Nat) : Parse (List Stmt) :=
  programFrom (declaration size maxNesting) size #[]

end Parse
end Lox
