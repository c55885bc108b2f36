import Lox.Token

/-!
Trees of programs. A tree keeps the tokens that a later fault may point at: names, operators, the
parenthesis that closes a call, and the keywords of `print` and `return`.
-/

namespace Lox

/-- Expressions. -/
inductive Expr where
  | literal (value : Literal)
  | variable (name : Token)
  | assign (name : Token) (value : Expr)
  | unary (op : Token) (operand : Expr)
  | binary (left : Expr) (op : Token) (right : Expr)
  | logical (left : Expr) (op : Token) (right : Expr)
  | grouping (inner : Expr)
  | call (callee : Expr) (paren : Token) (args : List Expr)
  deriving Inhabited

/-- Statements and declarations. -/
inductive Stmt where
  | expression (e : Expr)
  | print (keyword : Token) (e : Expr)
  | var (name : Token) (init : Option Expr)
  | function (name : Token) (params : List Token) (body : List Stmt)
  | block (body : List Stmt)
  | branch (cond : Expr) (yes : Stmt) (no : Option Stmt)
  | loop (cond : Expr) (body : Stmt)
  | ret (keyword : Token) (value : Option Expr)
  deriving Inhabited

/-- A loop with clauses is a loop in a block: the initializer comes before it and the increment at
the end of its body. Without a condition it goes on for ever. -/
def Stmt.forLoop (init : Option Stmt) (cond incr : Option Expr) (body : Stmt) : Stmt :=
  .block (init.toList ++
    [.loop (cond.getD (.literal (.bool true))) (.block (body :: (incr.map .expression).toList))])

end Lox
