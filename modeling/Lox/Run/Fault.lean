import Lox.Run.Output
import Lox.Token

/-!
Faults: what can go wrong while a program runs, always at one of its tokens.
-/

namespace Lox

/-- What went wrong. -/
inductive FaultCause where
  | undefinedVariable
  | notCallable | stackOverflow
  | wrongArity (expected got : Nat)
  | addOperands | numberOperands | numberOperand
  | notBinary | notUnary
  | output (r : Refusal)
  deriving DecidableEq, Repr

/-- A fault and the token at which it shows. -/
structure Fault where
  cause : FaultCause
  token : Token

/-- Faults are about names, about the kinds of values, or about output. -/
inductive FaultKind where
  | name | type | io
  deriving DecidableEq, Repr

/-- The kind of a fault is that of its cause. -/
def FaultCause.kind : FaultCause → FaultKind
  | .undefinedVariable => .name
  | .output _ => .io
  | _ => .type

/-- What is said of a fault. -/
def Fault.message (f : Fault) : String :=
  match f.cause with
  | .undefinedVariable => "Undefined variable '" ++ f.token.lexeme ++ "'."
  | .notCallable => "Can only call functions."
  | .stackOverflow => "Stack overflow."
  | .wrongArity expected got =>
    "Expected " ++ Nat.repr expected ++ " arguments but got " ++ Nat.repr got ++ "."
  | .addOperands => "Operands must be two numbers or two strings."
  | .numberOperands => "Operands must be numbers."
  | .numberOperand => "Operand must be a number."
  | .notBinary => "Invalid binary operator."
  | .notUnary => "Invalid unary operator."
  | .output r => "Failed to write output: " ++ r.message ++ "."

end Lox
