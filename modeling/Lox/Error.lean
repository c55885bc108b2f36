import Lox.Grammar.Parser
import Lox.Run.Fault
import Lox.Source.Scan

/-!
All errors of the language in one type, with their text and the exit code they lead to. Static
errors are found before a program runs; runtime errors are faults.
-/

namespace Lox

/-- Anything that can be wrong with a program. -/
inductive Error where
  | scan (e : ScanError)
  | grammar (e : GrammarError)
  | runtime (f : Fault)

namespace Error

/-- Whether the error is found without running the program. -/
def isStatic : Error → Bool
  | .runtime _ => false
  | _ => true

/-- The line an error is reported on: where its fragment ends, or where its token does. -/
def line : Error → Nat
  | .scan e => e.line
  | .grammar e => e.token.line
  | .runtime f => f.token.line

/-- What is wrong, without the place. -/
def message : Error → String
  | .scan e => e.flaw.message
  | .grammar e => e.flaw.message
  | .runtime f => f.message

/-- Where a static error is, in words; a runtime error has its line alone. -/
def location? : Error → Option String
  | .scan e => some e.flaw.location
  | .grammar e => some e.token.location
  | .runtime _ => none

/-- An error as it is reported. -/
def text (e : Error) : String :=
  match e.location? with
  | some l => l ++ " on line " ++ Nat.repr e.line ++ ": " ++ e.message
  | none => "at line " ++ Nat.repr e.line ++ ": " ++ e.message

/-- The exit code that the error alone leads to. -/
def exitCode (e : Error) : Nat := if e.isStatic then 65 else 70

end Error

/-- The exit code for all errors of a run: a static error outweighs a fault. -/
def exitCode (es : List Error) : Nat :=
  if es.any Error.isStatic then 65 else if es.isEmpty then 0 else 70

end Lox
