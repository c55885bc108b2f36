import Lox.Error
import Lox.Run.Eval

/-!
Sessions: programs run one after the other on one machine, so that later ones see what earlier ones
have bound. A program with a static error is not run at all.
-/

namespace Lox

/-- What lasts from one program to the next. -/
structure Session where
  machine : Machine

/-- A session in which nothing has been run. -/
def Session.start (clock : Nat → Float) (out : Output) : Session := ⟨.start clock out⟩

/-- The session, on another clock. -/
def Session.onClock (s : Session) (clock : Nat → Option Float) : Session :=
  ⟨s.machine.onClock clock⟩

/-- How a run ends: well, with errors, or cut off. -/
inductive Result where
  | done
  | failed (errors : List Error)
  | exhausted

/-- What a run leaves behind besides the session: the bytes it wrote, and how it ended. -/
structure Report where
  written : ByteArray
  result : Result

/-- The errors of a run; a run that ended well has none. -/
def Result.errors : Result → List Error
  | .failed errors => errors
  | _ => []

/-- A fault is the only error that a program which runs can have. -/
def Ending.result : Ending → Result
  | .finished => .done
  | .faulted f => .failed [.runtime f]
  | .exhausted => .exhausted

/-- A program, or all that is wrong with its source: errors of scanning come before those of
grammar. -/
def parseSource (src : String) : Except (List Error) (List Stmt) :=
  let (tokens, flaws) := scan src
  let flaws := flaws.map Error.scan
  match (Parser.ofTokens tokens).parse.1 with
  | .ok program => if flaws.isEmpty then .ok program else .error flaws
  | .error errors => .error (flaws ++ errors.map .grammar)

/-- Run a source within `n` steps. -/
def Session.run (n : Nat) (s : Session) (src : String) : Report × Session :=
  match parseSource src with
  | .error errors => (⟨.empty, .failed errors⟩, s)
  | .ok program =>
    let (ending, m) := s.machine.run n program
    let (written, m) := m.takeWritten
    (⟨written, ending.result⟩, ⟨m⟩)

/-- More steps than any program takes in practice. -/
def plenty : Nat := 0x4000000000000000

end Lox
