import Lox.Session
import Lox.Shell.Folder
import Lox.Text.Lines
import Lox.Text.Utf8

/-!
The command line. With no argument the command reads programs line by line and keeps what they bind;
with one it runs the file of that name; with more it only says how it is used. Results go to the
standard output, errors to the standard error.
-/

namespace Lox.Shell

/-- What a command leaves behind. -/
structure Transcript where
  code : Nat
  stdout : ByteArray
  stderr : String

/-- The exit code for arguments that make no sense. -/
def usageCode : Nat := 64

/-- The exit code for input that cannot be read. -/
def ioCode : Nat := 74

/-- The errors of a run, one on a line. -/
def errorLines (es : List Error) : String := String.join (es.map fun e => e.text ++ "\n")

/-! ### Files -/

/-- What the command leaves behind for a run that it made. -/
def Transcript.ofReport (r : Report) : Transcript :=
  ⟨exitCode r.result.errors, r.written, errorLines r.result.errors⟩

/-- Run the program in a file. Bytes that are no text are replaced. -/
def script (n : Nat) (s : Session) (bytes : ByteArray) : Transcript :=
  .ofReport (s.run n (Text.decode bytes)).1

/-- What is said of a file that cannot be read. -/
def unreadable (path : String) (reason : String) : Transcript :=
  ⟨ioCode, .empty, "Could not read '" ++ path ++ "': " ++ reason ++ "\n"⟩

/-! ### Lines -/

/-- What asks for the next line. -/
def prompt : String := "> "

/-- The answer to one line: what it writes and reports, and the session to go on with, if any. -/
structure Answer where
  stdout : ByteArray
  stderr : String
  next : Option Session

/-- The answer to a line that has been run. -/
def Answer.ofReport (r : Report) (s : Session) : Answer :=
  ⟨r.written, errorLines r.result.errors, some s⟩

/-- The answer to a line that is no text, which ends the conversation. -/
def Answer.unreadable : Answer := ⟨.empty, "stream did not contain valid UTF-8\n", none⟩

/-- Run one line. -/
def answer (n : Nat) (s : Session) (line : ByteArray) : Answer :=
  match String.fromUTF8? line with
  | none => .unreadable
  | some src =>
    let (r, s) := s.run n src
    .ofReport r s

/-- Prompt for each line and answer it, going on from `out` and `err`. Errors do not end it. -/
def converse (n : Nat) : Session → List (List UInt8) → ByteArray → String → Transcript
  | _, [], out, err => ⟨0, out ++ prompt.toUTF8, err⟩
  | s, line :: lines, out, err =>
    let a := answer n s ⟨line.toArray⟩
    let out := out ++ prompt.toUTF8 ++ a.stdout
    let err := err ++ a.stderr
    match a.next with
    | some s => converse n s lines out err
    | none => ⟨ioCode, out, err⟩

/-! ### Arguments -/

/-- What the arguments ask for. -/
inductive Command where
  | conversation
  | script (path : String)
  | misuse

/-- No argument asks for a conversation, one names a script. -/
def Command.ofArgs : List String → Command
  | [] => .conversation
  | [path] => .script path
  | _ => .misuse

/-- How the command is used. -/
def usage : Transcript := ⟨usageCode, .empty, "Usage: losk [script]\n"⟩

/-- The whole command: its arguments, the files around it and its standard input decide what it
leaves behind. -/
def run (n : Nat) (s : Session) (files : Folder) (args : List String) (stdin : ByteArray) :
    Transcript :=
  match Command.ofArgs args with
  | .conversation => converse n s (Text.lines stdin.data.toList) .empty ""
  | .script path =>
    match files.read path with
    | .ok bytes => script n s bytes
    | .error e => unreadable path e.message
  | .misuse => usage

end Lox.Shell
