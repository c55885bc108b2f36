import Lox.Shell.Command
import Std.Time.DateTime.Timestamp

/-!
The program: it reads what the command line asks for and prints what the command leaves behind.
-/

namespace Lox.Shell

/-- The bytes of the next line of a stream. -/
partial def readLine (stream : IO.FS.Stream) (acc : ByteArray) : IO ByteArray := do
  let b ← stream.read 1
  if b.isEmpty || b[0]! == Text.newline then return acc ++ b
  else readLine stream (acc ++ b)

/-- The time, in seconds since 1970. Before that it is zero. -/
def now : IO Float := do
  let t ← Std.Time.Timestamp.now
  return Float.ofNat t.toNanosecondsSinceUnixEpoch.val.toNat / 1000000000

/-- Run a source by the clock of the system. `readings` are those that it has asked for so far. A
run that asks for another one is cut off there; the clock is read, and the source is run again. -/
partial def runByClock (s : Session) (src : String) (readings : Array Float) :
    IO (Report × Session) := do
  let known := s.onClock fun n => readings[n - s.machine.ticks]?
  let (r, s') := known.run plenty src
  match r.result with
  | .exhausted => runByClock s src (readings.push (← now))
  | _ => return (r, s')

/-- Prompt, read a line and answer it, until the input ends or a line is no text. -/
partial def talk (s : Session) : IO UInt32 := do
  let out ← IO.getStdout
  let err ← IO.getStderr
  out.putStr prompt
  out.flush
  let line ← readLine (← IO.getStdin) .empty
  if line.isEmpty then return 0
  else
    let a ← match String.fromUTF8? line with
      | none => pure .unreadable
      | some src => do
        let (r, s) ← runByClock s src #[]
        pure (Answer.ofReport r s)
    out.write a.stdout
    err.putStr a.stderr
    match a.next with
    | some s => talk s
    | none => return ioCode.toUInt32

/-- Print what a command leaves behind. -/
def finish (t : Transcript) : IO UInt32 := do
  (← IO.getStdout).write t.stdout
  (← IO.getStderr).putStr t.stderr
  return t.code.toUInt32

/-- The reason why the system refused to read a file. -/
def reason : IO.Error → String
  | .noFileOrDirectory .. => ReadError.notFound.message
  | .inappropriateType _ code _ =>
    if code = 21 ∨ code = -21 then ReadError.isFolder.message else ReadError.notFolder.message
  | .permissionDenied .. => "Permission denied (os error 13)"
  | e => toString e

end Lox.Shell

open Lox Lox.Shell in
/-- Run the command. -/
def main (args : List String) : IO UInt32 := do
  -- every run brings the readings of its own clock
  let s := Session.start (fun _ => 0) .unlimited
  match Command.ofArgs args with
  | .conversation => talk s
  | .script path =>
    match ← EIO.toBaseIO (IO.FS.readBinFile path) with
    | .ok bytes => finish (.ofReport (← runByClock s (Text.decode bytes) #[]).1)
    | .error e => finish (unreadable path (reason e))
  | .misuse => finish usage
