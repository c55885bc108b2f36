import Lox.Run.Fault
import Lox.Run.Heap

/-!
The state of a running program, and the steps that read and change it. A step gives a result or
halts the program; the scope and the depth of calls are put back whichever it is.
-/

namespace Lox

/-- A machine on which programs run. -/
structure Machine where
  heap : Heap
  /-- The frame in which names are looked up. -/
  scope : FrameId
  /-- How many calls are under way. -/
  depth : Nat
  /-- How many functions have been made. -/
  made : Nat
  /-- What the clock shows when it is read for the `n`-th time, as far as that is known. -/
  clock : Nat → Option Float
  /-- How often the clock has been read. -/
  ticks : Nat
  out : Output

/-- Why a program stops early: a fault, or the end of what it was granted, which are the steps that
it may take and the readings of the clock. -/
inductive Halt where
  | fault (f : Fault)
  | exhausted

/-- A step of a program. What it changed stays so when it halts the program. -/
abbrev Run := EStateM Halt Machine

namespace Run

/-- Stop with a fault at a token. -/
def raise (cause : FaultCause) (t : Token) : Run α := throw (.fault ⟨cause, t⟩)

/-- The value of a name. -/
def readName (name : Token) : Run Value := fun m =>
  match m.heap.nearest? name.lexeme m.scope with
  | some (_, v) => .ok v m
  | none => .error (.fault ⟨.undefinedVariable, name⟩) m

/-- Change the value of a name, which must be bound already. -/
def assign (name : Token) (v : Value) : Run Unit := fun m =>
  match m.heap.nearest? name.lexeme m.scope with
  | some (i, _) => .ok () { m with heap := m.heap.define name.lexeme v i }
  | none => .error (.fault ⟨.undefinedVariable, name⟩) m

/-- Bind a name in the current frame. -/
def define (x : String) (v : Value) : Run Unit := fun m =>
  .ok () { m with heap := m.heap.define x v m.scope }

/-- Make a function that remembers the current frame, and bind it to its name. -/
def declare (name : Token) (params : List Token) (body : List Stmt) : Run Unit := do
  let f ← modifyGet fun m => (⟨m.made, name, params, body, m.scope⟩, { m with made := m.made + 1 })
  define name.lexeme (.callable (.function f))

/-- Run a part of the program in a new frame inside `outer`. -/
def inFrame (outer : FrameId) (vars : Bindings) (act : Run α) : Run α := fun m =>
  let scope := m.scope
  let (id, heap) := m.heap.push outer vars
  match act { m with heap, scope := id } with
  | .ok x m => .ok x { m with scope }
  | .error e m => .error e { m with scope }

/-- Run a call: one more is counted as under way, until it ends. -/
def deeper (act : Run α) : Run α := fun m =>
  match act { m with depth := m.depth + 1 } with
  | .ok x m => .ok x { m with depth := m.depth - 1 }
  | .error e m => .error e { m with depth := m.depth - 1 }

/-- Read the clock. Without a reading the program is cut off. -/
def tick : Run Value := fun m =>
  match m.clock m.ticks with
  | some x => .ok (.num x) { m with ticks := m.ticks + 1 }
  | none => .error .exhausted m

/-- Write a line at the bidding of a `print`. -/
def printLine (keyword : Token) (s : String) : Run Unit := fun m =>
  match m.out.write (s ++ "\n") with
  | (none, out) => .ok () { m with out }
  | (some r, out) => .error (.fault ⟨.output r, keyword⟩) { m with out }

end Run

/-- A machine that has run nothing yet, on a clock that can always be read. -/
def Machine.start (clock : Nat → Float) (out : Output) : Machine :=
  ⟨.start, Heap.globals, 0, 0, fun n => some (clock n), 0, out⟩

/-- The machine, on another clock. -/
def Machine.onClock (m : Machine) (clock : Nat → Option Float) : Machine := { m with clock }

/-- Take away what has been written. -/
def Machine.takeWritten (m : Machine) : ByteArray × Machine :=
  (m.out.written, { m with out := { m.out with written := .empty } })

end Lox
