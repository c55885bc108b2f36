import Lox.Run.Operator

/-!
Running programs. Each form of expression and of statement is one function over the functions that
run its parts. These are tied together by counting steps: a part gets one step less than the whole,
and a program that needs more steps than it was granted is cut off without a result.
-/

namespace Lox

/-- How a statement ends: the next one follows, or a `return` is under way. -/
inductive Flow where
  | next
  | returned (v : Value)

/-- The most calls that may be under way at a time. -/
def maxCallDepth : Nat := 10000

namespace Run

/-! ### Lists of statements, loops and calls -/

/-- Statements one after the other, up to a `return`. -/
def sequence (exec : Stmt → Run Flow) : List Stmt → Run Flow
  | [] => return .next
  | s :: rest => do
    match ← exec s with
    | .next => sequence exec rest
    | .returned v => return .returned v

/-- At most `n` rounds of a loop, the condition being tested before each. -/
def rounds (test : Run Value) (body : Run Flow) : Nat → Run Flow
  | 0 => throw .exhausted
  | n + 1 => do
    if (← test).truthy then
      match ← body with
      | .next => rounds test body n
      | .returned v => return .returned v
    else return .next

/-- What a call does once nothing speaks against it. A function runs its body in a frame of its own,
inside the frame it was declared in, and without a `return` it gives `nil`. -/
def invoke (exec : Stmt → Run Flow) (c : Callable) (args : List Value) : Run Value :=
  match c with
  | .clock => tick
  | .function f => do
    match ← inFrame f.frame (.ofArguments f.params args) (sequence exec f.body) with
    | .returned v => return v
    | .next => return .nil

/-- A call. It faults, in this order, on a value that cannot be called, on a wrong number of
arguments, and when too many calls are under way. -/
def call (exec : Stmt → Run Flow) (paren : Token) (callee : Value) (args : List Value) :
    Run Value := do
  match callee with
  | .callable c =>
    if c.arity ≠ args.length then raise (.wrongArity c.arity args.length) paren
    else if maxCallDepth ≤ (← get).depth then raise .stackOverflow paren
    else deeper (invoke exec c args)
  | _ => raise .notCallable paren

/-! ### One form over its parts -/

/-- The value of an expression; operands and arguments are evaluated from left to right. -/
def exprStep (eval : Expr → Run Value) (exec : Stmt → Run Flow) : Expr → Run Value
  | .literal v => return v.toValue
  | .variable name => readName name
  | .assign name e => do
    let v ← eval e
    assign name v
    return v
  | .unary op e => do unary op (← eval e)
  | .binary l op r => do
    let a ← eval l
    let b ← eval r
    binary op a b
  | .logical l op r => do
    let a ← eval l
    if decides op a then return a else eval r
  | .grouping e => eval e
  | .call f paren args => do
    let callee ← eval f
    let vs ← args.mapM eval
    call exec paren callee vs

/-- An expression that may be missing and then is `nil`. -/
def evalOptional (eval : Expr → Run Value) : Option Expr → Run Value
  | some e => eval e
  | none => return .nil

/-- Running a statement; `n` bounds the rounds of a loop. -/
def stmtStep (n : Nat) (eval : Expr → Run Value) (exec : Stmt → Run Flow) : Stmt → Run Flow
  | .expression e => do
    let _ ← eval e
    return .next
  | .print keyword e => do
    let v ← eval e
    printLine keyword v.text
    return .next
  | .var name init => do
    let v ← evalOptional eval init
    define name.lexeme v
    return .next
  | .function name params body => do
    declare name params body
    return .next
  | .block body => do
    inFrame (← get).scope [] (sequence exec body)
  | .branch cond yes no => do
    if (← eval cond).truthy then exec yes
    else
      match no with
      | some s => exec s
      | none => return .next
  | .loop cond body => rounds (eval cond) (exec body) n
  | .ret _ value => return .returned (← evalOptional eval value)

/-! ### All forms together -/

/-- Compute something on a stack of its own. -/
def onFreshStack (f : Unit → α) : α := (Task.spawn f .dedicated).get

/-- How many steps share a stack. -/
def stepsPerStack : Nat := 0x80000

/-- Take a step; now and then it moves to a fresh stack, so that deep programs have room. -/
def withRoom (n : Nat) (act : Run α) : Run α := fun m =>
  if n % stepsPerStack = 0 then onFreshStack fun _ => act m else act m

mutual

/-- The value of an expression within `n` steps. -/
def eval : Nat → Expr → Run Value
  | 0, _ => throw .exhausted
  | n + 1, e => withRoom n (exprStep (eval n) (exec n) e)

/-- Run a statement within `n` steps. -/
def exec : Nat → Stmt → Run Flow
  | 0, _ => throw .exhausted
  | n + 1, s => withRoom n (stmtStep n (eval n) (exec n) s)

end

/-- Where a step is taken makes no difference to its outcome. -/
@[simp] theorem withRoom_eq (n : Nat) (act : Run α) : withRoom n act = act := by
  funext m
  simp [withRoom, onFreshStack, Task.spawn]

end Run

/-! ### Programs -/

/-- How a program ends. -/
inductive Ending where
  | finished
  | faulted (f : Fault)
  | exhausted

/-- Run a program within `n` steps, in the global frame. A `return` outside of functions ends it. -/
def Machine.run (n : Nat) (program : List Stmt) (m : Machine) : Ending × Machine :=
  match Run.sequence (Run.exec n) program { m with scope := Heap.globals, depth := 0 } with
  | .ok _ m => (.finished, m)
  | .error (.fault f) m => (.faulted f, m)
  | .error .exhausted m => (.exhausted, m)

end Lox
