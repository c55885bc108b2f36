import Lox.Run.Eval

/-!
What programs mean, said without steps. Judgments relate an expression or a statement, the frame it
runs in and the number of calls under way to its outcome: a result or a fault. Both leave a store
behind. A program that goes on for ever has no outcome, nor has one that asks for a reading which
the clock does not have.
-/

namespace Lox

/-- What lasts from one part of a program to the next. -/
structure Store where
  heap : Heap
  /-- How many functions have been made. -/
  made : Nat
  /-- How often the clock has been read. -/
  ticks : Nat
  out : Output

/-- The frame that is made next. -/
def Store.fresh (σ : Store) : FrameId := σ.heap.frames.size

/-- The store with a new frame inside `i`. -/
def Store.within (σ : Store) (i : FrameId) (vars : Bindings) : Store :=
  { σ with heap := (σ.heap.push i vars).2 }

/-- How a part of a program ends. -/
abbrev Outcome (α : Type) := Except Fault α

namespace BigStep

/-! ### Names -/

/-- Of the frames `is`, from the nearest one out, `i` is the first that binds `x`, namely to `v`. -/
inductive Bound (h : Heap) (x : String) : List FrameId → FrameId → Value → Prop where
  | here {i is v} : h.own? x i = some v → Bound h x (i :: is) i v
  | outer {i is j v} : h.own? x i = none → Bound h x is j v → Bound h x (i :: is) j v

/-- A name that no frame around `s` binds. -/
def Unbound (h : Heap) (x : String) (s : FrameId) : Prop := ∀ i ∈ h.chain s, h.own? x i = none

/-! ### Operators -/

/-- Only `nil` and `false` are false. -/
def Falsy (v : Value) : Prop := v = .nil ∨ v = .bool false

/-- The operators that take numbers alone, with what they make of them. -/
def arithmetic : Kind → Option (Float → Float → Value)
  | .minus => some fun x y => .num (x - y)
  | .slash => some fun x y => .num (x / y)
  | .star => some fun x y => .num (x * y)
  | .greater => some fun x y => .bool (y < x)
  | .greaterEqual => some fun x y => .bool (y ≤ x)
  | .less => some fun x y => .bool (x < y)
  | .lessEqual => some fun x y => .bool (x ≤ y)
  | _ => none

/-- Two numbers. -/
def Numbers (a b : Value) : Prop := ∃ x y, a = .num x ∧ b = .num y

/-- Two strings. -/
def Strings (a b : Value) : Prop := ∃ s t, a = .str s ∧ b = .str t

/-- What a binary operator makes of the values of its operands. -/
inductive Combines (op : Token) : Value → Value → Outcome Value → Prop where
  | equal (a b) : op.kind = .equalEqual → Combines op a b (.ok (.bool (a.same b)))
  | unequal (a b) : op.kind = .bangEqual → Combines op a b (.ok (.bool (!a.same b)))
  | sum (x y) : op.kind = .plus → Combines op (.num x) (.num y) (.ok (.num (x + y)))
  | joined (s t) : op.kind = .plus → Combines op (.str s) (.str t) (.ok (.str (s ++ t)))
  | notAddable {a b} : op.kind = .plus → ¬Numbers a b → ¬Strings a b →
      Combines op a b (.error ⟨.addOperands, op⟩)
  | numbers {f} (x y) : arithmetic op.kind = some f →
      Combines op (.num x) (.num y) (.ok (f x y))
  | notNumbers {f a b} : arithmetic op.kind = some f → ¬Numbers a b →
      Combines op a b (.error ⟨.numberOperands, op⟩)
  | notBinary (a b) : op.kind ≠ .equalEqual → op.kind ≠ .bangEqual → op.kind ≠ .plus →
      arithmetic op.kind = none → Combines op a b (.error ⟨.notBinary, op⟩)

/-- What a prefix operator makes of the value of its operand. -/
inductive Applies (op : Token) : Value → Outcome Value → Prop where
  | negated (x) : op.kind = .minus → Applies op (.num x) (.ok (.num (-x)))
  | notNumber {a} : op.kind = .minus → (∀ x, a ≠ .num x) →
      Applies op a (.error ⟨.numberOperand, op⟩)
  | falsy {a} : op.kind = .bang → Falsy a → Applies op a (.ok (.bool true))
  | truthy {a} : op.kind = .bang → ¬Falsy a → Applies op a (.ok (.bool false))
  | notUnary (a) : op.kind ≠ .minus → op.kind ≠ .bang → Applies op a (.error ⟨.notUnary, op⟩)

/-- The left operand decides an `or` when it is true, and an `and` when it is false. -/
def Decides (op : Token) (a : Value) : Prop := op.kind = .kwOr ↔ ¬Falsy a

/-! ### Judgments -/

mutual

/-- `Evaluates κ s d e σ r σ'`: with the clock readings `κ`, in the frame `s` and with `d` calls
under way, the expression `e` has the outcome `r` and leaves `σ'` of the store `σ`. -/
inductive Evaluates (κ : Nat → Option Float) :
    FrameId → Nat → Expr → Store → Outcome Value → Store → Prop where
  | literal {s d σ} (v : Literal) : Evaluates κ s d (.literal v) σ (.ok v.toValue) σ
  | name {s d σ i v} (x : Token) : Bound σ.heap x.lexeme (σ.heap.chain s) i v →
      Evaluates κ s d (.variable x) σ (.ok v) σ
  | unbound {s d σ} (x : Token) : Unbound σ.heap x.lexeme s →
      Evaluates κ s d (.variable x) σ (.error ⟨.undefinedVariable, x⟩) σ
  | assign {s d e σ v σ₁ i w} (x : Token) : Evaluates κ s d e σ (.ok v) σ₁ →
      Bound σ₁.heap x.lexeme (σ₁.heap.chain s) i w →
      Evaluates κ s d (.assign x e) σ (.ok v) { σ₁ with heap := σ₁.heap.define x.lexeme v i }
  | assignUnbound {s d e σ v σ₁} (x : Token) : Evaluates κ s d e σ (.ok v) σ₁ →
      Unbound σ₁.heap x.lexeme s →
      Evaluates κ s d (.assign x e) σ (.error ⟨.undefinedVariable, x⟩) σ₁
  | assignFault {s d e σ f σ₁} (x : Token) : Evaluates κ s d e σ (.error f) σ₁ →
      Evaluates κ s d (.assign x e) σ (.error f) σ₁
  | unary {s d e σ a σ₁ r} (op : Token) : Evaluates κ s d e σ (.ok a) σ₁ → Applies op a r →
      Evaluates κ s d (.unary op e) σ r σ₁
  | unaryFault {s d e σ f σ₁} (op : Token) : Evaluates κ s d e σ (.error f) σ₁ →
      Evaluates κ s d (.unary op e) σ (.error f) σ₁
  | binary {s d l r σ a σ₁ b σ₂ res} (op : Token) : Evaluates κ s d l σ (.ok a) σ₁ →
      Evaluates κ s d r σ₁ (.ok b) σ₂ → Combines op a b res →
      Evaluates κ s d (.binary l op r) σ res σ₂
  | binaryLeft {s d l r σ f σ₁} (op : Token) : Evaluates κ s d l σ (.error f) σ₁ →
      Evaluates κ s d (.binary l op r) σ (.error f) σ₁
  | binaryRight {s d l r σ a σ₁ f σ₂} (op : Token) : Evaluates κ s d l σ (.ok a) σ₁ →
      Evaluates κ s d r σ₁ (.error f) σ₂ → Evaluates κ s d (.binary l op r) σ (.error f) σ₂
  | decided {s d l r σ a σ₁} (op : Token) : Evaluates κ s d l σ (.ok a) σ₁ → Decides op a →
      Evaluates κ s d (.logical l op r) σ (.ok a) σ₁
  | undecided {s d l r σ a σ₁ res σ₂} (op : Token) : Evaluates κ s d l σ (.ok a) σ₁ →
      ¬Decides op a → Evaluates κ s d r σ₁ res σ₂ → Evaluates κ s d (.logical l op r) σ res σ₂
  | logicalFault {s d l r σ f σ₁} (op : Token) : Evaluates κ s d l σ (.error f) σ₁ →
      Evaluates κ s d (.logical l op r) σ (.error f) σ₁
  | grouping {s d e σ r σ₁} : Evaluates κ s d e σ r σ₁ → Evaluates κ s d (.grouping e) σ r σ₁
  | call {s d f args σ c σ₁ vs σ₂ r σ₃} (paren : Token) : Evaluates κ s d f σ (.ok c) σ₁ →
      EvaluatesAll κ s d args σ₁ (.ok vs) σ₂ → Calls κ d paren c vs σ₂ r σ₃ →
      Evaluates κ s d (.call f paren args) σ r σ₃
  | callee {s d e args σ f σ₁} (paren : Token) : Evaluates κ s d e σ (.error f) σ₁ →
      Evaluates κ s d (.call e paren args) σ (.error f) σ₁
  | arguments {s d e args σ c σ₁ f σ₂} (paren : Token) : Evaluates κ s d e σ (.ok c) σ₁ →
      EvaluatesAll κ s d args σ₁ (.error f) σ₂ →
      Evaluates κ s d (.call e paren args) σ (.error f) σ₂

/-- Expressions from left to right, up to the first fault. -/
inductive EvaluatesAll (κ : Nat → Option Float) :
    FrameId → Nat → List Expr → Store → Outcome (List Value) → Store → Prop where
  | nil {s d σ} : EvaluatesAll κ s d [] σ (.ok []) σ
  | cons {s d e es σ v σ₁ vs σ₂} : Evaluates κ s d e σ (.ok v) σ₁ →
      EvaluatesAll κ s d es σ₁ (.ok vs) σ₂ → EvaluatesAll κ s d (e :: es) σ (.ok (v :: vs)) σ₂
  | head {s d e es σ f σ₁} : Evaluates κ s d e σ (.error f) σ₁ →
      EvaluatesAll κ s d (e :: es) σ (.error f) σ₁
  | tail {s d e es σ v σ₁ f σ₂} : Evaluates κ s d e σ (.ok v) σ₁ →
      EvaluatesAll κ s d es σ₁ (.error f) σ₂ → EvaluatesAll κ s d (e :: es) σ (.error f) σ₂

/-- A call, with `d` others under way. -/
inductive Calls (κ : Nat → Option Float) :
    Nat → Token → Value → List Value → Store → Outcome Value → Store → Prop where
  | notCallable {d paren v vs σ} : (∀ c, v ≠ .callable c) →
      Calls κ d paren v vs σ (.error ⟨.notCallable, paren⟩) σ
  | wrongArity {d paren c vs σ} : c.arity ≠ vs.length →
      Calls κ d paren (.callable c) vs σ (.error ⟨.wrongArity c.arity vs.length, paren⟩) σ
  | stackOverflow {d paren c vs σ} : c.arity = vs.length → maxCallDepth ≤ d →
      Calls κ d paren (.callable c) vs σ (.error ⟨.stackOverflow, paren⟩) σ
  | clock {d paren σ x} : d < maxCallDepth → κ σ.ticks = some x →
      Calls κ d paren (.callable .clock) [] σ (.ok (.num x)) { σ with ticks := σ.ticks + 1 }
  | returned {d paren f vs σ v σ₁} : f.params.length = vs.length → d < maxCallDepth →
      ExecutesAll κ σ.fresh (d + 1) f.body (σ.within f.frame (.ofArguments f.params vs))
        (.ok (.returned v)) σ₁ →
      Calls κ d paren (.callable (.function f)) vs σ (.ok v) σ₁
  | finished {d paren f vs σ σ₁} : f.params.length = vs.length → d < maxCallDepth →
      ExecutesAll κ σ.fresh (d + 1) f.body (σ.within f.frame (.ofArguments f.params vs))
        (.ok .next) σ₁ →
      Calls κ d paren (.callable (.function f)) vs σ (.ok .nil) σ₁
  | fault {d paren f vs σ e σ₁} : f.params.length = vs.length → d < maxCallDepth →
      ExecutesAll κ σ.fresh (d + 1) f.body (σ.within f.frame (.ofArguments f.params vs))
        (.error e) σ₁ →
      Calls κ d paren (.callable (.function f)) vs σ (.error e) σ₁

/-- A statement, in a frame and with a number of calls under way. -/
inductive Executes (κ : Nat → Option Float) :
    FrameId → Nat → Stmt → Store → Outcome Flow → Store → Prop where
  | expression {s d e σ v σ₁} : Evaluates κ s d e σ (.ok v) σ₁ →
      Executes κ s d (.expression e) σ (.ok .next) σ₁
  | expressionFault {s d e σ f σ₁} : Evaluates κ s d e σ (.error f) σ₁ →
      Executes κ s d (.expression e) σ (.error f) σ₁
  | print {s d e σ v σ₁ out} (k : Token) : Evaluates κ s d e σ (.ok v) σ₁ →
      σ₁.out.write (v.text ++ "\n") = (none, out) →
      Executes κ s d (.print k e) σ (.ok .next) { σ₁ with out }
  | refused {s d e σ v σ₁ r out} (k : Token) : Evaluates κ s d e σ (.ok v) σ₁ →
      σ₁.out.write (v.text ++ "\n") = (some r, out) →
      Executes κ s d (.print k e) σ (.error ⟨.output r, k⟩) { σ₁ with out }
  | printFault {s d e σ f σ₁} (k : Token) : Evaluates κ s d e σ (.error f) σ₁ →
      Executes κ s d (.print k e) σ (.error f) σ₁
  | var {s d σ} (x : Token) : Executes κ s d (.var x none) σ (.ok .next)
      { σ with heap := σ.heap.define x.lexeme .nil s }
  | init {s d e σ v σ₁} (x : Token) : Evaluates κ s d e σ (.ok v) σ₁ →
      Executes κ s d (.var x (some e)) σ (.ok .next)
        { σ₁ with heap := σ₁.heap.define x.lexeme v s }
  | initFault {s d e σ f σ₁} (x : Token) : Evaluates κ s d e σ (.error f) σ₁ →
      Executes κ s d (.var x (some e)) σ (.error f) σ₁
  | function {s d σ} (x : Token) (ps : List Token) (body : List Stmt) :
      Executes κ s d (.function x ps body) σ (.ok .next)
        { σ with
          heap := σ.heap.define x.lexeme (.callable (.function ⟨σ.made, x, ps, body, s⟩)) s
          made := σ.made + 1 }
  | block {s d body σ r σ₁} : ExecutesAll κ σ.fresh d body (σ.within s []) r σ₁ →
      Executes κ s d (.block body) σ r σ₁
  | yes {s d c yes no σ v σ₁ r σ₂} : Evaluates κ s d c σ (.ok v) σ₁ → ¬Falsy v →
      Executes κ s d yes σ₁ r σ₂ → Executes κ s d (.branch c yes no) σ r σ₂
  | no {s d c yes no σ v σ₁ r σ₂} : Evaluates κ s d c σ (.ok v) σ₁ → Falsy v →
      Executes κ s d no σ₁ r σ₂ → Executes κ s d (.branch c yes (some no)) σ r σ₂
  | neither {s d c yes σ v σ₁} : Evaluates κ s d c σ (.ok v) σ₁ → Falsy v →
      Executes κ s d (.branch c yes none) σ (.ok .next) σ₁
  | branchFault {s d c yes no σ f σ₁} : Evaluates κ s d c σ (.error f) σ₁ →
      Executes κ s d (.branch c yes no) σ (.error f) σ₁
  | loop {s d c body σ r σ₁} : Repeats κ s d c body σ r σ₁ →
      Executes κ s d (.loop c body) σ r σ₁
  | ret {s d σ} (k : Token) : Executes κ s d (.ret k none) σ (.ok (.returned .nil)) σ
  | retValue {s d e σ v σ₁} (k : Token) : Evaluates κ s d e σ (.ok v) σ₁ →
      Executes κ s d (.ret k (some e)) σ (.ok (.returned v)) σ₁
  | retFault {s d e σ f σ₁} (k : Token) : Evaluates κ s d e σ (.error f) σ₁ →
      Executes κ s d (.ret k (some e)) σ (.error f) σ₁

/-- A loop from a test of its condition on. -/
inductive Repeats (κ : Nat → Option Float) :
    FrameId → Nat → Expr → Stmt → Store → Outcome Flow → Store → Prop where
  | stop {s d c body σ v σ₁} : Evaluates κ s d c σ (.ok v) σ₁ → Falsy v →
      Repeats κ s d c body σ (.ok .next) σ₁
  | again {s d c body σ v σ₁ σ₂ r σ₃} : Evaluates κ s d c σ (.ok v) σ₁ → ¬Falsy v →
      Executes κ s d body σ₁ (.ok .next) σ₂ → Repeats κ s d c body σ₂ r σ₃ →
      Repeats κ s d c body σ r σ₃
  | returned {s d c body σ v σ₁ w σ₂} : Evaluates κ s d c σ (.ok v) σ₁ → ¬Falsy v →
      Executes κ s d body σ₁ (.ok (.returned w)) σ₂ →
      Repeats κ s d c body σ (.ok (.returned w)) σ₂
  | bodyFault {s d c body σ v σ₁ f σ₂} : Evaluates κ s d c σ (.ok v) σ₁ → ¬Falsy v →
      Executes κ s d body σ₁ (.error f) σ₂ → Repeats κ s d c body σ (.error f) σ₂
  | testFault {s d c body σ f σ₁} : Evaluates κ s d c σ (.error f) σ₁ →
      Repeats κ s d c body σ (.error f) σ₁

/-- Statements one after the other, up to a `return` or a fault. -/
inductive ExecutesAll (κ : Nat → Option Float) :
    FrameId → Nat → List Stmt → Store → Outcome Flow → Store → Prop where
  | nil {s d σ} : ExecutesAll κ s d [] σ (.ok .next) σ
  | cons {s d st ss σ σ₁ r σ₂} : Executes κ s d st σ (.ok .next) σ₁ →
      ExecutesAll κ s d ss σ₁ r σ₂ → ExecutesAll κ s d (st :: ss) σ r σ₂
  | returned {s d st ss σ v σ₁} : Executes κ s d st σ (.ok (.returned v)) σ₁ →
      ExecutesAll κ s d (st :: ss) σ (.ok (.returned v)) σ₁
  | fault {s d st ss σ f σ₁} : Executes κ s d st σ (.error f) σ₁ →
      ExecutesAll κ s d (st :: ss) σ (.error f) σ₁

end

/-- A program runs in the global frame, with no call under way. It may end at a `return`, which is
as good an end as any. -/
inductive Finishes (κ : Nat → Option Float) (program : List Stmt) (σ : Store) :
    Outcome Unit → Store → Prop where
  | ok {flow σ'} : ExecutesAll κ Heap.globals 0 program σ (.ok flow) σ' →
      Finishes κ program σ (.ok ()) σ'
  | fault {f σ'} : ExecutesAll κ Heap.globals 0 program σ (.error f) σ' →
      Finishes κ program σ (.error f) σ'

end BigStep
end Lox
