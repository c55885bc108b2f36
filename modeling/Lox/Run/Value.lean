import Lox.Decimal.Text
import Lox.Grammar.Tree

/-!
Values. Next to the four kinds that literals denote there are things to call: the clock, and
functions, which remember the frame they were declared in. Every execution of a declaration makes a
function of its own, told apart by its number.
-/

namespace Lox

/-- Names a frame of variables. -/
abbrev FrameId := Nat

/-- A function made by running its declaration. -/
structure Closure where
  /-- How many functions were made before this one. -/
  id : Nat
  name : Token
  params : List Token
  body : List Stmt
  /-- The frame in which it was declared. -/
  frame : FrameId

/-- What can be called. -/
inductive Callable where
  | clock
  | function (f : Closure)

/-- What expressions evaluate to. -/
inductive Value where
  | nil
  | bool (b : Bool)
  | num (x : Float)
  | str (s : String)
  | callable (c : Callable)

/-- The value that a literal denotes. -/
def Literal.toValue : Literal → Value
  | .nil => .nil
  | .bool b => .bool b
  | .num x => .num x
  | .str s => .str s

/-- Only `nil` and `false` count as false. -/
def Value.truthy : Value → Bool
  | .nil | .bool false => false
  | _ => true

/-- There is one clock, and a function is the same only as itself. -/
def Callable.same : Callable → Callable → Bool
  | .clock, .clock => true
  | .function f, .function g => f.id == g.id
  | _, _ => false

/-- Values of different kinds differ; numbers compare by the rules of doubles. -/
def Value.same : Value → Value → Bool
  | .nil, .nil => true
  | .bool a, .bool b => a == b
  | .num x, .num y => x == y
  | .str s, .str t => s == t
  | .callable c, .callable d => c.same d
  | _, _ => false

/-- How many arguments a call takes. -/
def Callable.arity : Callable → Nat
  | .clock => 0
  | .function f => f.params.length

/-! ### Text -/

/-- A literal on its own, not printed by a program. -/
def Literal.spelling : Decimal.Spelling := ⟨"NaN", "inf", "-inf"⟩

/-- A number that a program prints. -/
def Value.spelling : Decimal.Spelling := ⟨"NaN", "+Inf", "-Inf"⟩

/-- The text of a literal; strings are bare. -/
def Literal.text : Literal → String
  | .nil => "nil"
  | .bool true => "true"
  | .bool false => "false"
  | .num x => Decimal.text spelling x
  | .str s => s

/-- What can be called prints as its name in angle brackets. -/
def Callable.text : Callable → String
  | .clock => "<native fn clock>"
  | .function f => "<fn " ++ f.name.lexeme ++ ">"

/-- A value as a program prints it; strings are bare. -/
def Value.text : Value → String
  | .nil => "nil"
  | .bool true => "true"
  | .bool false => "false"
  | .num x => Decimal.text spelling x
  | .str s => s
  | .callable c => c.text

end Lox
