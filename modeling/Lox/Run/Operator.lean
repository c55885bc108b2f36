import Lox.Run.Machine

/-!
What operators do with the values of their operands.
-/

namespace Lox.Run

/-- An operator on two numbers. -/
def onNumbers (op : Token) (f : Float → Float → Value) : Value → Value → Run Value
  | .num x, .num y => return f x y
  | _, _ => raise .numberOperands op

/-- Numbers are added, and strings joined. -/
def plus (op : Token) : Value → Value → Run Value
  | .num x, .num y => return .num (x + y)
  | .str s, .str t => return .str (s ++ t)
  | _, _ => raise .addOperands op

/-- Equality takes any values; the order and arithmetic only take numbers. -/
def binary (op : Token) (a b : Value) : Run Value :=
  match op.kind with
  | .equalEqual => return .bool (a.same b)
  | .bangEqual => return .bool (!a.same b)
  | .plus => plus op a b
  | .minus => onNumbers op (fun x y => .num (x - y)) a b
  | .slash => onNumbers op (fun x y => .num (x / y)) a b
  | .star => onNumbers op (fun x y => .num (x * y)) a b
  | .greater => onNumbers op (fun x y => .bool (y < x)) a b
  | .greaterEqual => onNumbers op (fun x y => .bool (y ≤ x)) a b
  | .less => onNumbers op (fun x y => .bool (x < y)) a b
  | .lessEqual => onNumbers op (fun x y => .bool (x ≤ y)) a b
  | _ => raise .notBinary op

/-- Only numbers are negated; anything is true or false. -/
def unary (op : Token) (a : Value) : Run Value :=
  match op.kind, a with
  | .minus, .num x => return .num (-x)
  | .minus, _ => raise .numberOperand op
  | .bang, a => return .bool (!a.truthy)
  | _, _ => raise .notUnary op

/-- Whether the left operand decides: a true one for `or`, a false one otherwise. -/
def decides (op : Token) (a : Value) : Bool := (op.kind == .kwOr) == a.truthy

end Lox.Run
