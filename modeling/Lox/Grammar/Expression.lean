import Lox.Grammar.Parse

/-!
Parsing of expressions. Each level of the grammar is one function over the level that binds tighter.
Parentheses, arguments, the right side of an assignment and the operand of a prefix operator open
the grammar anew, one level of nesting deeper; `room` says how many levels may still be opened.
`size` is the number of tokens of the program.
-/

namespace Lox.Parse

/-- The most arguments a call may have. -/
def maxArguments : Nat := 255

/-! ### One level over the next -/

/-- Operators of one level associate to the left. -/
def chainFrom (ops : Kind → Bool) (node : Expr → Token → Expr → Expr) (operand : Parse Expr) :
    Nat → Expr → Parse Expr
  | 0, left => return left
  | n + 1, left => do
    match ← takeIf ops with
    | none => return left
    | some op =>
      let right ← operand
      chainFrom ops node operand n (node left op right)

/-- Operands of the next level with operators of this level between them. -/
def chain (size : Nat) (ops : Kind → Bool) (node : Expr → Token → Expr → Expr)
    (operand : Parse Expr) : Parse Expr := do
  let left ← operand
  chainFrom ops node operand size left

/-- Whether an expression of the tightest level can start so. -/
def startsPrimary : Kind → Bool
  | .kwTrue | .kwFalse | .kwNil | .number | .string | .identifier | .leftParen => true
  | _ => false

/-- A literal, a name, or an expression in parentheses. -/
def primary (expression : Parse Expr) : Parse Expr := do
  match ← takeIf startsPrimary with
  | none => fail .noExpression
  | some t =>
    match t.kind with
    | .kwTrue => return .literal (.bool true)
    | .kwFalse => return .literal (.bool false)
    | .kwNil => return .literal .nil
    | .number | .string => return .literal t.value
    | .identifier => return .variable t
    | _ =>
      let e ← expression
      let _ ← expect .groupEnd
      return .grouping e

/-- Calls of what a call gave, as often as arguments follow. -/
def callsFrom (size : Nat) (expression : Parse Expr) : Nat → Expr → Parse Expr
  | 0, callee => return callee
  | n + 1, callee => do
    if ← skipIf .leftParen then
      let args ← items size maxArguments .tooManyArguments expression
      let paren ← expect .argumentsEnd
      callsFrom size expression n (.call callee paren args)
    else return callee

/-- A primary expression and the calls behind it. -/
def callLevel (size : Nat) (expression : Parse Expr) : Parse Expr := do
  let callee ← primary expression
  callsFrom size expression size callee

/-- Prefix operators. -/
def isPrefixOp : Kind → Bool
  | .bang | .minus => true
  | _ => false

/-- A prefix operator with its operand, or a call. -/
def unaryLevel (size : Nat) (expression operand : Parse Expr) : Parse Expr := do
  match ← takeIf isPrefixOp with
  | some op => return .unary op (← operand)
  | none => callLevel size expression

/-- Operators of quotients and products. -/
def isFactorOp : Kind → Bool
  | .slash | .star => true
  | _ => false

/-- Operators of sums and differences. -/
def isTermOp : Kind → Bool
  | .plus | .minus => true
  | _ => false

/-- Operators of order. -/
def isComparisonOp : Kind → Bool
  | .greater | .greaterEqual | .less | .lessEqual => true
  | _ => false

/-- Operators of equality. -/
def isEqualityOp : Kind → Bool
  | .bangEqual | .equalEqual => true
  | _ => false

/-- Quotients and products. -/
def factor (size : Nat) (expression operand : Parse Expr) : Parse Expr :=
  chain size isFactorOp .binary (unaryLevel size expression operand)

/-- Sums and differences. -/
def term (size : Nat) (expression operand : Parse Expr) : Parse Expr :=
  chain size isTermOp .binary (factor size expression operand)

/-- Comparisons by order. -/
def comparison (size : Nat) (expression operand : Parse Expr) : Parse Expr :=
  chain size isComparisonOp .binary (term size expression operand)

/-- Comparisons for equality. -/
def equality (size : Nat) (expression operand : Parse Expr) : Parse Expr :=
  chain size isEqualityOp .binary (comparison size expression operand)

/-- Equalities joined by `and`. -/
def conjunction (size : Nat) (expression operand : Parse Expr) : Parse Expr :=
  chain size (· == .kwAnd) .logical (equality size expression operand)

/-- Conjunctions joined by `or`. -/
def disjunction (size : Nat) (expression operand : Parse Expr) : Parse Expr :=
  chain size (· == .kwOr) .logical (conjunction size expression operand)

/-- An assignment to a name, or a disjunction. Any other left side is reported at the equals sign,
once the right side has been read, and stands for the whole. -/
def assignment (size : Nat) (expression operand : Parse Expr) : Parse Expr := do
  let left ← disjunction size expression operand
  match ← takeIf (· == .equal) with
  | none => return left
  | some equals =>
    let value ← expression
    match left with
    | .variable name => return .assign name value
    | _ =>
      reportAt .invalidTarget (some equals)
      return left

/-! ### Nesting -/

mutual

/-- An expression, one level of nesting deeper than what is around it. -/
def expression (size : Nat) : Nat → Parse Expr
  | 0 => fail .tooMuchNesting
  | room + 1 => assignment size (expression size room) (operand size room)

/-- The operand of a prefix operator, one level of nesting deeper than the operator. -/
def operand (size : Nat) : Nat → Parse Expr
  | 0 => fail .tooMuchNesting
  | room + 1 => unaryLevel size (expression size room) (operand size room)

end

end Lox.Parse
