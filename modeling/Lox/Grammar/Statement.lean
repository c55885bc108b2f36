import Lox.Grammar.Expression

/-!
Parsing of declarations and statements, with the same conventions as for expressions: `room` levels
of nesting may still be opened, and a program has `size` tokens. A declaration opens one level, and
the statement that it may be opens another.
-/

namespace Lox.Parse

/-- The most parameters a function may have. -/
def maxParameters : Nat := 255

/-- Declarations up to a closing brace or the end, put behind those in `acc`. -/
def declarations (declaration : Parse Stmt) : Nat → Array Stmt → Parse (List Stmt)
  | 0, acc => return acc.toList
  | n + 1, acc => do
    if (← nextIs .rightBrace) || (← atEnd) then return acc.toList
    else
      let s ← declaration
      declarations declaration n (acc.push s)

/-- What a block holds, with the brace that ends it. -/
def blockBody (size : Nat) (declaration : Parse Stmt) : Parse (List Stmt) := do
  let body ← declarations declaration size #[]
  let _ ← expect .blockEnd
  return body

/-- A part that is there unless a token of kind `stop` comes next. -/
def optionalUntil (stop : Kind) (part : Parse α) : Parse (Option α) := do
  if ← nextIs stop then return none else return some (← part)

/-! ### After the keyword -/

/-- A function: its name, its parameters and its body. -/
def functionRest (size : Nat) (declaration : Parse Stmt) : Parse Stmt := do
  let name ← expect .functionName
  let _ ← expect .functionParen
  let params ← items size maxParameters .tooManyParameters (expect .parameterName)
  let _ ← expect .parametersEnd
  let _ ← expect .functionBody
  let body ← blockBody size declaration
  return .function name params body

/-- A variable and perhaps its first value. -/
def variableRest (expression : Parse Expr) : Parse Stmt := do
  let name ← expect .variableName
  let init ← if ← skipIf .equal then some <$> expression else pure none
  let _ ← expect .variableEnd
  return .var name init

/-- An expression that is evaluated for what it does. -/
def expressionStatement (expression : Parse Expr) : Parse Stmt := do
  let e ← expression
  let _ ← expect .expressionEnd
  return .expression e

/-- An `else` belongs to the nearest `if` that can take it. -/
def ifRest (expression : Parse Expr) (statement : Parse Stmt) : Parse Stmt := do
  let _ ← expect .ifParen
  let cond ← expression
  let _ ← expect .ifEnd
  let yes ← statement
  let no ← if ← skipIf .kwElse then some <$> statement else pure none
  return .branch cond yes no

/-- A loop with its condition. -/
def whileRest (expression : Parse Expr) (statement : Parse Stmt) : Parse Stmt := do
  let _ ← expect .whileParen
  let cond ← expression
  let _ ← expect .whileEnd
  let body ← statement
  return .loop cond body

/-- The first clause of a `for`, with its semicolon. -/
def forInit (expression : Parse Expr) : Parse (Option Stmt) := do
  if ← skipIf .semicolon then return none
  else if ← skipIf .kwVar then return some (← variableRest expression)
  else return some (← expressionStatement expression)

/-- A loop with clauses; the second and the third may be missing too. -/
def forRest (expression : Parse Expr) (statement : Parse Stmt) : Parse Stmt := do
  let _ ← expect .forParen
  let init ← forInit expression
  let cond ← optionalUntil .semicolon expression
  let _ ← expect .loopConditionEnd
  let incr ← optionalUntil .rightParen expression
  let _ ← expect .forEnd
  let body ← statement
  return .forLoop init cond incr body

/-- The value to print. -/
def printRest (keyword : Token) (expression : Parse Expr) : Parse Stmt := do
  let e ← expression
  let _ ← expect .printEnd
  return .print keyword e

/-- The value to give back, if any. -/
def returnRest (keyword : Token) (expression : Parse Expr) : Parse Stmt := do
  let value ← optionalUntil .semicolon expression
  let _ ← expect .returnEnd
  return .ret keyword value

/-! ### Which statement -/

/-- The tokens that decide which statement comes; any other starts an expression statement. -/
def opensStatement : Kind → Bool
  | .kwIf | .kwPrint | .kwReturn | .kwWhile | .kwFor | .leftBrace => true
  | _ => false

/-- A statement over the parts that it is made of. -/
def statementLevel (size : Nat) (expression : Parse Expr) (declaration statement : Parse Stmt) :
    Parse Stmt := do
  match ← takeIf opensStatement with
  | none => expressionStatement expression
  | some t =>
    match t.kind with
    | .kwIf => ifRest expression statement
    | .kwPrint => printRest t expression
    | .kwReturn => returnRest t expression
    | .kwWhile => whileRest expression statement
    | .kwFor => forRest expression statement
    | _ => return .block (← blockBody size declaration)

/-- The tokens that open a declaration; any other starts a statement. -/
def opensDeclaration : Kind → Bool
  | .kwFun | .kwVar => true
  | _ => false

/-- A declaration over the parts that it is made of. -/
def declarationLevel (size : Nat) (expression : Parse Expr) (declaration statement : Parse Stmt) :
    Parse Stmt := do
  match ← takeIf opensDeclaration with
  | none => statement
  | some t =>
    match t.kind with
    | .kwFun => functionRest size declaration
    | _ => variableRest expression

/-! ### Nesting -/

mutual

/-- A declaration, one level of nesting deeper than what is around it. -/
def declaration (size : Nat) : Nat → Parse Stmt
  | 0 => fail .tooMuchNesting
  | room + 1 =>
    declarationLevel size (expression size room) (declaration size room) (statement size room)

/-- A statement, one level of nesting deeper than what is around it. -/
def statement (size : Nat) : Nat → Parse Stmt
  | 0 => fail .tooMuchNesting
  | room + 1 =>
    statementLevel size (expression size room) (declaration size room) (statement size room)

end

end Lox.Parse
