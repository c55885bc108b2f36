import Lox.Grammar.Parser

/-!
Parsing with a cursor. The cursor stands at a place of a list of tokens in which end markers may
occur; it goes on token by token, and stays where the first end marker is. A counter says how many
levels of nesting are open: it goes up when a level is opened, and down again when it is closed,
whichever way that comes about. Loops and levels are bounded by a number of rounds only, and a walk
that runs out of them is cut off.
-/

namespace Lox

/-- How far a parser has come. -/
structure Cursor where
  /-- The place of the next token. -/
  current : Nat
  /-- How many levels are open. -/
  nesting : Nat
  /-- How many levels have been open at most. -/
  peak : Nat
  /-- What has been reported. -/
  reports : Array GrammarError

/-- Why a walk stops early: an error, or the end of its rounds. -/
inductive Cursor.Halt where
  | error (e : GrammarError)
  | exhausted

/-- A walk of a cursor over tokens. -/
abbrev Walk := EStateM Cursor.Halt Cursor

namespace Walk

variable {α : Type} (ts : List Token)

/-! ### Tokens -/

/-- The next token; behind all tokens there is an end marker. -/
def peek : Walk Token := fun c => .ok (ts[c.current]?.getD (Token.standIn ts)) c

/-- The token before the cursor. -/
def previous : Walk Token := fun c =>
  match c.current with
  | 0 => .ok (Token.standIn ts) c
  | i + 1 => .ok (ts[i]?.getD (Token.standIn ts)) c

/-- Whether the next token is an end marker. -/
def isAtEnd : Walk Bool := do return (← peek ts).isEof

/-- Whether the next token is of kind `k`; an end marker never is. -/
def check (k : Kind) : Walk Bool := do
  if ← isAtEnd ts then return false else return (← peek ts).kind == k

/-- Go on to the next token, but never past an end marker. -/
def advance : Walk Token := do
  if ← isAtEnd ts then previous ts
  else
    modify fun c => { c with current := c.current + 1 }
    previous ts

/-- Go on if the next token is of kind `k`, and say whether it was. -/
def matchOne (k : Kind) : Walk Bool := do
  if ← check ts k then
    let _ ← advance ts
    return true
  else return false

/-- Go on if the next token is of one of the kinds, and say whether it was. -/
def matchEither : List Kind → Walk Bool
  | [] => return false
  | k :: ks => do if ← matchOne ts k then return true else matchEither ks

/-! ### Errors -/

/-- Stop at the next token. -/
def fail (flaw : Flaw) : Walk α := do throw (.error ⟨flaw, ← peek ts⟩)

/-- Note an error and go on. -/
def report (e : GrammarError) : Walk Unit :=
  modify fun c => { c with reports := c.reports.push e }

/-- Take the token that a place of the grammar needs. -/
def consume (slot : Slot) : Walk Token := do
  if ← check ts slot.kind then advance ts else fail ts (.missing slot)

/-- Run a part of the grammar with one more level open, if there is one left to be opened. -/
def nested (part : Walk α) : Walk α := fun c =>
  if maxNesting ≤ c.nesting then fail ts .tooMuchNesting c
  else
    let c := { c with nesting := c.nesting + 1, peak := max c.peak (c.nesting + 1) }
    match part c with
    | .ok x c => .ok x { c with nesting := c.nesting - 1 }
    | .error e c => .error e { c with nesting := c.nesting - 1 }

/-! ### Items -/

/-- Items with commas between them, put behind those in `acc`. One beyond the first `limit` is
reported where it starts. -/
def itemsFrom (limit : Nat) (flaw : Flaw) (item : Walk α) : Nat → Array α → Walk (Array α)
  | 0, _ => throw .exhausted
  | n + 1, acc => do
    if limit ≤ acc.size then report ⟨flaw, ← peek ts⟩
    let x ← item
    if ← matchOne ts .comma then itemsFrom limit flaw item n (acc.push x)
    else return acc.push x

/-- Items up to the closing parenthesis. -/
def items (n limit : Nat) (flaw : Flaw) (item : Walk α) : Walk (List α) := do
  if ← check ts .rightParen then return []
  else return (← itemsFrom ts limit flaw item n #[]).toList

/-! ### Expressions -/

section
variable (n : Nat) (expression operand : Walk Expr)

def primary : Walk Expr := do
  if ← matchOne ts .kwTrue then return .literal (.bool true)
  else if ← matchOne ts .kwFalse then return .literal (.bool false)
  else if ← matchOne ts .kwNil then return .literal .nil
  else if ← matchEither ts [.number, .string] then return .literal (← previous ts).value
  else if ← matchOne ts .leftParen then
    let e ← expression
    let _ ← consume ts .groupEnd
    return .grouping e
  else if ← matchOne ts .identifier then return .variable (← previous ts)
  else fail ts .noExpression

/-- A call behind its opening parenthesis. -/
def finishCall (callee : Expr) : Walk Expr := do
  let args ← items ts n Parse.maxArguments .tooManyArguments expression
  let paren ← consume ts .argumentsEnd
  return .call callee paren args

def callFrom : Nat → Expr → Walk Expr
  | 0, _ => throw .exhausted
  | k + 1, callee => do
    if ← matchOne ts .leftParen then callFrom k (← finishCall ts n expression callee)
    else return callee

def call : Walk Expr := do callFrom ts n expression n (← primary ts expression)

def unary : Walk Expr := do
  if ← matchEither ts [.bang, .minus] then
    let op ← previous ts
    return .unary op (← operand)
  else call ts n expression

/-- Operators of one level, with operands of the next one. -/
def levelFrom (ops : List Kind) (node : Expr → Token → Expr → Expr) (next : Walk Expr) :
    Nat → Expr → Walk Expr
  | 0, _ => throw .exhausted
  | k + 1, left => do
    if ← matchEither ts ops then
      let op ← previous ts
      let right ← next
      levelFrom ops node next k (node left op right)
    else return left

def level (ops : List Kind) (node : Expr → Token → Expr → Expr) (next : Walk Expr) : Walk Expr := do
  levelFrom ts ops node next n (← next)

def factor : Walk Expr := level ts n [.slash, .star] .binary (unary ts n expression operand)

def term : Walk Expr := level ts n [.plus, .minus] .binary (factor ts n expression operand)

def comparison : Walk Expr :=
  level ts n [.greater, .greaterEqual, .less, .lessEqual] .binary (term ts n expression operand)

def equality : Walk Expr :=
  level ts n [.bangEqual, .equalEqual] .binary (comparison ts n expression operand)

def conjunction : Walk Expr := level ts n [.kwAnd] .logical (equality ts n expression operand)

def disjunction : Walk Expr := level ts n [.kwOr] .logical (conjunction ts n expression operand)

/-- The right side of an assignment is an assignment one level deeper, which is what an expression
is. -/
def assignment : Walk Expr := do
  let left ← disjunction ts n expression operand
  if ← matchOne ts .equal then
    let equals ← previous ts
    let value ← expression
    match left with
    | .variable name => return .assign name value
    | _ =>
      report ⟨.invalidTarget, equals⟩
      return left
  else return left

end

mutual

def expression : Nat → Walk Expr
  | 0 => throw .exhausted
  | n + 1 => nested ts (assignment ts n (expression n) (operand n))

/-- The operand of a prefix operator. -/
def operand : Nat → Walk Expr
  | 0 => throw .exhausted
  | n + 1 => nested ts (unary ts n (expression n) (operand n))

end

/-! ### Statements -/

section
variable (n : Nat) (expression : Walk Expr) (declaration statement : Walk Stmt)

def blockFrom : Nat → Array Stmt → Walk (List Stmt)
  | 0, _ => throw .exhausted
  | k + 1, stmts => do
    if !(← check ts .rightBrace) && !(← isAtEnd ts) then
      blockFrom k (stmts.push (← declaration))
    else
      let _ ← consume ts .blockEnd
      return stmts.toList

/-- A block behind its opening brace. -/
def block : Walk (List Stmt) := blockFrom ts declaration n #[]

def function : Walk Stmt := do
  let name ← consume ts .functionName
  let _ ← consume ts .functionParen
  let params ← items ts n Parse.maxParameters .tooManyParameters (consume ts .parameterName)
  let _ ← consume ts .parametersEnd
  let _ ← consume ts .functionBody
  let body ← block ts n declaration
  return .function name params body

def variableDeclaration : Walk Stmt := do
  let name ← consume ts .variableName
  let init ← if ← matchOne ts .equal then pure (some (← expression)) else pure none
  let _ ← consume ts .variableEnd
  return .var name init

def expressionStatement : Walk Stmt := do
  let e ← expression
  let _ ← consume ts .expressionEnd
  return .expression e

def ifStatement : Walk Stmt := do
  let _ ← consume ts .ifParen
  let cond ← expression
  let _ ← consume ts .ifEnd
  let yes ← statement
  let no ← if ← matchOne ts .kwElse then pure (some (← statement)) else pure none
  return .branch cond yes no

def whileStatement : Walk Stmt := do
  let _ ← consume ts .whileParen
  let cond ← expression
  let _ ← consume ts .whileEnd
  let body ← statement
  return .loop cond body

/-- The first clause of a `for`, with its semicolon. -/
def initializer : Walk (Option Stmt) := do
  if ← matchOne ts .semicolon then return none
  else if ← matchOne ts .kwVar then return some (← variableDeclaration ts expression)
  else return some (← expressionStatement ts expression)

/-- A `for` behind its condition. Loops with clauses are put together from other statements. -/
def forBehind (init : Option Stmt) (cond : Expr) : Walk Stmt := do
  let _ ← consume ts .loopConditionEnd
  let incr ← if !(← check ts .rightParen) then pure (some (← expression)) else pure none
  let _ ← consume ts .forEnd
  let body ← statement
  let inner := body :: (incr.map .expression).toList
  return .block (init.toList ++ [.loop cond (.block inner)])

def forStatement : Walk Stmt := do
  let _ ← consume ts .forParen
  let init ← initializer ts expression
  if !(← check ts .semicolon) then forBehind ts expression statement init (← expression)
  else forBehind ts expression statement init (.literal (.bool true))

def printStatement : Walk Stmt := do
  let keyword ← previous ts
  let e ← expression
  let _ ← consume ts .printEnd
  return .print keyword e

def returnStatement : Walk Stmt := do
  let keyword ← previous ts
  let value ← if !(← check ts .semicolon) then pure (some (← expression)) else pure none
  let _ ← consume ts .returnEnd
  return .ret keyword value

/-- Which statement it is. -/
def statementForm : Walk Stmt := do
  if ← matchOne ts .kwIf then ifStatement ts expression statement
  else if ← matchOne ts .kwPrint then printStatement ts expression
  else if ← matchOne ts .kwReturn then returnStatement ts expression
  else if ← matchOne ts .kwWhile then whileStatement ts expression statement
  else if ← matchOne ts .kwFor then forStatement ts expression statement
  else if ← matchOne ts .leftBrace then return .block (← block ts n declaration)
  else expressionStatement ts expression

/-- Which declaration it is, if it is one. -/
def declarationForm : Walk Stmt := do
  if ← matchOne ts .kwFun then function ts n declaration
  else if ← matchOne ts .kwVar then variableDeclaration ts expression
  else statement

end

mutual

def declaration : Nat → Walk Stmt
  | 0 => throw .exhausted
  | n + 1 => nested ts (declarationForm ts n (expression ts n) (declaration n) (statement n))

def statement : Nat → Walk Stmt
  | 0 => throw .exhausted
  | n + 1 => nested ts (statementForm ts n (expression ts n) (declaration n) (statement n))

end

/-! ### Calls -/

/-- Go on until the last token was a semicolon or the next one starts a statement. -/
def toBoundary : Nat → Walk Unit
  | 0 => throw .exhausted
  | k + 1 => do
    if !(← isAtEnd ts) then
      if (← previous ts).kind == .semicolon || (← peek ts).kind.startsStatement then return ()
      else
        let _ ← advance ts
        toBoundary k
    else return ()

/-- Go on to the next statement boundary; the token at the error is passed in any case. -/
def synchronize (n : Nat) : Walk Unit := do
  let _ ← advance ts
  toBoundary ts n

/-- Run a part of the grammar and give its error as a result, if it stops at one. -/
def caught (part : Walk α) : Walk (Except GrammarError α) := fun c =>
  match part c with
  | .ok x c => .ok (.ok x) c
  | .error (.error e) c => .ok (.error e) c
  | .error .exhausted c => .error .exhausted c

/-- Declarations up to the end or up to the first error that stops one, put behind those in `stmts`.
The error is noted when the cursor is at the next statement boundary. -/
def programFrom (n : Nat) : Nat → Array Stmt → Walk (Array Stmt)
  | 0, _ => throw .exhausted
  | k + 1, stmts => do
    if !(← isAtEnd ts) then
      match ← caught (declaration ts n) with
      | .ok s => programFrom n k (stmts.push s)
      | .error e =>
        synchronize ts n
        report e
        return stmts
    else return stmts

/-- Hand over what has been reported, and keep nothing of it. -/
def takeReports : Walk (Array GrammarError) :=
  modifyGet fun c => (c.reports, { c with reports := #[] })

/-- One call: a program, or all errors in order. -/
def parse (n : Nat) : Walk (Except (List GrammarError) (List Stmt)) := do
  let stmts ← programFrom ts n n #[]
  let errors ← takeReports
  return if errors.isEmpty then .ok stmts.toList else .error errors.toList

/-- Calls, one after the other, whatever each of them gives. -/
def calls (n : Nat) : Nat → Walk Unit
  | 0 => return ()
  | m + 1 => do
    calls n m
    let _ ← parse ts n

/-- What the call after `m` others gives. -/
def answer (n m : Nat) : Walk (Except (List GrammarError) (List Stmt)) := do
  calls ts n m
  parse ts n

end Walk

/-- The cursor of a new parser. -/
def Cursor.start : Cursor := ⟨0, 0, 0, #[]⟩

/-! ### Productions -/

/-- The productions of the grammar. A call is finished for what is called. -/
inductive Production where
  | declaration | statement | block
  | expression | assignment | disjunction | conjunction | equality | comparison | term | factor
  | unary | call | finishCall (callee : Expr) | primary

namespace Production

/-- What a production gives. -/
abbrev Tree : Production → Type
  | .declaration | .statement => Stmt
  | .block => List Stmt
  | _ => Expr

/-- A production as a walk over tokens, within `n` rounds. -/
def walk (ts : List Token) (n : Nat) : (p : Production) → Walk p.Tree
  | .declaration => Walk.declaration ts n
  | .statement => Walk.statement ts n
  | .block => Walk.block ts n (Walk.declaration ts n)
  | .expression => Walk.expression ts n
  | .assignment => Walk.assignment ts n (Walk.expression ts n) (Walk.operand ts n)
  | .disjunction => Walk.disjunction ts n (Walk.expression ts n) (Walk.operand ts n)
  | .conjunction => Walk.conjunction ts n (Walk.expression ts n) (Walk.operand ts n)
  | .equality => Walk.equality ts n (Walk.expression ts n) (Walk.operand ts n)
  | .comparison => Walk.comparison ts n (Walk.expression ts n) (Walk.operand ts n)
  | .term => Walk.term ts n (Walk.expression ts n) (Walk.operand ts n)
  | .factor => Walk.factor ts n (Walk.expression ts n) (Walk.operand ts n)
  | .unary => Walk.unary ts n (Walk.expression ts n) (Walk.operand ts n)
  | .call => Walk.call ts n (Walk.expression ts n)
  | .finishCall callee => Walk.finishCall ts n (Walk.expression ts n) callee
  | .primary => Walk.primary ts (Walk.expression ts n)

/-- The same production over the tokens that are left, of which there are at most `size`, with
`room` levels that may still be opened. -/
def parse (size room : Nat) : (p : Production) → Parse p.Tree
  | .declaration => Parse.declaration size room
  | .statement => Parse.statement size room
  | .block => Parse.blockBody size (Parse.declaration size room)
  | .expression => Parse.expression size room
  | .assignment => Parse.assignment size (Parse.expression size room) (Parse.operand size room)
  | .disjunction => Parse.disjunction size (Parse.expression size room) (Parse.operand size room)
  | .conjunction => Parse.conjunction size (Parse.expression size room) (Parse.operand size room)
  | .equality => Parse.equality size (Parse.expression size room) (Parse.operand size room)
  | .comparison => Parse.comparison size (Parse.expression size room) (Parse.operand size room)
  | .term => Parse.term size (Parse.expression size room) (Parse.operand size room)
  | .factor => Parse.factor size (Parse.expression size room) (Parse.operand size room)
  | .unary => Parse.unaryLevel size (Parse.expression size room) (Parse.operand size room)
  | .call => Parse.callLevel size (Parse.expression size room)
  | .finishCall callee => do
    let args ← Parse.items size Parse.maxArguments .tooManyArguments (Parse.expression size room)
    return .call callee (← Parse.expect .argumentsEnd) args
  | .primary => Parse.primary (Parse.expression size room)

end Production

end Lox
