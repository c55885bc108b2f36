import Lox.Token

/-!
Errors of grammar: what a program lacks, or has too much of, at one of its tokens.
-/

namespace Lox

/-- The places of the grammar where one kind of token must stand. -/
inductive Slot where
  | functionName | functionParen | parameterName | parametersEnd | functionBody
  | variableName | variableEnd | blockEnd | expressionEnd
  | ifParen | ifEnd | whileParen | whileEnd | forParen | loopConditionEnd | forEnd
  | printEnd | returnEnd | argumentsEnd | groupEnd
  deriving DecidableEq, Repr

/-- The kind of token that a place takes. -/
def Slot.kind : Slot → Kind
  | .functionName | .parameterName | .variableName => .identifier
  | .functionParen | .ifParen | .whileParen | .forParen => .leftParen
  | .parametersEnd | .ifEnd | .whileEnd | .forEnd | .argumentsEnd | .groupEnd => .rightParen
  | .functionBody => .leftBrace
  | .blockEnd => .rightBrace
  | .variableEnd | .expressionEnd | .loopConditionEnd | .printEnd | .returnEnd => .semicolon

/-- What is said when the token is missing. -/
def Slot.message : Slot → String
  | .functionName => "Expect function name."
  | .functionParen => "Expect '(' after function name."
  | .parameterName => "Expect parameter name."
  | .parametersEnd => "Expect ')' after parameters."
  | .functionBody => "Expect '\x7b' before function body."
  | .variableName => "Expect variable name."
  | .variableEnd => "Expect ';' after variable declaration."
  | .blockEnd => "Expect '\x7d' after block."
  | .expressionEnd => "Expect ';' after expression."
  | .ifParen => "Expect '(' after 'if'."
  | .ifEnd => "Expect ')' after if condition."
  | .whileParen => "Expect '(' after 'while'."
  | .whileEnd => "Expect ')' after while condition."
  | .forParen => "Expect '(' after 'for'."
  | .loopConditionEnd => "Expect ';' after loop condition."
  | .forEnd => "Expect ')' after for clauses."
  | .printEnd => "Expect ';' after value."
  | .returnEnd => "Expect ';' after return value."
  | .argumentsEnd => "Expect ')' after arguments."
  | .groupEnd => "Expect ')' after expression."

/-- What is wrong with a program. -/
inductive Flaw where
  | missing (slot : Slot)
  | noExpression | tooMuchNesting
  | invalidTarget | tooManyParameters | tooManyArguments
  deriving DecidableEq, Repr

/-- Some flaws leave a tree all the same; parsing only stops at the others. -/
def Flaw.fatal : Flaw → Bool
  | .invalidTarget | .tooManyParameters | .tooManyArguments => false
  | _ => true

/-- What is said of a flaw. -/
def Flaw.message : Flaw → String
  | .missing slot => slot.message
  | .noExpression => "Expect expression."
  | .tooMuchNesting => "Too much nesting."
  | .invalidTarget => "Invalid assignment target."
  | .tooManyParameters => "Can't have more than 255 parameters."
  | .tooManyArguments => "Can't have more than 255 arguments."

/-- A flaw and the token at which it shows. -/
structure GrammarError where
  flaw : Flaw
  token : Token

/-- Where a token stands, in words. -/
def Token.location (t : Token) : String :=
  if t.isEof then "at end" else "at '" ++ t.lexeme ++ "'"

end Lox
