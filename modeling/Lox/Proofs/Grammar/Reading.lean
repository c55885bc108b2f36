import Lox.Grammar.Parser

/-!
What a parser reads, said without the parser. A reading relates tokens to the tree they spell and to
the flaws that are noted on the way. Each form of the grammar is a relation over those of its parts;
at the end of each half they are tied together by the levels of nesting that may be opened.
-/

namespace Lox

/-- Tokens, what they spell, and the flaws noted while they are read. -/
abbrev Reading (α : Type) := List Token → α → Array Problem → Prop

/-- What a token denotes as a literal of a program. -/
def Token.literal? (t : Token) : Option Literal :=
  match t.kind with
  | .kwTrue => some (.bool true)
  | .kwFalse => some (.bool false)
  | .kwNil => some .nil
  | .number | .string => some t.value
  | _ => none

namespace Reading
open Parse

variable {α : Type}

/-! ### Items -/

/-- The flaw of an item that starts at `t` and comes after `n` others. -/
def overflow (limit : Nat) (flaw : Flaw) (n : Nat) (t : Token) : Array Problem :=
  if limit ≤ n then #[⟨flaw, some t⟩] else #[]

/-- One item or more, with commas between them. -/
inductive Listed (limit : Nat) (flaw : Flaw) (P : Reading α) : Reading (List α) where
  | one {ts x fl} : P ts x fl → Listed limit flaw P ts [x] fl
  | more {us xs fl vs x fl'} (comma t : Token) : Listed limit flaw P us xs fl →
      comma.kind = .comma → P (t :: vs) x fl' →
      Listed limit flaw P (us ++ comma :: t :: vs) (xs ++ [x])
        (fl ++ overflow limit flaw xs.length t ++ fl')

/-- Any number of items. -/
inductive Items (limit : Nat) (flaw : Flaw) (P : Reading α) : Reading (List α) where
  | none : Items limit flaw P [] [] #[]
  | some {ts xs fl} : Listed limit flaw P ts xs fl → Items limit flaw P ts xs fl

/-- A part that may be missing. -/
inductive Optional (P : Reading α) : Reading (Option α) where
  | none : Optional P [] none #[]
  | some {ts x fl} : P ts x fl → Optional P ts (some x) fl

/-! ### Expressions

`E` reads an expression, and `O` the operand of a prefix operator, each one level deeper. -/

/-- A literal, a name, or an expression in parentheses. -/
inductive Primary (E : Reading Expr) : Reading Expr where
  | literal {v} (t : Token) : t.literal? = some v → Primary E [t] (.literal v) #[]
  | name (t : Token) : t.kind = .identifier → Primary E [t] (.variable t) #[]
  | group {ts e fl} (l r : Token) : l.kind = .leftParen → E ts e fl → r.kind = .rightParen →
      Primary E (l :: (ts ++ [r])) (.grouping e) fl

/-- A primary expression and the calls behind it. -/
inductive Called (E : Reading Expr) : Reading Expr where
  | primary {ts e fl} : Primary E ts e fl → Called E ts e fl
  | call {us f fl vs args fl'} (l r : Token) : Called E us f fl → l.kind = .leftParen →
      Items maxArguments .tooManyArguments E vs args fl' → r.kind = .rightParen →
      Called E (us ++ l :: (vs ++ [r])) (.call f r args) (fl ++ fl')

/-- A prefix operator with its operand, or a call. -/
inductive Unary (E O : Reading Expr) : Reading Expr where
  | operator {ts e fl} (op : Token) : isPrefixOp op.kind = true → O ts e fl →
      Unary E O (op :: ts) (.unary op e) fl
  | call {ts e fl} : Called E ts e fl → Unary E O ts e fl

/-- Operands with operators between them, from the left. -/
inductive Chained (ops : Kind → Bool) (node : Expr → Token → Expr → Expr) (P : Reading Expr) :
    Reading Expr where
  | one {ts e fl} : P ts e fl → Chained ops node P ts e fl
  | more {us l fl vs r fl'} (op : Token) : Chained ops node P us l fl → ops op.kind = true →
      P vs r fl' → Chained ops node P (us ++ op :: vs) (node l op r) (fl ++ fl')

/-- Quotients and products. -/
def Factor (E O : Reading Expr) : Reading Expr := Chained isFactorOp .binary (Unary E O)

/-- Sums and differences. -/
def Term (E O : Reading Expr) : Reading Expr := Chained isTermOp .binary (Factor E O)

/-- Comparisons by order. -/
def Comparison (E O : Reading Expr) : Reading Expr := Chained isComparisonOp .binary (Term E O)

/-- Comparisons for equality. -/
def Equality (E O : Reading Expr) : Reading Expr := Chained isEqualityOp .binary (Comparison E O)

/-- Equalities joined by `and`. -/
def Conjunction (E O : Reading Expr) : Reading Expr :=
  Chained (· == .kwAnd) .logical (Equality E O)

/-- Conjunctions joined by `or`. -/
def Disjunction (E O : Reading Expr) : Reading Expr :=
  Chained (· == .kwOr) .logical (Conjunction E O)

/-- A disjunction, or an assignment to one. Only a name can be assigned to. -/
inductive Assignment (E O : Reading Expr) : Reading Expr where
  | plain {ts e fl} : Disjunction E O ts e fl → Assignment E O ts e fl
  | assign {us fl vs e fl'} (x eq : Token) : Disjunction E O us (.variable x) fl →
      eq.kind = .equal → E vs e fl' → Assignment E O (us ++ eq :: vs) (.assign x e) (fl ++ fl')
  | invalid {us l fl vs e fl'} (eq : Token) : Disjunction E O us l fl → (∀ x, l ≠ .variable x) →
      eq.kind = .equal → E vs e fl' →
      Assignment E O (us ++ eq :: vs) l (fl ++ fl' ++ #[⟨.invalidTarget, some eq⟩])

mutual

/-- An expression that opens at most `n` levels. -/
def Expression : Nat → Reading Expr
  | 0 => fun _ _ _ => False
  | n + 1 => Assignment (Expression n) (Operand n)

/-- The operand of a prefix operator, which opens at most `n` levels. -/
def Operand : Nat → Reading Expr
  | 0 => fun _ _ _ => False
  | n + 1 => Unary (Expression n) (Operand n)

end

/-! ### First tokens of expressions -/

/-- Every phrase of `P` starts with a token that satisfies `p`. -/
def Starts (p : Kind → Bool) (P : Reading α) : Prop :=
  ∀ ts x fl, P ts x fl → ∃ t us, ts = t :: us ∧ p t.kind = true

theorem Starts.head {p : Kind → Bool} {P : Reading α} (hP : Starts p P) {k : Token}
    {us : List Token} {x : α} {fl : Array Problem} (h : P (k :: us) x fl) : p k.kind = true := by
  obtain ⟨_, _, ⟨rfl, rfl⟩, hk⟩ := hP _ _ _ h
  exact hk

theorem Starts.chained {p ops : Kind → Bool} {node : Expr → Token → Expr → Expr}
    {P : Reading Expr} (hP : Starts p P) : Starts p (Chained ops node P) := by
  intro ts x fl h
  induction h with
  | one h => exact hP _ _ _ h
  | more op _ _ _ ih =>
    obtain ⟨t, us, rfl, ht⟩ := ih
    exact ⟨t, _, rfl, ht⟩

theorem Starts.listed {p : Kind → Bool} {limit : Nat} {flaw : Flaw} {P : Reading α}
    (hP : Starts p P) : Starts p (Listed limit flaw P) := by
  intro ts x fl h
  induction h with
  | one h => exact hP _ _ _ h
  | more comma t _ _ _ ih =>
    obtain ⟨u, us, rfl, hu⟩ := ih
    exact ⟨u, _, rfl, hu⟩

/-- Whether an expression can start so. -/
def startsExpression (k : Kind) : Bool := startsPrimary k || isPrefixOp k

theorem primary_starts (E : Reading Expr) : Starts startsPrimary (Primary E) := by
  intro ts x fl h
  cases h with
  | literal t h =>
    refine ⟨t, [], rfl, ?_⟩
    revert h
    cases hk : t.kind <;> simp [Token.literal?, hk, startsPrimary]
  | name t h => exact ⟨t, [], rfl, by rw [h]; rfl⟩
  | group l r hl => exact ⟨l, _, rfl, by rw [hl]; rfl⟩

theorem called_starts (E : Reading Expr) : Starts startsPrimary (Called E) := by
  intro ts x fl h
  induction h with
  | primary h => exact primary_starts E _ _ _ h
  | call l r _ _ _ _ ih =>
    obtain ⟨t, us, rfl, ht⟩ := ih
    exact ⟨t, _, rfl, ht⟩

theorem unary_starts (E O : Reading Expr) : Starts startsExpression (Unary E O) := by
  intro ts x fl h
  cases h with
  | operator op hop => exact ⟨op, _, rfl, by simp [startsExpression, hop]⟩
  | call h =>
    obtain ⟨t, us, rfl, ht⟩ := called_starts E _ _ _ h
    exact ⟨t, us, rfl, by simp [startsExpression, ht]⟩

theorem disjunction_starts (E O : Reading Expr) : Starts startsExpression (Disjunction E O) :=
  (unary_starts E O).chained.chained.chained.chained.chained.chained

theorem assignment_starts (E O : Reading Expr) : Starts startsExpression (Assignment E O) := by
  intro ts x fl h
  cases h with
  | plain h => exact disjunction_starts E O _ _ _ h
  | assign _ _ h | invalid _ h =>
    obtain ⟨t, us, rfl, ht⟩ := disjunction_starts E O _ _ _ h
    exact ⟨t, _, rfl, ht⟩

theorem expression_starts : ∀ n, Starts startsExpression (Expression n)
  | 0 => fun _ _ _ h => h.elim
  | _ + 1 => assignment_starts _ _

/-! ### Declarations and statements

`D` reads a declaration and `S` a statement, each one level deeper. A statement is known to end in
an `if` that could still take an `else`, or not to. -/

end Reading

/-- Whether a statement ends in an `if` without an `else`. -/
inductive Tail where
  | closed | dangling
  deriving DecidableEq, Repr

namespace Reading
open Parse

/-- Any number of declarations. -/
inductive Declarations (D : Reading Stmt) : Reading (List Stmt) where
  | nil : Declarations D [] [] #[]
  | cons {ts s fl us ss fl'} : D ts s fl → Declarations D us ss fl' →
      Declarations D (ts ++ us) (s :: ss) (fl ++ fl')

/-- A declaration may be put at the end. -/
theorem Declarations.concat {D : Reading Stmt} {ts us : List Token} {ss : List Stmt} {s : Stmt}
    {fl fl' : Array Problem} (h : Declarations D ts ss fl) (hs : D us s fl') :
    Declarations D (ts ++ us) (ss ++ [s]) (fl ++ fl') := by
  induction h with
  | nil => simpa using Declarations.cons hs .nil
  | cons hd _ ih =>
    rw [List.append_assoc, Array.append_assoc]
    exact .cons hd ih

/-- What a block holds, with the brace that ends it. -/
inductive Block (D : Reading Stmt) : Reading (List Stmt) where
  | mk {ts ss fl} (r : Token) : Declarations D ts ss fl → r.kind = .rightBrace →
      Block D (ts ++ [r]) ss fl

/-- A name. -/
inductive Name : Reading Token where
  | mk (t : Token) : t.kind = .identifier → Name [t] t #[]

theorem name_starts : Starts (· == .identifier) Name := by
  rintro _ t _ ⟨_, ht⟩
  exact ⟨t, [], rfl, by simp [ht]⟩

/-- A function after its keyword. -/
inductive Function (D : Reading Stmt) : Reading Stmt where
  | mk {ps params fl ts body fl'} (name l r b : Token) : name.kind = .identifier →
      l.kind = .leftParen → Items maxParameters .tooManyParameters Name ps params fl →
      r.kind = .rightParen → b.kind = .leftBrace → Block D ts body fl' →
      Function D (name :: l :: (ps ++ r :: b :: ts)) (.function name params body) (fl ++ fl')

/-- A variable after its keyword. -/
inductive Variable (E : Reading Expr) : Reading Stmt where
  | bare (name semi : Token) : name.kind = .identifier → semi.kind = .semicolon →
      Variable E [name, semi] (.var name none) #[]
  | init {ts e fl} (name eq semi : Token) : name.kind = .identifier → eq.kind = .equal →
      E ts e fl → semi.kind = .semicolon →
      Variable E (name :: eq :: (ts ++ [semi])) (.var name (some e)) fl

/-- An expression that is evaluated for what it does. -/
inductive Effect (E : Reading Expr) : Reading Stmt where
  | mk {ts e fl} (semi : Token) : E ts e fl → semi.kind = .semicolon →
      Effect E (ts ++ [semi]) (.expression e) fl

/-- The first clause of a `for`, with its semicolon. -/
inductive Init (E : Reading Expr) : Reading (Option Stmt) where
  | none (semi : Token) : semi.kind = .semicolon → Init E [semi] none #[]
  | var {ts s fl} (k : Token) : k.kind = .kwVar → Variable E ts s fl →
      Init E (k :: ts) (some s) fl
  | effect {ts s fl} : Effect E ts s fl → Init E ts (some s) fl

/-- The value to print, after the keyword `k`. -/
inductive Print (k : Token) (E : Reading Expr) : Reading Stmt where
  | mk {ts e fl} (semi : Token) : E ts e fl → semi.kind = .semicolon →
      Print k E (ts ++ [semi]) (.print k e) fl

/-- The value to give back, if any, after the keyword `k`. -/
inductive Return (k : Token) (E : Reading Expr) : Reading Stmt where
  | mk {ts e fl} (semi : Token) : Optional E ts e fl → semi.kind = .semicolon →
      Return k E (ts ++ [semi]) (.ret k e) fl

/-- A loop with its condition, after the keyword. -/
inductive While (E : Reading Expr) (S : Tail → Reading Stmt) : Tail → Reading Stmt where
  | mk {t ts c fl us s fl'} (l r : Token) : l.kind = .leftParen → E ts c fl →
      r.kind = .rightParen → S t us s fl' →
      While E S t (l :: (ts ++ r :: us)) (.loop c s) (fl ++ fl')

/-- A loop with clauses, after the keyword. -/
inductive For (E : Reading Expr) (S : Tail → Reading Stmt) : Tail → Reading Stmt where
  | mk {t is i fl cs c fl₁ ns n fl₂ us s fl₃} (l semi r : Token) : l.kind = .leftParen →
      Init E is i fl → Optional E cs c fl₁ → semi.kind = .semicolon → Optional E ns n fl₂ →
      r.kind = .rightParen → S t us s fl₃ →
      For E S t (l :: (is ++ (cs ++ semi :: (ns ++ r :: us)))) (.forLoop i c n s)
        (fl ++ (fl₁ ++ (fl₂ ++ fl₃)))

/-- A choice, after the keyword. Only a closed branch can have an `else` behind it. -/
inductive If (E : Reading Expr) (S : Tail → Reading Stmt) : Tail → Reading Stmt where
  | lone {t ts c fl us s fl'} (l r : Token) : l.kind = .leftParen → E ts c fl →
      r.kind = .rightParen → S t us s fl' →
      If E S .dangling (l :: (ts ++ r :: us)) (.branch c s none) (fl ++ fl')
  | both {t ts c fl us s fl₁ vs s' fl₂} (l r els : Token) : l.kind = .leftParen → E ts c fl →
      r.kind = .rightParen → S .closed us s fl₁ → els.kind = .kwElse → S t vs s' fl₂ →
      If E S t (l :: (ts ++ r :: (us ++ els :: vs))) (.branch c s (some s')) (fl ++ (fl₁ ++ fl₂))

/-- A statement over its parts. -/
inductive Body (E : Reading Expr) (D : Reading Stmt) (S : Tail → Reading Stmt) :
    Tail → Reading Stmt where
  | effect {ts s fl} : Effect E ts s fl → Body E D S .closed ts s fl
  | print {ts s fl} (k : Token) : k.kind = .kwPrint → Print k E ts s fl →
      Body E D S .closed (k :: ts) s fl
  | ret {ts s fl} (k : Token) : k.kind = .kwReturn → Return k E ts s fl →
      Body E D S .closed (k :: ts) s fl
  | block {ts ss fl} (l : Token) : l.kind = .leftBrace → Block D ts ss fl →
      Body E D S .closed (l :: ts) (.block ss) fl
  | loop {t ts s fl} (k : Token) : k.kind = .kwWhile → While E S t ts s fl →
      Body E D S t (k :: ts) s fl
  | forLoop {t ts s fl} (k : Token) : k.kind = .kwFor → For E S t ts s fl →
      Body E D S t (k :: ts) s fl
  | branch {t ts s fl} (k : Token) : k.kind = .kwIf → If E S t ts s fl →
      Body E D S t (k :: ts) s fl

/-- A declaration over its parts. -/
inductive Declared (E : Reading Expr) (D : Reading Stmt) (S : Tail → Reading Stmt) :
    Reading Stmt where
  | function {ts s fl} (k : Token) : k.kind = .kwFun → Function D ts s fl →
      Declared E D S (k :: ts) s fl
  | var {ts s fl} (k : Token) : k.kind = .kwVar → Variable E ts s fl →
      Declared E D S (k :: ts) s fl
  | statement {t ts s fl} : S t ts s fl → Declared E D S ts s fl

mutual

/-- A declaration that opens at most `n` levels. -/
def Declaration : Nat → Reading Stmt
  | 0 => fun _ _ _ => False
  | n + 1 => Declared (Expression n) (Declaration n) (Statement n)

/-- A statement that opens at most `n` levels. -/
def Statement : Nat → Tail → Reading Stmt
  | 0 => fun _ _ _ _ => False
  | n + 1 => Body (Expression n) (Declaration n) (Statement n)

end

/-! ### First tokens of declarations -/

/-- Whether a statement can start so. -/
def startsStatement (k : Kind) : Bool := opensStatement k || startsExpression k

/-- Whether a declaration can start so. -/
def startsDeclaration (k : Kind) : Bool := opensDeclaration k || startsStatement k

/-- No token opens both a statement of its own and an expression. -/
theorem not_opensStatement {k : Kind} (h : startsExpression k = true) :
    opensStatement k = false := by
  revert h
  cases k <;> decide

/-- No token opens both a declaration of its own and a statement. -/
theorem not_opensDeclaration {k : Kind} (h : startsStatement k = true) :
    opensDeclaration k = false := by
  revert h
  cases k <;> decide

theorem effect_starts {E : Reading Expr} (hE : Starts startsExpression E) :
    Starts startsExpression (Effect E) := by
  rintro _ _ _ ⟨semi, h, _⟩
  obtain ⟨t, us, rfl, ht⟩ := hE _ _ _ h
  exact ⟨t, _, rfl, ht⟩

theorem body_starts {E : Reading Expr} {D : Reading Stmt} {S : Tail → Reading Stmt}
    (hE : Starts startsExpression E) (t : Tail) : Starts startsStatement (Body E D S t) := by
  intro ts x fl h
  cases h with
  | effect h =>
    obtain ⟨t, us, rfl, ht⟩ := effect_starts hE _ _ _ h
    exact ⟨t, us, rfl, by simp [startsStatement, ht]⟩
  | print k hk | ret k hk | block k hk | loop k hk | forLoop k hk | branch k hk =>
    exact ⟨k, _, rfl, by rw [hk]; rfl⟩

theorem statement_starts (t : Tail) : ∀ n, Starts startsStatement (Statement n t)
  | 0 => fun _ _ _ h => h.elim
  | n + 1 => body_starts (expression_starts n) t

theorem declaration_starts : ∀ n, Starts startsDeclaration (Declaration n)
  | 0 => fun _ _ _ h => h.elim
  | n + 1 => by
    intro ts x fl h
    cases h with
    | function k hk | var k hk => exact ⟨k, _, rfl, by rw [hk]; rfl⟩
    | statement h =>
      obtain ⟨t, us, rfl, ht⟩ := statement_starts _ n _ _ _ h
      exact ⟨t, us, rfl, by simp [startsDeclaration, ht]⟩

end Reading
end Lox
