import Lox.Grammar.Program

/-!
What holds of all parsing. A property of steps that is kept when steps are put one after the other
holds of every production of the grammar, once it holds of the single steps.
-/

namespace Lox.Parse

/-- A property that lasts. It is asked only of the steps that the grammar takes: these stop at fatal
flaws alone, and report the other ones. -/
structure Property where
  Holds {α : Type} : Parse α → Prop
  pure {α : Type} (x : α) : Holds (pure x)
  bind {α β : Type} {p : Parse α} {f : α → Parse β} :
    Holds p → (∀ x, Holds (f x)) → Holds (p >>= f)
  fail {α : Type} {flaw : Flaw} : flaw.fatal = true → Holds (fail flaw : Parse α)
  report {flaw : Flaw} : flaw.fatal = false → Holds (report flaw)
  reportAt {flaw : Flaw} : flaw.fatal = false → ∀ spot, Holds (reportAt flaw spot)
  atEnd : Holds atEnd
  nextIs (k : Kind) : Holds (nextIs k)
  takeIf (q : Kind → Bool) : Holds (takeIf q)

namespace Property

variable (P : Property) {α β : Type}

/-! ### Parts that are the same for all productions -/

theorem map {p : Parse α} (f : α → β) (hp : P.Holds p) : P.Holds (f <$> p) := by
  rw [map_eq_pure_bind]
  exact P.bind hp fun _ => P.pure _

theorem ite {c : Prop} [Decidable c] {p q : Parse α} (hp : P.Holds p) (hq : P.Holds q) :
    P.Holds (if c then p else q) := by
  split
  · exact hp
  · exact hq

theorem skipIf (k : Kind) : P.Holds (skipIf k) := P.bind (P.takeIf _) fun _ => P.pure _

theorem expect (slot : Slot) : P.Holds (expect slot) := by
  refine P.bind (P.takeIf _) fun t => ?_
  cases t with
  | none => exact P.fail rfl
  | some t => exact P.pure t

theorem optionalUntil (stop : Kind) {part : Parse α} (h : P.Holds part) :
    P.Holds (optionalUntil stop part) :=
  P.bind (P.nextIs stop) fun _ => P.ite (P.pure _) (P.bind h fun _ => P.pure _)

section
variable {limit : Nat} {flaw : Flaw} {item : Parse α} (hflaw : flaw.fatal = false)
  (h : P.Holds item)
include hflaw h

theorem moreItems (n : Nat) (acc : Array α) : P.Holds (moreItems limit flaw item n acc) := by
  induction n generalizing acc with
  | zero => exact P.pure acc
  | succ n ih =>
    have hitem (_ : Unit) := P.bind h fun x => ih (acc.push x)
    exact P.bind (P.skipIf _) fun _ =>
      P.ite (P.ite (P.bind (P.report hflaw) hitem) (hitem ())) (P.pure acc)

theorem items (size : Nat) : P.Holds (items size limit flaw item) :=
  P.bind (P.nextIs _) fun _ => P.ite (P.pure _)
    (P.bind h fun _ => P.bind (P.moreItems hflaw h size _) fun _ => P.pure _)

end

/-! ### Expressions -/

section
variable {size : Nat} {e o : Parse Expr} (he : P.Holds e) (ho : P.Holds o)

section
include he

theorem primary : P.Holds (primary e) := by
  refine P.bind (P.takeIf _) fun t => ?_
  cases t with
  | none => exact P.fail rfl
  | some t =>
    cases hk : t.kind with
    | kwTrue | kwFalse | kwNil | number | string | identifier =>
      simp only [hk]
      exact P.pure _
    | _ =>
      simp only [hk]
      exact P.bind he fun _ => P.bind (P.expect _) fun _ => P.pure _

theorem callsFrom (n : Nat) (f : Expr) : P.Holds (callsFrom size e n f) := by
  induction n generalizing f with
  | zero => exact P.pure f
  | succ n ih =>
    exact P.bind (P.skipIf _) fun _ => P.ite
      (P.bind (P.items rfl he size) fun _ => P.bind (P.expect _) fun _ => ih _) (P.pure f)

include ho

theorem unaryLevel : P.Holds (unaryLevel size e o) := by
  refine P.bind (P.takeIf _) fun t => ?_
  cases t with
  | none => exact P.bind (P.primary he) fun _ => P.callsFrom he _ _
  | some t => exact P.bind ho fun _ => P.pure _

end

section
variable {ops : Kind → Bool} {node : Expr → Token → Expr → Expr}
include ho

theorem chainFrom (n : Nat) (l : Expr) : P.Holds (chainFrom ops node o n l) := by
  induction n generalizing l with
  | zero => exact P.pure l
  | succ n ih =>
    refine P.bind (P.takeIf _) fun t => ?_
    cases t with
    | none => exact P.pure l
    | some t => exact P.bind ho fun _ => ih _

theorem chain : P.Holds (chain size ops node o) := P.bind ho fun _ => P.chainFrom ho _ _

end

include he ho in
theorem assignment : P.Holds (assignment size e o) := by
  have factor : P.Holds (Parse.factor size e o) := P.chain (P.unaryLevel he ho)
  have comparison : P.Holds (Parse.comparison size e o) := P.chain (P.chain factor)
  have conjunction : P.Holds (Parse.conjunction size e o) := P.chain (P.chain comparison)
  refine P.bind (P.chain conjunction) fun l => P.bind (P.takeIf _) fun t => ?_
  cases t with
  | none => exact P.pure l
  | some t =>
    refine P.bind he fun v => ?_
    cases l with
    | «variable» name => exact P.pure _
    | _ => exact P.bind (P.reportAt rfl _) fun _ => P.pure _

end

theorem expression_operand (size n : Nat) :
    P.Holds (expression size n) ∧ P.Holds (operand size n) := by
  induction n with
  | zero => exact ⟨P.fail rfl, P.fail rfl⟩
  | succ n ih => exact ⟨P.assignment ih.1 ih.2, P.unaryLevel ih.1 ih.2⟩

/-! ### Statements -/

section
variable {size : Nat} {e : Parse Expr} {d st : Parse Stmt} (he : P.Holds e) (hd : P.Holds d)
  (hst : P.Holds st)

section
include hd

theorem declarations (n : Nat) (acc : Array Stmt) : P.Holds (declarations d n acc) := by
  induction n generalizing acc with
  | zero => exact P.pure _
  | succ n ih =>
    exact P.bind (P.nextIs _) fun _ => P.bind P.atEnd fun _ =>
      P.ite (P.pure _) (P.bind hd fun _ => ih _)

theorem blockBody : P.Holds (blockBody size d) :=
  P.bind (P.declarations hd _ _) fun _ => P.bind (P.expect _) fun _ => P.pure _

theorem functionRest : P.Holds (functionRest size d) :=
  P.bind (P.expect _) fun _ => P.bind (P.expect _) fun _ =>
    P.bind (P.items rfl (P.expect _) size) fun _ => P.bind (P.expect _) fun _ =>
      P.bind (P.expect _) fun _ => P.bind (P.blockBody hd) fun _ => P.pure _

theorem programFrom (n : Nat) (acc : Array Stmt) : P.Holds (programFrom d n acc) := by
  induction n generalizing acc with
  | zero => exact P.pure _
  | succ n ih =>
    exact P.bind P.atEnd fun _ => P.ite (P.pure _) (P.bind hd fun _ => ih _)

end

section
include he

theorem variableRest : P.Holds (variableRest e) :=
  have hend (name : Token) (init : Option Expr) :=
    P.bind (P.expect .variableEnd) fun _ => P.pure (Stmt.var name init)
  P.bind (P.expect _) fun name => P.bind (P.skipIf _) fun _ =>
    P.ite (P.bind (P.map _ he) (hend name)) (P.bind (P.pure _) (hend name))

theorem expressionStatement : P.Holds (expressionStatement e) :=
  P.bind he fun _ => P.bind (P.expect _) fun _ => P.pure _

theorem forInit : P.Holds (forInit e) :=
  P.bind (P.skipIf _) fun _ => P.ite (P.pure _) <| P.bind (P.skipIf _) fun _ =>
    P.ite (P.bind (P.variableRest he) fun _ => P.pure _)
      (P.bind (P.expressionStatement he) fun _ => P.pure _)

include hst

theorem ifRest : P.Holds (ifRest e st) :=
  P.bind (P.expect _) fun _ => P.bind he fun _ => P.bind (P.expect _) fun _ => P.bind hst fun _ =>
    P.bind (P.skipIf _) fun _ => P.ite (P.bind (P.map _ hst) fun _ => P.pure _)
      (P.bind (P.pure _) fun _ => P.pure _)

theorem whileRest : P.Holds (whileRest e st) :=
  P.bind (P.expect _) fun _ => P.bind he fun _ => P.bind (P.expect _) fun _ => P.bind hst fun _ =>
    P.pure _

theorem forRest : P.Holds (forRest e st) :=
  P.bind (P.expect _) fun _ => P.bind (P.forInit he) fun _ =>
    P.bind (P.optionalUntil _ he) fun _ => P.bind (P.expect _) fun _ =>
      P.bind (P.optionalUntil _ he) fun _ => P.bind (P.expect _) fun _ => P.bind hst fun _ =>
        P.pure _

include hd

theorem statementLevel : P.Holds (statementLevel size e d st) := by
  refine P.bind (P.takeIf _) fun t => ?_
  cases t with
  | none => exact P.expressionStatement he
  | some t =>
    cases hk : t.kind with
    | kwIf => simpa only [hk] using P.ifRest he hst
    | kwPrint =>
      simp only [hk]
      exact P.bind he fun _ => P.bind (P.expect _) fun _ => P.pure _
    | kwReturn =>
      simp only [hk]
      exact P.bind (P.optionalUntil _ he) fun _ => P.bind (P.expect _) fun _ => P.pure _
    | kwWhile => simpa only [hk] using P.whileRest he hst
    | kwFor => simpa only [hk] using P.forRest he hst
    | _ =>
      simp only [hk]
      exact P.bind (P.blockBody hd) fun _ => P.pure _

theorem declarationLevel : P.Holds (declarationLevel size e d st) := by
  refine P.bind (P.takeIf _) fun t => ?_
  cases t with
  | none => exact hst
  | some t =>
    cases hk : t.kind with
    | kwFun => simpa only [hk] using P.functionRest hd
    | _ => simpa only [hk] using P.variableRest he

end

end

theorem declaration_statement (size n : Nat) :
    P.Holds (declaration size n) ∧ P.Holds (statement size n) := by
  induction n with
  | zero => exact ⟨P.fail rfl, P.fail rfl⟩
  | succ n ih =>
    have he := (P.expression_operand size n).1
    exact ⟨P.declarationLevel he ih.1 ih.2, P.statementLevel he ih.1 ih.2⟩

/-- What lasts holds of programs. -/
theorem program (size : Nat) : P.Holds (program size) :=
  P.programFrom (P.declaration_statement size maxNesting).1 size _

end Property
end Lox.Parse
