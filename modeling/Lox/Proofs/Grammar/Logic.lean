import Lox.Proofs.Grammar.Reading
import Mathlib.Data.List.Forall2
import Mathlib.Data.Option.Defs

/-!
A logic of parsing. What is said of two runs of a parser is said of its steps first, with a relation
between what the one run gives and what the other gives. From the rules for steps it follows for all
productions of the grammar.
-/

namespace Lox

/-- Relations of tokens and of trees. Trees are related when they are made in the same way from what
is related. -/
structure Likeness where
  LikeToken : Token → Token → Prop
  LikeExpr : Expr → Expr → Prop
  LikeStmt : Stmt → Stmt → Prop
  kind {t t' : Token} : LikeToken t t' → t.kind = t'.kind
  literal {t t' : Token} {v v' : Literal} : LikeToken t t' → t.literal? = some v →
    t'.literal? = some v' → LikeExpr (.literal v) (.literal v')
  always : LikeExpr (.literal (.bool true)) (.literal (.bool true))
  «variable» {x x' : Token} : LikeToken x x' → LikeExpr (.variable x) (.variable x')
  /-- A name is like a name alone. -/
  target {e e' : Expr} : LikeExpr e e' →
    (∃ x x', e = .variable x ∧ e' = .variable x' ∧ LikeToken x x') ∨
      (∀ x, e ≠ .variable x) ∧ ∀ x, e' ≠ .variable x
  assign {x x' : Token} {e e' : Expr} : LikeToken x x' → LikeExpr e e' →
    LikeExpr (.assign x e) (.assign x' e')
  unary {op op' : Token} {e e' : Expr} : LikeToken op op' → LikeExpr e e' →
    LikeExpr (.unary op e) (.unary op' e')
  binary {l l' : Expr} {op op' : Token} {r r' : Expr} : LikeExpr l l' → LikeToken op op' →
    LikeExpr r r' → LikeExpr (.binary l op r) (.binary l' op' r')
  logical {l l' : Expr} {op op' : Token} {r r' : Expr} : LikeExpr l l' → LikeToken op op' →
    LikeExpr r r' → LikeExpr (.logical l op r) (.logical l' op' r')
  grouping {e e' : Expr} : LikeExpr e e' → LikeExpr (.grouping e) (.grouping e')
  call {f f' : Expr} {paren paren' : Token} {args args' : List Expr} : LikeExpr f f' →
    LikeToken paren paren' → List.Forall₂ LikeExpr args args' →
    LikeExpr (.call f paren args) (.call f' paren' args')
  expression {e e' : Expr} : LikeExpr e e' → LikeStmt (.expression e) (.expression e')
  print {k k' : Token} {e e' : Expr} : LikeToken k k' → LikeExpr e e' →
    LikeStmt (.print k e) (.print k' e')
  var {x x' : Token} {e e' : Option Expr} : LikeToken x x' → Option.Rel LikeExpr e e' →
    LikeStmt (.var x e) (.var x' e')
  function {x x' : Token} {ps ps' : List Token} {body body' : List Stmt} : LikeToken x x' →
    List.Forall₂ LikeToken ps ps' → List.Forall₂ LikeStmt body body' →
    LikeStmt (.function x ps body) (.function x' ps' body')
  block {body body' : List Stmt} : List.Forall₂ LikeStmt body body' →
    LikeStmt (.block body) (.block body')
  branch {c c' : Expr} {yes yes' : Stmt} {no no' : Option Stmt} : LikeExpr c c' →
    LikeStmt yes yes' → Option.Rel LikeStmt no no' →
    LikeStmt (.branch c yes no) (.branch c' yes' no')
  loop {c c' : Expr} {body body' : Stmt} : LikeExpr c c' → LikeStmt body body' →
    LikeStmt (.loop c body) (.loop c' body')
  ret {k k' : Token} {e e' : Option Expr} : LikeToken k k' → Option.Rel LikeExpr e e' →
    LikeStmt (.ret k e) (.ret k' e')

/-- A loop with clauses is like another one when their clauses are alike. -/
theorem Likeness.forLoop (L : Likeness) {i i' : Option Stmt} {c c' n n' : Option Expr} {s s' : Stmt}
    (hi : Option.Rel L.LikeStmt i i') (hc : Option.Rel L.LikeExpr c c')
    (hn : Option.Rel L.LikeExpr n n') (hs : L.LikeStmt s s') :
    L.LikeStmt (.forLoop i c n s) (.forLoop i' c' n' s') := by
  have hcond : L.LikeExpr (c.getD (.literal (.bool true))) (c'.getD (.literal (.bool true))) := by
    cases hc with
    | none => exact L.always
    | some h => exact h
  have hincr : List.Forall₂ L.LikeStmt (n.map .expression).toList (n'.map .expression).toList := by
    cases hn with
    | none => exact .nil
    | some h => exact .cons (L.expression h) .nil
  have hloop := L.loop hcond (L.block (.cons hs hincr))
  cases hi with
  | none => exact L.block (.cons hloop .nil)
  | some hi => exact L.block (.cons hi (.cons hloop .nil))

namespace Parse

/-- What a statement goes on with behind the token that opens it, if there is one. -/
def statementAfter (size : Nat) (expression : Parse Expr) (declaration statement : Parse Stmt) :
    Option Token → Parse Stmt
  | none => expressionStatement expression
  | some t =>
    match t.kind with
    | .kwIf => ifRest expression statement
    | .kwPrint => printRest t expression
    | .kwReturn => returnRest t expression
    | .kwWhile => whileRest expression statement
    | .kwFor => forRest expression statement
    | _ => return .block (← blockBody size declaration)

theorem statementLevel_eq (size : Nat) (e : Parse Expr) (d st : Parse Stmt) :
    statementLevel size e d st = takeIf opensStatement >>= statementAfter size e d st := by
  rw [statementLevel]
  congr

/-- `q` holds of no token that opens a statement. -/
def Apart (q : Kind → Bool) : Prop := ∀ k, opensStatement k = true → q k = false

/-- The tokens that open a statement. -/
def openers : List Kind := [.kwIf, .kwPrint, .kwReturn, .kwWhile, .kwFor, .leftBrace]

theorem mem_openers {k : Kind} : k ∈ openers ↔ opensStatement k = true := by
  cases k <;> decide

theorem apart_iff {q : Kind → Bool} : Apart q ↔ ∀ k ∈ openers, q k = false := by
  simp only [Apart, mem_openers]

instance (q : Kind → Bool) : Decidable (Apart q) := decidable_of_iff _ apart_iff.symm

/-- A property of two runs, with the relation of what they give. The token that opens a statement is
not taken by one of these steps, except as the brace before the body of a function. -/
structure Logic extends Likeness where
  Holds {α : Type} : (α → α → Prop) → Parse α → Parse α → Prop
  pure {α : Type} {R : α → α → Prop} {a a' : α} : R a a' → Holds R (pure a) (pure a')
  bind {α β : Type} {R : α → α → Prop} {R' : β → β → Prop} {p p' : Parse α}
    {f f' : α → Parse β} : Holds R p p' → (∀ a a', R a a' → Holds R' (f a) (f' a')) →
    Holds R' (p >>= f) (p' >>= f')
  fail {α : Type} {R : α → α → Prop} (flaw : Flaw) : Holds R (fail flaw) (fail flaw)
  report (flaw : Flaw) : Holds Eq (report flaw) (report flaw)
  reportAt (flaw : Flaw) {t t' : Token} : LikeToken t t' →
    Holds Eq (reportAt flaw (some t)) (reportAt flaw (some t'))
  atEnd : Holds Eq atEnd atEnd
  nextIs {k : Kind} : Apart (· == k) → Holds Eq (nextIs k) (nextIs k)
  takeIf {q : Kind → Bool} : Apart q →
    Holds (Option.Rel LikeToken) (takeIf q) (takeIf q)
  expect (slot : Slot) : Holds LikeToken (expect slot) (expect slot)

namespace Logic

variable (L : Logic) {α : Type} {R : α → α → Prop} {size : Nat}

/-! ### Parts that are the same for all productions -/

theorem skipIf {k : Kind} (hk : Apart (· == k)) : L.Holds Eq (skipIf k) (skipIf k) := by
  refine L.bind (L.takeIf hk) fun o o' h => L.pure ?_
  cases h <;> rfl

theorem map {β : Type} {R' : β → β → Prop} {p p' : Parse α} {f f' : α → β} (h : L.Holds R p p')
    (hf : ∀ a a', R a a' → R' (f a) (f' a')) : L.Holds R' (f <$> p) (f' <$> p') := by
  rw [map_eq_pure_bind, map_eq_pure_bind]
  exact L.bind h fun a a' ha => L.pure (hf a a' ha)

theorem optionalUntil {stop : Kind} (hstop : Apart (· == stop)) {part : Parse α}
    (h : L.Holds R part part) :
    L.Holds (Option.Rel R) (optionalUntil stop part) (optionalUntil stop part) := by
  refine L.bind (L.nextIs hstop) ?_
  rintro b _ rfl
  cases b with
  | true => exact L.pure .none
  | false => exact L.bind h fun a a' ha => L.pure (.some ha)

/-- The lists that were gathered in two arrays are related. -/
abbrev Gathered (R : α → α → Prop) (acc acc' : Array α) : Prop :=
  List.Forall₂ R acc.toList acc'.toList

theorem gathered_push {acc acc' : Array α} {a a' : α} (h : Gathered R acc acc') (ha : R a a') :
    Gathered R (acc.push a) (acc'.push a') := by
  rw [Gathered, Array.toList_push, Array.toList_push]
  exact List.rel_append h (.cons ha .nil)

theorem moreItems {limit : Nat} {flaw : Flaw} {item : Parse α} (h : L.Holds R item item) (n : Nat)
    {acc acc' : Array α} (hacc : Gathered R acc acc') :
    L.Holds (Gathered R) (moreItems limit flaw item n acc) (moreItems limit flaw item n acc') := by
  induction n generalizing acc acc' with
  | zero => exact L.pure hacc
  | succ n ih =>
    have hsize : acc.size = acc'.size := hacc.length_eq
    refine L.bind (L.skipIf (by decide)) ?_
    rintro b _ rfl
    cases b with
    | false => exact L.pure hacc
    | true =>
      have hitem := L.bind h fun a a' ha => ih (gathered_push hacc ha)
      simp only [if_true, hsize]
      split
      · exact L.bind (L.report flaw) fun _ _ _ => hitem
      · exact hitem

theorem items {limit : Nat} {flaw : Flaw} {item : Parse α} (h : L.Holds R item item) :
    L.Holds (List.Forall₂ R) (items size limit flaw item) (items size limit flaw item) := by
  refine L.bind (L.nextIs (by decide)) ?_
  rintro b _ rfl
  cases b with
  | true => exact L.pure .nil
  | false =>
    refine L.bind h fun a a' ha => ?_
    exact L.bind (L.moreItems h size (.cons ha .nil)) fun _ _ hacc => L.pure hacc

/-! ### Expressions -/

section
variable {e o : Parse Expr} (he : L.Holds L.LikeExpr e e) (ho : L.Holds L.LikeExpr o o)
include he

theorem primary : L.Holds L.LikeExpr (primary e) (primary e) := by
  refine L.bind (L.takeIf (by decide)) fun t t' ht => ?_
  cases ht with
  | none => exact L.fail _
  | @some t t' ht =>
    have hkind := L.kind ht
    have literal {v v' : Literal} (hv : t.literal? = some v) (hv' : t'.literal? = some v') :
        L.Holds L.LikeExpr (Pure.pure (.literal v)) (Pure.pure (.literal v')) :=
      L.pure (L.literal ht hv hv')
    cases hk : t.kind with
    | kwTrue | kwFalse | kwNil | number | string =>
      have hk' := hkind.symm.trans hk
      simp only [hk, hk']
      exact literal (by simp [Token.literal?, hk]) (by simp [Token.literal?, hk'])
    | identifier =>
      simp only [hk, hkind.symm.trans hk]
      exact L.pure (L.variable ht)
    | _ =>
      simp only [hk, hkind.symm.trans hk]
      exact L.bind he fun _ _ h => L.bind (L.expect _) fun _ _ _ => L.pure (L.grouping h)

theorem callsFrom (n : Nat) {f f' : Expr} (hf : L.LikeExpr f f') :
    L.Holds L.LikeExpr (callsFrom size e n f) (callsFrom size e n f') := by
  induction n generalizing f f' with
  | zero => exact L.pure hf
  | succ n ih =>
    refine L.bind (L.skipIf (by decide)) ?_
    rintro b _ rfl
    cases b with
    | false => exact L.pure hf
    | true =>
      exact L.bind (L.items he) fun _ _ hargs => L.bind (L.expect _) fun _ _ hparen =>
        ih (L.call hf hparen hargs)

include ho

theorem unaryLevel : L.Holds L.LikeExpr (unaryLevel size e o) (unaryLevel size e o) := by
  refine L.bind (L.takeIf (by decide)) fun op op' hop => ?_
  cases hop with
  | none => exact L.bind (L.primary he) fun _ _ hf => L.callsFrom he size hf
  | some hop => exact L.bind ho fun _ _ h => L.pure (L.unary hop h)

omit he

theorem chain {ops : Kind → Bool} (hops : Apart ops)
    {node : Expr → Token → Expr → Expr}
    (hnode : ∀ {l l' op op' r r'}, L.LikeExpr l l' → L.LikeToken op op' → L.LikeExpr r r' →
      L.LikeExpr (node l op r) (node l' op' r')) :
    L.Holds L.LikeExpr (chain size ops node o) (chain size ops node o) := by
  suffices ∀ n {l l'}, L.LikeExpr l l' →
      L.Holds L.LikeExpr (chainFrom ops node o n l) (chainFrom ops node o n l') from
    L.bind ho fun _ _ hl => this size hl
  intro n
  induction n with
  | zero => exact L.pure
  | succ n ih =>
    intro l l' hl
    refine L.bind (L.takeIf hops) fun op op' hop => ?_
    cases hop with
    | none => exact L.pure hl
    | some hop => exact L.bind ho fun _ _ hr => ih (hnode hl hop hr)

include he

theorem assignment : L.Holds L.LikeExpr (assignment size e o) (assignment size e o) := by
  have term : L.Holds L.LikeExpr (term size e o) (term size e o) :=
    L.chain (L.chain (L.unaryLevel he ho) (by decide) L.binary) (by decide) L.binary
  have equality : L.Holds L.LikeExpr (equality size e o) (equality size e o) :=
    L.chain (L.chain term (by decide) L.binary) (by decide) L.binary
  have disjunction : L.Holds L.LikeExpr (disjunction size e o) (disjunction size e o) :=
    L.chain (L.chain equality (by decide) L.logical) (by decide) L.logical
  refine L.bind disjunction fun l l' hl => L.bind (L.takeIf (by decide)) fun eq eq' heq => ?_
  cases heq with
  | none => exact L.pure hl
  | some heq =>
    refine L.bind he fun v v' hv => ?_
    rcases L.target hl with ⟨x, x', rfl, rfl, hx⟩ | ⟨hnot, hnot'⟩
    · exact L.pure (L.assign hx hv)
    · have hend := L.bind (L.reportAt .invalidTarget heq) fun _ _ _ => L.pure hl
      cases l with
      | «variable» x => exact absurd rfl (hnot x)
      | _ =>
        cases l' with
        | «variable» x => exact absurd rfl (hnot' x)
        | _ => exact hend

end

theorem expression_operand (n : Nat) :
    L.Holds L.LikeExpr (expression size n) (expression size n) ∧
      L.Holds L.LikeExpr (operand size n) (operand size n) := by
  induction n with
  | zero => exact ⟨L.fail _, L.fail _⟩
  | succ n ih => exact ⟨L.assignment ih.1 ih.2, L.unaryLevel ih.1 ih.2⟩

/-! ### Statements -/

section
variable {e : Parse Expr} {d st : Parse Stmt} (he : L.Holds L.LikeExpr e e)
  (hd : L.Holds L.LikeStmt d d) (hst : L.Holds L.LikeStmt st st)

section
include hd

theorem declarations (n : Nat) {acc acc' : Array Stmt} (hacc : Gathered L.LikeStmt acc acc') :
    L.Holds (List.Forall₂ L.LikeStmt) (declarations d n acc) (declarations d n acc') := by
  induction n generalizing acc acc' with
  | zero => exact L.pure hacc
  | succ n ih =>
    refine L.bind (L.nextIs (by decide)) ?_
    rintro b _ rfl
    refine L.bind L.atEnd ?_
    rintro b' _ rfl
    split
    · exact L.pure hacc
    · exact L.bind hd fun _ _ hs => ih (gathered_push hacc hs)

theorem blockBody :
    L.Holds (List.Forall₂ L.LikeStmt) (blockBody size d) (blockBody size d) :=
  L.bind (L.declarations hd size .nil) fun _ _ h => L.bind (L.expect _) fun _ _ _ => L.pure h

theorem functionRest : L.Holds L.LikeStmt (functionRest size d) (functionRest size d) :=
  L.bind (L.expect _) fun _ _ hname => L.bind (L.expect _) fun _ _ _ =>
    L.bind (L.items (L.expect _)) fun _ _ hparams => L.bind (L.expect _) fun _ _ _ =>
      L.bind (L.expect _) fun _ _ _ => L.bind (L.blockBody hd) fun _ _ hbody =>
        L.pure (L.function hname hparams hbody)

theorem programFrom (n : Nat) {acc acc' : Array Stmt} (hacc : Gathered L.LikeStmt acc acc') :
    L.Holds (List.Forall₂ L.LikeStmt) (programFrom d n acc) (programFrom d n acc') := by
  induction n generalizing acc acc' with
  | zero => exact L.pure hacc
  | succ n ih =>
    refine L.bind L.atEnd ?_
    rintro b _ rfl
    split
    · exact L.pure hacc
    · exact L.bind hd fun _ _ hs => ih (gathered_push hacc hs)

end

section
include he

theorem variableRest : L.Holds L.LikeStmt (variableRest e) (variableRest e) := by
  refine L.bind (L.expect _) fun _ _ hname => L.bind (L.skipIf (by decide)) ?_
  rintro b _ rfl
  have hend {init init' : Option Expr} (h : Option.Rel L.LikeExpr init init') :=
    L.bind (L.expect .variableEnd) fun _ _ _ => L.pure (L.var hname h)
  cases b with
  | true => exact L.bind (L.map he fun _ _ h => .some h) fun _ _ => hend
  | false => exact L.bind (L.pure .none) fun _ _ => hend

theorem expressionStatement :
    L.Holds L.LikeStmt (expressionStatement e) (expressionStatement e) :=
  L.bind he fun _ _ h => L.bind (L.expect _) fun _ _ _ => L.pure (L.expression h)

theorem forInit : L.Holds (Option.Rel L.LikeStmt) (forInit e) (forInit e) := by
  refine L.bind (L.skipIf (by decide)) ?_
  rintro b _ rfl
  cases b with
  | true => exact L.pure .none
  | false =>
    refine L.bind (L.skipIf (by decide)) ?_
    rintro b _ rfl
    cases b with
    | true => exact L.bind (L.variableRest he) fun _ _ h => L.pure (.some h)
    | false => exact L.bind (L.expressionStatement he) fun _ _ h => L.pure (.some h)

include hst

theorem ifRest : L.Holds L.LikeStmt (ifRest e st) (ifRest e st) := by
  refine L.bind (L.expect _) fun _ _ _ => L.bind he fun _ _ hcond =>
    L.bind (L.expect _) fun _ _ _ => L.bind hst fun _ _ hyes => L.bind (L.skipIf (by decide)) ?_
  rintro b _ rfl
  have hend {no no' : Option Stmt} (h : Option.Rel L.LikeStmt no no') :=
    L.pure (L.branch hcond hyes h)
  cases b with
  | true => exact L.bind (L.map hst fun _ _ h => .some h) fun _ _ => hend
  | false => exact L.bind (L.pure .none) fun _ _ => hend

theorem whileRest : L.Holds L.LikeStmt (whileRest e st) (whileRest e st) :=
  L.bind (L.expect _) fun _ _ _ => L.bind he fun _ _ hcond => L.bind (L.expect _) fun _ _ _ =>
    L.bind hst fun _ _ hbody => L.pure (L.loop hcond hbody)

theorem forRest : L.Holds L.LikeStmt (forRest e st) (forRest e st) :=
  L.bind (L.expect _) fun _ _ _ => L.bind (L.forInit he) fun _ _ hinit =>
    L.bind (L.optionalUntil (by decide) he) fun _ _ hcond => L.bind (L.expect _) fun _ _ _ =>
      L.bind (L.optionalUntil (by decide) he) fun _ _ hincr => L.bind (L.expect _) fun _ _ _ =>
        L.bind hst fun _ _ hbody => L.pure (L.forLoop hinit hcond hincr hbody)

include hd

theorem statementAfter {t t' : Option Token} (ht : Option.Rel L.LikeToken t t') :
    L.Holds L.LikeStmt (statementAfter size e d st t) (statementAfter size e d st t') := by
  cases ht with
  | none => exact L.expressionStatement he
  | @some t t' ht =>
    rw [Parse.statementAfter, Parse.statementAfter, ← L.kind ht]
    cases t.kind with
    | kwIf => exact L.ifRest he hst
    | kwPrint =>
      exact L.bind he fun _ _ h => L.bind (L.expect _) fun _ _ _ => L.pure (L.print ht h)
    | kwReturn =>
      exact L.bind (L.optionalUntil (by decide) he) fun _ _ h => L.bind (L.expect _) fun _ _ _ =>
        L.pure (L.ret ht h)
    | kwWhile => exact L.whileRest he hst
    | kwFor => exact L.forRest he hst
    | _ => exact L.bind (L.blockBody hd) fun _ _ h => L.pure (L.block h)

theorem declarationLevel :
    L.Holds L.LikeStmt (declarationLevel size e d st) (declarationLevel size e d st) := by
  refine L.bind (L.takeIf (by decide)) fun t t' ht => ?_
  cases ht with
  | none => exact hst
  | @some t t' ht =>
    have hkind := L.kind ht
    cases hk : t.kind with
    | kwFun =>
      simp only [hk, hkind.symm.trans hk]
      exact L.functionRest hd
    | _ =>
      simp only [hk, hkind.symm.trans hk]
      exact L.variableRest he

end

end

/-- What holds of all statements, if it still does when their first tokens are taken, holds of all
declarations too. -/
theorem declaration_statement
    (hopen : ∀ n, (∀ t t', Option.Rel L.LikeToken t t' → L.Holds L.LikeStmt
        (Parse.statementAfter size (expression size n) (declaration size n) (statement size n) t)
        (Parse.statementAfter size (expression size n) (declaration size n) (statement size n)
          t')) →
      L.Holds L.LikeStmt (statement size (n + 1)) (statement size (n + 1))) (n : Nat) :
    L.Holds L.LikeStmt (declaration size n) (declaration size n) ∧
      L.Holds L.LikeStmt (statement size n) (statement size n) := by
  induction n with
  | zero => exact ⟨L.fail _, L.fail _⟩
  | succ n ih =>
    have he : L.Holds L.LikeExpr (expression size n) (expression size n) :=
      (L.expression_operand n).1
    exact ⟨L.declarationLevel he ih.1 ih.2,
      hopen n fun _ _ ht => L.statementAfter he ih.1 ih.2 ht⟩

end Logic
end Parse
end Lox
