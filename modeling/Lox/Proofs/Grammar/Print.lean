import Lox.Proofs.Grammar.SoundStatement
import Lox.Proofs.Source.Spelling
import Lox.Run.Value
import Mathlib.Data.List.Forall2

/-!
Trees written as tokens again. The tokens that a tree keeps are put back as they are, all others in
their one spelling. What was read without a flaw is written as it was read, but for the places of
tokens and the digits of numbers.
-/

namespace Lox

/-! ### Tokens -/

/-- A mark or a keyword, at no place in particular. -/
def Token.fixed (k : Kind) : Token := ⟨k, k.spelling, 0, 0, 0, .nil⟩

/-- The token of a literal. -/
def Literal.token : Literal → Token
  | .nil => .fixed .kwNil
  | .bool true => { Token.fixed .kwTrue with value := .bool true }
  | .bool false => { Token.fixed .kwFalse with value := .bool false }
  | .num x => ⟨.number, (Literal.num x).text, 0, 0, 0, .num x⟩
  | .str s => ⟨.string, quote s, 0, 0, 0, .str s⟩

/-- Tokens that differ in their places at most, and in the digits if they are numbers. -/
structure Token.Alike (t u : Token) : Prop where
  kind : t.kind = u.kind
  value : t.value = u.value
  lexeme : u.kind ≠ .number → t.lexeme = u.lexeme

theorem Token.Alike.refl (t : Token) : t.Alike t := ⟨rfl, rfl, fun _ => rfl⟩

/-- Items with commas between them. -/
def commas (items : List (List Token)) : List Token := [Token.fixed .comma].intercalate items

theorem commas_one (ts : List Token) : commas [ts] = ts := List.intercalate_singleton

theorem commas_concat {items : List (List Token)} (h : items ≠ []) (ts : List Token) :
    commas (items ++ [ts]) = commas items ++ Token.fixed .comma :: ts := by
  induction items with
  | nil => exact absurd rfl h
  | cons us items ih =>
    cases items with
    | nil => simp [commas, List.intercalate_cons_cons]
    | cons vs items =>
      have := ih (List.cons_ne_nil _ _)
      simp only [commas, List.cons_append, List.intercalate_cons_cons] at this ⊢
      rw [this]
      simp only [List.append_assoc]

/-! ### Expressions -/

mutual

/-- An expression as tokens. -/
def Expr.tokens : Expr → List Token
  | .literal v => [v.token]
  | .variable x => [x]
  | .assign x v => x :: .fixed .equal :: v.tokens
  | .unary op e => op :: e.tokens
  | .binary l op r | .logical l op r => l.tokens ++ op :: r.tokens
  | .grouping e => .fixed .leftParen :: (e.tokens ++ [.fixed .rightParen])
  | .call f paren args => f.tokens ++ .fixed .leftParen :: (commas (Expr.allTokens args) ++ [paren])

/-- The tokens of each of some expressions. -/
def Expr.allTokens : List Expr → List (List Token)
  | [] => []
  | e :: es => e.tokens :: Expr.allTokens es

end

theorem Expr.allTokens_eq_map (es : List Expr) : Expr.allTokens es = es.map Expr.tokens := by
  induction es with
  | nil => rfl
  | cons e es ih => rw [allTokens, ih, List.map_cons]

/-! ### Statements -/

/-- A part of a statement that may be missing. -/
def optionalTokens (e : Option Expr) : List Token := (e.map Expr.tokens).getD []

mutual

/-- A statement as tokens. -/
def Stmt.tokens : Stmt → List Token
  | .expression e => e.tokens ++ [.fixed .semicolon]
  | .print k e => k :: (e.tokens ++ [.fixed .semicolon])
  | .var x none => [.fixed .kwVar, x, .fixed .semicolon]
  | .var x (some e) => .fixed .kwVar :: x :: .fixed .equal :: (e.tokens ++ [.fixed .semicolon])
  | .function x ps body => .fixed .kwFun :: x :: .fixed .leftParen ::
      (commas (ps.map ([·])) ++ .fixed .rightParen :: .fixed .leftBrace ::
        (Stmt.allTokens body ++ [.fixed .rightBrace]))
  | .block body => .fixed .leftBrace :: (Stmt.allTokens body ++ [.fixed .rightBrace])
  | .branch c yes none => .fixed .kwIf :: .fixed .leftParen ::
      (c.tokens ++ .fixed .rightParen :: yes.tokens)
  | .branch c yes (some no) => .fixed .kwIf :: .fixed .leftParen ::
      (c.tokens ++ .fixed .rightParen :: (yes.tokens ++ .fixed .kwElse :: no.tokens))
  | .loop c body => .fixed .kwWhile :: .fixed .leftParen ::
      (c.tokens ++ .fixed .rightParen :: body.tokens)
  | .ret k e => k :: (optionalTokens e ++ [.fixed .semicolon])

/-- Statements as tokens, one after the other. -/
def Stmt.allTokens : List Stmt → List Token
  | [] => []
  | s :: ss => s.tokens ++ Stmt.allTokens ss

end

/-! ### What was read is written again -/

/-- A token of a source that has no `for` in it. -/
structure Token.Plain (t : Token) : Prop where
  regular : t.Regular
  noFor : t.kind ≠ .kwFor

/-- The kinds whose tokens are all alike. -/
def Kind.isFixed : Kind → Bool
  | .identifier | .string | .number | .kwTrue | .kwFalse => false
  | _ => true

theorem Token.Plain.fixed {t : Token} (ht : t.Plain) {k : Kind} (h : t.kind = k)
    (hk : k.isFixed = true) : (Token.fixed k).Alike t := by
  subst h
  have hopen : t.kind.isOpen = false := by
    revert hk
    cases t.kind <;> first | exact fun _ => rfl | exact nofun
  have hnil : t.value = .nil := by
    have := ht.regular.denotes
    revert hk this
    cases t.kind <;> first | exact fun _ h => h | exact nofun
  exact ⟨rfl, hnil.symm, fun _ => (ht.regular.spelled hopen).symm⟩

theorem Token.Plain.literal {t : Token} (ht : t.Plain) {v : Literal} (h : t.literal? = some v) :
    v.token.Alike t := by
  obtain ⟨hspelled, hdenotes⟩ := ht.regular
  rw [Token.literal?] at h
  cases hk : t.kind <;> simp only [hk, Option.some.injEq, reduceCtorEq] at h
  case kwTrue | kwFalse | kwNil =>
    subst h
    rw [hk] at hdenotes hspelled
    exact ⟨hk.symm, Eq.symm hdenotes, fun _ => (hspelled rfl).symm⟩
  case number =>
    rw [hk] at hdenotes
    obtain ⟨x, hx⟩ := hdenotes
    rw [← h, hx]
    exact ⟨hk.symm, hx.symm, fun hne => absurd hk hne⟩
  case string =>
    rw [hk] at hdenotes
    obtain ⟨x, hx, hlex⟩ := hdenotes
    rw [← h, hx]
    exact ⟨hk.symm, hx.symm, fun _ => hlex.symm⟩

/-- Tokens that are alike one by one. -/
abbrev AllAlike (ts us : List Token) : Prop := List.Forall₂ Token.Alike ts us

namespace Reading
open Parse

/-- What `P` reads without a flaw from plain tokens is written as tokens that are alike. -/
def Rewritten {α : Type} (P : Reading α) (write : α → List Token) : Prop :=
  ∀ ts x fl, P ts x fl → fl = #[] → (∀ t ∈ ts, t.Plain) → AllAlike (write x) ts

section
variable {α : Type} {P : Reading α} {write : α → List Token}

theorem items_rewritten (hP : Rewritten P write) {limit : Nat} {flaw : Flaw} :
    Rewritten (Items limit flaw P) (fun xs => commas (xs.map write)) := by
  intro ts xs fl h hfl hts
  cases h with
  | none => exact .nil
  | some h =>
    suffices xs ≠ [] ∧ AllAlike (commas (xs.map write)) ts from this.2
    induction h with
    | one h => exact ⟨List.cons_ne_nil _ _, by simpa [commas_one] using hP _ _ _ h hfl hts⟩
    | more comma t _ hk h ih =>
      simp only [Array.append_eq_empty_iff] at hfl
      simp only [List.forall_mem_append, List.forall_mem_cons] at hts
      obtain ⟨hus, hcomma, ht, hvs⟩ := hts
      obtain ⟨hne, ih⟩ := ih hfl.1.1 hus
      have hx := hP _ _ _ h hfl.2 (List.forall_mem_cons.mpr ⟨ht, hvs⟩)
      refine ⟨by simp, ?_⟩
      rw [List.map_append, List.map_singleton, commas_concat (by simpa using hne)]
      exact List.rel_append ih (.cons (hcomma.fixed hk rfl) hx)

end

/-! #### Expressions -/

section
variable {E O : Reading Expr}

theorem primary_rewritten (hE : Rewritten E Expr.tokens) : Rewritten (Primary E) Expr.tokens := by
  intro ts x fl h hfl hts
  cases h with
  | literal t hv => exact .cons ((hts t List.mem_cons_self).literal hv) .nil
  | name t _ => exact .cons (.refl t) .nil
  | group l r hl h hr =>
    simp only [List.forall_mem_append, List.forall_mem_cons] at hts
    obtain ⟨hlp, hin, hrp, -⟩ := hts
    exact .cons (hlp.fixed hl rfl)
      (List.rel_append (hE _ _ _ h hfl hin) (.cons (hrp.fixed hr rfl) .nil))

theorem called_rewritten (hE : Rewritten E Expr.tokens) : Rewritten (Called E) Expr.tokens := by
  intro ts x fl h hfl hts
  induction h with
  | primary h => exact primary_rewritten hE _ _ _ h hfl hts
  | call l r _ hl ha hr ih =>
    simp only [Array.append_eq_empty_iff] at hfl
    simp only [List.forall_mem_append, List.forall_mem_cons] at hts
    obtain ⟨hf, hlp, hargs, hrp, -⟩ := hts
    have hargs := items_rewritten hE _ _ _ ha hfl.2 hargs
    rw [Expr.tokens, Expr.allTokens_eq_map]
    exact List.rel_append (ih hfl.1 hf)
      (.cons (hlp.fixed hl rfl) (List.rel_append hargs (.cons (.refl r) .nil)))

theorem unary_rewritten (hE : Rewritten E Expr.tokens) (hO : Rewritten O Expr.tokens) :
    Rewritten (Unary E O) Expr.tokens := by
  intro ts x fl h hfl hts
  cases h with
  | operator op _ h => exact .cons (.refl op) (hO _ _ _ h hfl (List.forall_mem_cons.mp hts).2)
  | call h => exact called_rewritten hE _ _ _ h hfl hts

theorem chained_rewritten {ops : Kind → Bool} {node : Expr → Token → Expr → Expr}
    {P : Reading Expr} (hP : Rewritten P Expr.tokens)
    (hnode : ∀ l op r, (node l op r).tokens = l.tokens ++ op :: r.tokens) :
    Rewritten (Chained ops node P) Expr.tokens := by
  intro ts x fl h hfl hts
  induction h with
  | one h => exact hP _ _ _ h hfl hts
  | more op _ _ h ih =>
    simp only [Array.append_eq_empty_iff] at hfl
    simp only [List.forall_mem_append, List.forall_mem_cons] at hts
    rw [hnode]
    exact List.rel_append (ih hfl.1 hts.1) (.cons (.refl op) (hP _ _ _ h hfl.2 hts.2.2))

theorem disjunction_rewritten (hE : Rewritten E Expr.tokens) (hO : Rewritten O Expr.tokens) :
    Rewritten (Disjunction E O) Expr.tokens :=
  have arithmetic : Rewritten (Term E O) Expr.tokens :=
    chained_rewritten (chained_rewritten (unary_rewritten hE hO) fun _ _ _ => by rw [Expr.tokens])
      fun _ _ _ => by rw [Expr.tokens]
  have equality : Rewritten (Equality E O) Expr.tokens :=
    chained_rewritten (chained_rewritten arithmetic fun _ _ _ => by rw [Expr.tokens])
      fun _ _ _ => by rw [Expr.tokens]
  chained_rewritten (chained_rewritten equality fun _ _ _ => by rw [Expr.tokens])
    fun _ _ _ => by rw [Expr.tokens]

theorem assignment_rewritten (hE : Rewritten E Expr.tokens) (hO : Rewritten O Expr.tokens) :
    Rewritten (Assignment E O) Expr.tokens := by
  intro ts x fl h hfl hts
  cases h with
  | plain h => exact disjunction_rewritten hE hO _ _ _ h hfl hts
  | assign name eq h heq hv =>
    simp only [Array.append_eq_empty_iff] at hfl
    simp only [List.forall_mem_append, List.forall_mem_cons] at hts
    obtain ⟨hl, heqp, hr⟩ := hts
    have hl : AllAlike [name] _ := disjunction_rewritten hE hO _ _ _ h hfl.1 hl
    exact List.rel_append hl (.cons (heqp.fixed heq rfl) (hE _ _ _ hv hfl.2 hr))
  | invalid => simp at hfl

end

theorem expression_operand_rewritten (n : Nat) :
    Rewritten (Expression n) Expr.tokens ∧ Rewritten (Operand n) Expr.tokens := by
  induction n with
  | zero => exact ⟨fun _ _ _ h => h.elim, fun _ _ _ h => h.elim⟩
  | succ n ih => exact ⟨assignment_rewritten ih.1 ih.2, unary_rewritten ih.1 ih.2⟩

/-! #### Statements -/

section
variable {E : Reading Expr} {D : Reading Stmt} {S : Tail → Reading Stmt}

theorem optional_rewritten (hE : Rewritten E Expr.tokens) :
    Rewritten (Optional E) optionalTokens := by
  intro ts x fl h hfl hts
  cases h with
  | none => exact .nil
  | some h => exact hE _ _ _ h hfl hts

theorem name_rewritten : Rewritten Name ([·]) := by
  rintro _ t _ ⟨_, _⟩ _ _
  exact .cons (.refl t) .nil

theorem declarations_rewritten (hD : Rewritten D Stmt.tokens) :
    Rewritten (Declarations D) Stmt.allTokens := by
  intro ts ss fl h hfl hts
  induction h with
  | nil => exact .nil
  | cons h _ ih =>
    simp only [Array.append_eq_empty_iff] at hfl
    simp only [List.forall_mem_append] at hts
    exact List.rel_append (hD _ _ _ h hfl.1 hts.1) (ih hfl.2 hts.2)

theorem block_rewritten (hD : Rewritten D Stmt.tokens) :
    Rewritten (Block D) (fun ss => Stmt.allTokens ss ++ [.fixed .rightBrace]) := by
  rintro _ ss fl ⟨b, h, hb⟩ hfl hts
  simp only [List.forall_mem_append, List.forall_mem_cons] at hts
  exact List.rel_append (declarations_rewritten hD _ _ _ h hfl hts.1)
    (.cons (hts.2.1.fixed hb rfl) .nil)

theorem variable_rewritten (hE : Rewritten E Expr.tokens) :
    Rewritten (Variable E) (·.tokens.tail) := by
  intro ts x fl h hfl hts
  cases h with
  | bare name semi _ hs =>
    simp only [List.forall_mem_cons] at hts
    exact .cons (.refl name) (.cons (hts.2.1.fixed hs rfl) .nil)
  | init name eq semi _ heq h hs =>
    simp only [List.forall_mem_cons, List.forall_mem_append] at hts
    obtain ⟨-, heqp, he, hsp, -⟩ := hts
    exact .cons (.refl name) (.cons (heqp.fixed heq rfl)
      (List.rel_append (hE _ _ _ h hfl he) (.cons (hsp.fixed hs rfl) .nil)))

theorem function_rewritten (hD : Rewritten D Stmt.tokens) :
    Rewritten (Function D) (·.tokens.tail) := by
  rintro _ _ _ ⟨name, l, r, b, _, hl, hp, hr, hb, h⟩ hfl hts
  simp only [Array.append_eq_empty_iff] at hfl
  simp only [List.forall_mem_cons, List.forall_mem_append] at hts
  obtain ⟨-, hlp, hps, hrp, hbp, hts⟩ := hts
  exact .cons (.refl name) (.cons (hlp.fixed hl rfl)
    (List.rel_append (items_rewritten name_rewritten _ _ _ hp hfl.1 hps)
      (.cons (hrp.fixed hr rfl) (.cons (hbp.fixed hb rfl) (block_rewritten hD _ _ _ h hfl.2 hts)))))

theorem while_rewritten (hE : Rewritten E Expr.tokens) (hS : ∀ t, Rewritten (S t) Stmt.tokens)
    (t : Tail) : Rewritten (While E S t) (·.tokens.tail) := by
  rintro _ _ _ ⟨l, r, hl, hc, hr, hs⟩ hfl hts
  simp only [Array.append_eq_empty_iff] at hfl
  simp only [List.forall_mem_cons, List.forall_mem_append] at hts
  obtain ⟨hlp, hcp, hrp, hsp⟩ := hts
  exact .cons (hlp.fixed hl rfl) (List.rel_append (hE _ _ _ hc hfl.1 hcp)
    (.cons (hrp.fixed hr rfl) (hS _ _ _ _ hs hfl.2 hsp)))

theorem if_rewritten (hE : Rewritten E Expr.tokens) (hS : ∀ t, Rewritten (S t) Stmt.tokens)
    (t : Tail) : Rewritten (If E S t) (·.tokens.tail) := by
  intro ts x fl h hfl hts
  cases h with
  | lone l r hl hc hr hs =>
    simp only [Array.append_eq_empty_iff] at hfl
    simp only [List.forall_mem_cons, List.forall_mem_append] at hts
    obtain ⟨hlp, hcp, hrp, hsp⟩ := hts
    exact .cons (hlp.fixed hl rfl) (List.rel_append (hE _ _ _ hc hfl.1 hcp)
      (.cons (hrp.fixed hr rfl) (hS _ _ _ _ hs hfl.2 hsp)))
  | both l r els hl hc hr hs hels hs' =>
    simp only [Array.append_eq_empty_iff] at hfl
    simp only [List.forall_mem_cons, List.forall_mem_append] at hts
    obtain ⟨hlp, hcp, hrp, hsp, hep, hsp'⟩ := hts
    exact .cons (hlp.fixed hl rfl) (List.rel_append (hE _ _ _ hc hfl.1 hcp)
      (.cons (hrp.fixed hr rfl) (List.rel_append (hS _ _ _ _ hs hfl.2.1 hsp)
        (.cons (hep.fixed hels rfl) (hS _ _ _ _ hs' hfl.2.2 hsp')))))

theorem body_rewritten (hE : Rewritten E Expr.tokens) (hD : Rewritten D Stmt.tokens)
    (hS : ∀ t, Rewritten (S t) Stmt.tokens) (t : Tail) :
    Rewritten (Body E D S t) Stmt.tokens := by
  intro ts x fl h hfl hts
  cases h with
  | effect h =>
    obtain ⟨semi, h, hs⟩ := h
    simp only [List.forall_mem_append, List.forall_mem_cons] at hts
    exact List.rel_append (hE _ _ _ h hfl hts.1) (.cons (hts.2.1.fixed hs rfl) .nil)
  | print k _ h =>
    obtain ⟨semi, h, hs⟩ := h
    simp only [List.forall_mem_append, List.forall_mem_cons] at hts
    exact .cons (.refl k) (List.rel_append (hE _ _ _ h hfl hts.2.1)
      (.cons (hts.2.2.1.fixed hs rfl) .nil))
  | ret k _ h =>
    obtain ⟨semi, h, hs⟩ := h
    simp only [List.forall_mem_append, List.forall_mem_cons] at hts
    exact .cons (.refl k) (List.rel_append (optional_rewritten hE _ _ _ h hfl hts.2.1)
      (.cons (hts.2.2.1.fixed hs rfl) .nil))
  | block k hk h =>
    obtain ⟨hkp, hts⟩ := List.forall_mem_cons.mp hts
    exact .cons (hkp.fixed hk rfl) (block_rewritten hD _ _ _ h hfl hts)
  | loop k hk h =>
    obtain ⟨hkp, hts⟩ := List.forall_mem_cons.mp hts
    have hw := while_rewritten hE hS _ _ _ _ h hfl hts
    cases h
    exact .cons (hkp.fixed hk rfl) hw
  | forLoop k hk h => exact absurd hk (hts k List.mem_cons_self).noFor
  | branch k hk h =>
    obtain ⟨hkp, hts⟩ := List.forall_mem_cons.mp hts
    have hi := if_rewritten hE hS _ _ _ _ h hfl hts
    cases h <;> exact .cons (hkp.fixed hk rfl) hi

theorem declared_rewritten (hE : Rewritten E Expr.tokens) (hD : Rewritten D Stmt.tokens)
    (hS : ∀ t, Rewritten (S t) Stmt.tokens) : Rewritten (Declared E D S) Stmt.tokens := by
  intro ts x fl h hfl hts
  cases h with
  | function k hk h =>
    obtain ⟨hkp, hts⟩ := List.forall_mem_cons.mp hts
    have hf := function_rewritten hD _ _ _ h hfl hts
    cases h
    exact .cons (hkp.fixed hk rfl) hf
  | var k hk h =>
    obtain ⟨hkp, hts⟩ := List.forall_mem_cons.mp hts
    have hv := variable_rewritten hE _ _ _ h hfl hts
    cases h <;> exact .cons (hkp.fixed hk rfl) hv
  | statement h => exact hS _ _ _ _ h hfl hts

end

theorem declaration_statement_rewritten (n : Nat) :
    Rewritten (Declaration n) Stmt.tokens ∧ ∀ t, Rewritten (Statement n t) Stmt.tokens := by
  induction n with
  | zero => exact ⟨fun _ _ _ h => h.elim, fun _ _ _ _ h => h.elim⟩
  | succ n ih =>
    have hE := (expression_operand_rewritten n).1
    exact ⟨declared_rewritten hE ih.1 ih.2, body_rewritten hE ih.1 ih.2⟩

end Reading
end Lox
