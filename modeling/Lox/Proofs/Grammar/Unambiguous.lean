import Lox.Proofs.Grammar.Lookahead

/-!
Readings are determined by the tokens. Two readings that begin at the same token and stop where
nothing goes on with them have taken the same tokens and spell the same, however many levels they
may open; and what can be read within some levels can be read within more.
-/

namespace Lox
open Parse

/-- Both readings are what parsing gives when the levels of both may be opened. -/
theorem Parse.unambiguous {α : Type} {P : Nat → Reading α} {p : Nat → Nat → Parse α}
    {more : Kind → Bool} (hcomplete : ∀ size n, Complete size more (p size n) (P n))
    (hfollows : ∀ {size n n'}, n ≤ n' → Follows size size (p size n) (p size n'))
    {n n' : Nat} {ts ts' rest rest' : List Token} {x x' : α} {fl fl' : Array Problem}
    (h : P n ts x fl) (h' : P n' ts' x' fl') (hsame : ts ++ rest = ts' ++ rest')
    (hstop : Stops more rest) (hstop' : Stops more rest') :
    ts = ts' ∧ x = x' ∧ fl = fl' ∧ rest = rest' := by
  let size := (ts ++ rest).length
  have run : ∀ {n ts x fl rest}, P n ts x fl → Stops more rest → (ts ++ rest).length ≤ size →
      ∀ {m}, n ≤ m → p size m ⟨ts ++ rest, #[]⟩ = .ok x ⟨rest, fl⟩ := by
    intro n ts x fl rest h hstop hsize m hm
    have hrun := hcomplete size n ts x fl h rest #[] hsize hstop
    simpa using (hfollows hm).ok ⟨rfl, hsize, hsize⟩ hrun
  have hrun := run h hstop (Nat.le_refl _) (Nat.le_max_left n n')
  have hrun' := run h' hstop' (hsame ▸ Nat.le_refl _) (Nat.le_max_right n n')
  rw [hsame, hrun'] at hrun
  obtain ⟨rfl, hs⟩ := EStateM.Result.ok.inj hrun
  obtain ⟨rfl, rfl⟩ := Progress.mk.inj hs
  exact ⟨List.append_cancel_right hsame, rfl, rfl, rfl⟩

namespace Reading

variable {n n' : Nat} {t t' : Tail} {ts ts' rest rest' : List Token} {e e' : Expr} {s s' : Stmt}
  {fl fl' : Array Problem}

theorem expression_unambiguous (h : Expression n ts e fl) (h' : Expression n' ts' e' fl')
    (hsame : ts ++ rest = ts' ++ rest') (hstop : Stops continues rest)
    (hstop' : Stops continues rest') : ts = ts' ∧ e = e' ∧ fl = fl' ∧ rest = rest' :=
  Parse.unambiguous (fun size n => (expression_operand_complete size n).1)
    (fun hn => (Follows.expression_operand (Nat.le_refl _) hn).1) h h' hsame hstop hstop'

theorem declaration_unambiguous (h : Declaration n ts s fl) (h' : Declaration n' ts' s' fl')
    (hsame : ts ++ rest = ts' ++ rest') (hstop : Stops (· == .kwElse) rest)
    (hstop' : Stops (· == .kwElse) rest') : ts = ts' ∧ s = s' ∧ fl = fl' ∧ rest = rest' :=
  Parse.unambiguous (fun size n => (declaration_statement_complete size n).1)
    (fun hn => (Follows.declaration_statement (Nat.le_refl _) hn).1) h h' hsame hstop hstop'

/-! ### More levels -/

theorem expression_mono (h : Expression n ts e fl) (hn : n ≤ n') : Expression n' ts e fl := by
  have hrun := (expression_operand_complete ts.length n).1 ts e fl h [] #[] (by simp)
    (Stops.nil _)
  have hrun' := (Follows.expression_operand (Nat.le_refl _) hn).1.ok
    ⟨rfl, by simp, by simp⟩ hrun
  obtain ⟨ts', fl', htook, hread⟩ := (expression_operand_sound ts.length n').1 _ _ _ hrun'
  obtain rfl : ts = ts' := by simpa using htook.rest
  obtain rfl : fl = fl' := by simpa using htook.reports
  exact hread

/-- The statement may be given another tail then, as nothing comes behind it here. -/
theorem statement_mono (h : Statement n t ts s fl) (hn : n ≤ n') :
    ∃ t', Statement n' t' ts s fl := by
  have hrun := (declaration_statement_complete ts.length n).2 t ts s fl h [] #[] (by simp)
    (fun _ => Stops.nil _)
  have hrun' := (Follows.declaration_statement (Nat.le_refl _) hn).2.ok
    ⟨rfl, by simp, by simp⟩ hrun
  obtain ⟨t', ts', fl', htook, hread, -⟩ :=
    (declaration_statement_sound ts.length n').2 _ _ _ hrun'
  obtain rfl : ts = ts' := by simpa using htook.rest
  obtain rfl : fl = fl' := by simpa using htook.reports
  exact ⟨t', hread⟩

theorem variable_mono (h : Variable (Expression n) ts s fl) (hn : n ≤ n') :
    Variable (Expression n') ts s fl := by
  cases h with
  | bare name semi hname hs => exact .bare name semi hname hs
  | init name eq semi hname heq h hs =>
    exact .init name eq semi hname heq (expression_mono h hn) hs

theorem init_mono {i : Option Stmt} (h : Init (Expression n) ts i fl) (hn : n ≤ n') :
    Init (Expression n') ts i fl := by
  cases h with
  | none semi hs => exact .none semi hs
  | var k hk h => exact .var k hk (variable_mono h hn)
  | effect h =>
    obtain ⟨semi, h, hs⟩ := h
    exact .effect (.mk semi (expression_mono h hn) hs)

theorem optional_mono {x : Option Expr} (h : Optional (Expression n) ts x fl) (hn : n ≤ n') :
    Optional (Expression n') ts x fl := by
  cases h with
  | none => exact .none
  | some h => exact .some (expression_mono h hn)

/-! ### Readings by their first token -/

section
variable {k : Token} {us : List Token}

theorem declaration_of_var (hk : k.kind = .kwVar) (h : Declaration n (k :: us) s fl) :
    ∃ m, n = m + 1 ∧ Variable (Expression m) us s fl := by
  cases n with
  | zero => exact h.elim
  | succ n =>
    cases h with
    | function _ hf => simp [hk] at hf
    | var _ _ h => exact ⟨n, rfl, h⟩
    | statement h =>
      have hstarts := (statement_starts _ n).head h
      rw [hk] at hstarts
      cases hstarts

theorem declaration_of_statement (hk : opensDeclaration k.kind = false)
    (h : Declaration n (k :: us) s fl) : ∃ m t, n = m + 1 ∧ Statement m t (k :: us) s fl := by
  cases n with
  | zero => exact h.elim
  | succ n =>
    cases h with
    | function _ hf => simp [hf, opensDeclaration] at hk
    | var _ hv => simp [hv, opensDeclaration] at hk
    | statement h => exact ⟨n, _, rfl, h⟩

theorem statement_of_effect (hk : opensStatement k.kind = false)
    (h : Statement n t (k :: us) s fl) :
    ∃ m, n = m + 1 ∧ Effect (Expression m) (k :: us) s fl := by
  cases n with
  | zero => exact h.elim
  | succ n =>
    cases h with
    | effect h => exact ⟨n, rfl, h⟩
    | print _ ho | ret _ ho | block _ ho | loop _ ho | forLoop _ ho | branch _ ho =>
      simp [ho, opensStatement] at hk

theorem statement_of_brace (hk : k.kind = .leftBrace) (h : Statement n t (k :: us) s fl) :
    ∃ m ss, n = m + 1 ∧ s = .block ss ∧ Block (Declaration m) us ss fl := by
  cases n with
  | zero => exact h.elim
  | succ n =>
    cases h with
    | effect h =>
      have hstarts := (effect_starts (expression_starts n)).head h
      rw [hk] at hstarts
      cases hstarts
    | block _ _ h => exact ⟨n, _, rfl, rfl, h⟩
    | print _ ho | ret _ ho | loop _ ho | forLoop _ ho | branch _ ho => simp [hk] at ho

theorem statement_of_while (hk : k.kind = .kwWhile) (h : Statement n t (k :: us) s fl) :
    ∃ m, n = m + 1 ∧ While (Expression m) (Statement m) t us s fl := by
  cases n with
  | zero => exact h.elim
  | succ n =>
    cases h with
    | effect h =>
      have hstarts := (effect_starts (expression_starts n)).head h
      rw [hk] at hstarts
      cases hstarts
    | loop _ _ h => exact ⟨n, rfl, h⟩
    | print _ ho | ret _ ho | block _ ho | forLoop _ ho | branch _ ho => simp [hk] at ho

end

/-! ### Lists of declarations up to a brace -/

section
variable {ds tail : List Token} {ss : List Stmt} {brace k : Token}

/-- When a declaration can be read at the start of a list of them, it is the first one. -/
theorem Declarations.peel (h : Declarations (Declaration n) ds ss fl)
    (hbrace : brace.kind = .rightBrace) (h' : Declaration n' ts s fl')
    (hsame : ds ++ brace :: rest = ts ++ tail) (htail : Stops (· == .kwElse) tail) :
    ∃ ds' ss' fl'', ss = s :: ss' ∧ fl = fl' ++ fl'' ∧ Declaration n ts s fl' ∧
      Declarations (Declaration n) ds' ss' fl'' ∧ ds' ++ brace :: rest = tail := by
  cases h with
  | nil =>
    obtain ⟨u, us, rfl, hu⟩ := declaration_starts n' _ _ _ h'
    obtain ⟨rfl, -⟩ := List.cons.inj hsame
    rw [hbrace] at hu
    cases hu
  | @cons ts₁ s₁ fl₁ us ss' fl₂ h₁ hs =>
    have hend : Stops (· == .kwElse) (us ++ brace :: rest) :=
      stops_else_of_declarations (declaration_starts n) hs (.cons (by simp [hbrace]) _)
    rw [List.append_assoc] at hsame
    obtain ⟨rfl, rfl, rfl, rfl⟩ := declaration_unambiguous h₁ h' hsame hend htail
    exact ⟨us, ss', fl₂, rfl, rfl, h₁, hs, rfl⟩

/-- At a brace there are no more declarations. -/
theorem Declarations.eq_nil (h : Declarations (Declaration n) ds ss fl)
    (hsame : ds ++ brace :: rest = k :: tail) (hk : k.kind = .rightBrace) :
    ds = [] ∧ ss = [] ∧ fl = #[] ∧ rest = tail := by
  cases h with
  | nil => exact ⟨rfl, rfl, rfl, (List.cons.inj hsame).2⟩
  | cons h₁ _ =>
    obtain ⟨u, us, rfl, hu⟩ := declaration_starts n _ _ _ h₁
    obtain ⟨rfl, -⟩ := List.cons.inj hsame
    rw [hk] at hu
    cases hu

end

end Reading
end Lox
