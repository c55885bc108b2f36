import Lox.Proofs.Grammar.RoundTrip

/-!
What was parsed is well formed: its tokens are of the kinds they stand for, each operand binds as
tightly as its place asks for, and a branch or the body of a loop is no declaration. The same holds
of every statement inside.
-/

namespace Lox
open Parse

namespace Reading

variable {α : Type} {P : Reading α}

/-- What `P` reads without a flaw satisfies `p`. -/
def Yields (P : Reading α) (p : α → Prop) : Prop := ∀ ts x fl, P ts x fl → fl = #[] → p x

/-- Items that are not too many, each of which satisfies `p`. -/
theorem items_yield {p : α → Prop} (hP : Yields P p) {limit : Nat} (hlimit : 0 < limit)
    {flaw : Flaw} : Yields (Items limit flaw P) (fun xs => xs.length ≤ limit ∧ ∀ x ∈ xs, p x) := by
  intro ts xs fl h hfl
  cases h with
  | none => exact ⟨Nat.zero_le _, nofun⟩
  | some h =>
    induction h with
    | one h => exact ⟨hlimit, List.forall_mem_singleton.mpr (hP _ _ _ h hfl)⟩
    | @more _ xs _ _ _ _ comma t _ _ h ih =>
      simp only [Array.append_eq_empty_iff] at hfl
      obtain ⟨-, hxs⟩ := ih hfl.1.1
      have hroom : ¬limit ≤ xs.length := by
        intro hfull
        simp [overflow, hfull] at hfl
      refine ⟨?_, List.forall_mem_append.mpr
        ⟨hxs, List.forall_mem_singleton.mpr (hP _ _ _ h hfl.2)⟩⟩
      rw [List.length_append, List.length_singleton]
      omega

/-! ### Expressions -/

/-- A well-formed expression that binds at most as loosely as a rank says. -/
def Tight (r : Nat) (e : Expr) : Prop := e.wellFormed = true ∧ e.rank ≤ r

theorem Tight.mono {r r' : Nat} {e : Expr} (h : Tight r e) (hr : r ≤ r') : Tight r' e :=
  ⟨h.1, Nat.le_trans h.2 hr⟩

theorem allWellFormed_iff {es : List Expr} :
    Expr.allWellFormed es = true ↔ ∀ e ∈ es, e.wellFormed = true := by
  induction es with
  | nil => exact ⟨fun _ e he => absurd he List.not_mem_nil, fun _ => rfl⟩
  | cons e es ih => rw [Expr.allWellFormed, Bool.and_eq_true, ih, List.forall_mem_cons]

section
variable {E O : Reading Expr}

theorem primary_yields (hE : Yields E (Tight 9)) : Yields (Primary E) (Tight 0) := by
  intro ts e fl h hfl
  cases h with
  | literal t h => exact ⟨rfl, Nat.le_refl 0⟩
  | name t hk => exact ⟨beq_iff_eq.mpr hk, Nat.le_refl 0⟩
  | group l r _ h _ => exact ⟨(hE _ _ _ h hfl).1, Nat.le_refl 0⟩

theorem called_yields (hE : Yields E (Tight 9)) : Yields (Called E) (Tight 1) := by
  intro ts e fl h hfl
  induction h with
  | primary h => exact (primary_yields hE _ _ _ h hfl).mono (Nat.zero_le 1)
  | call l r _ _ ha hr ih =>
    simp only [Array.append_eq_empty_iff] at hfl
    obtain ⟨hf, hrank⟩ := ih hfl.1
    obtain ⟨hlen, hargs⟩ := items_yield hE (by decide) _ _ _ ha hfl.2
    have hargs := allWellFormed_iff.mpr fun e he => (hargs e he).1
    exact ⟨by simp [Expr.wellFormed, hr, hf, hrank, hlen, hargs], Nat.le_refl 1⟩

theorem unary_yields (hE : Yields E (Tight 9)) (hO : Yields O (Tight 2)) :
    Yields (Unary E O) (Tight 2) := by
  intro ts e fl h hfl
  cases h with
  | operator op hop h =>
    obtain ⟨he, hrank⟩ := hO _ _ _ h hfl
    exact ⟨by simp [Expr.wellFormed, hop, he, hrank], Nat.le_refl 2⟩
  | call h => exact (called_yields hE _ _ _ h hfl).mono (Nat.le_succ 1)

/-- Operators of one level, each with tighter operands on its right. -/
theorem chained_yields {ops : Kind → Bool} {node : Expr → Token → Expr → Expr} {P : Reading Expr}
    {r : Nat} (hP : Yields P (Tight r))
    (hnode : ∀ l op e, ops op.kind = true → Tight (r + 1) l → Tight r e →
      Tight (r + 1) (node l op e)) :
    Yields (Chained ops node P) (Tight (r + 1)) := by
  intro ts e fl h hfl
  induction h with
  | one h => exact (hP _ _ _ h hfl).mono (Nat.le_succ r)
  | more op _ hop h ih =>
    simp only [Array.append_eq_empty_iff] at hfl
    exact hnode _ op _ hop (ih hfl.1) (hP _ _ _ h hfl.2)

theorem tight_binary {r : Nat} {l e : Expr} {op : Token} (hop : isBinaryOp op.kind = true)
    (hr : op.kind.rank = r + 1) (hl : Tight (r + 1) l) (he : Tight r e) :
    Tight (r + 1) (.binary l op e) := by
  have hrank := Nat.lt_succ_of_le he.2
  exact ⟨by simp [Expr.wellFormed, hop, hr, hl.1, hl.2, he.1, hrank], Nat.le_of_eq hr⟩

theorem tight_logical {r : Nat} {l e : Expr} {op : Token} (hop : isLogicalOp op.kind = true)
    (hr : op.kind.rank = r + 1) (hl : Tight (r + 1) l) (he : Tight r e) :
    Tight (r + 1) (.logical l op e) := by
  have hrank := Nat.lt_succ_of_le he.2
  exact ⟨by simp [Expr.wellFormed, hop, hr, hl.1, hl.2, he.1, hrank], Nat.le_of_eq hr⟩

/-- Operators of a level of binary nodes have its rank. -/
def IsLevel (ops : Kind → Bool) (r : Nat) : Prop :=
  ∀ k, ops k = true → isBinaryOp k = true ∧ k.rank = r

theorem isLevel_factor : IsLevel isFactorOp 3 := by
  intro k hk
  cases k <;> first | exact ⟨rfl, rfl⟩ | cases hk

theorem isLevel_term : IsLevel isTermOp 4 := by
  intro k hk
  cases k <;> first | exact ⟨rfl, rfl⟩ | cases hk

theorem isLevel_comparison : IsLevel isComparisonOp 5 := by
  intro k hk
  cases k <;> first | exact ⟨rfl, rfl⟩ | cases hk

theorem isLevel_equality : IsLevel isEqualityOp 6 := by
  intro k hk
  cases k <;> first | exact ⟨rfl, rfl⟩ | cases hk

theorem IsLevel.yields {ops : Kind → Bool} {r : Nat} (hops : IsLevel ops (r + 1))
    {P : Reading Expr} (hP : Yields P (Tight r)) :
    Yields (Chained ops .binary P) (Tight (r + 1)) :=
  chained_yields hP fun _ _ _ hop hl he => tight_binary (hops _ hop).1 (hops _ hop).2 hl he

theorem disjunction_yields (hE : Yields E (Tight 9)) (hO : Yields O (Tight 2)) :
    Yields (Disjunction E O) (Tight 8) := by
  have hfactor : Yields (Factor E O) (Tight 3) := isLevel_factor.yields (unary_yields hE hO)
  have hterm : Yields (Term E O) (Tight 4) := isLevel_term.yields hfactor
  have hcomparison : Yields (Comparison E O) (Tight 5) := isLevel_comparison.yields hterm
  have hequality : Yields (Equality E O) (Tight 6) := isLevel_equality.yields hcomparison
  have hconjunction : Yields (Conjunction E O) (Tight 7) := by
    refine chained_yields hequality fun _ _ _ hop hl he => ?_
    have hop := beq_iff_eq.mp hop
    exact tight_logical (by rw [hop]; rfl) (by rw [hop]; rfl) hl he
  refine chained_yields hconjunction fun _ _ _ hop hl he => ?_
  have hop := beq_iff_eq.mp hop
  exact tight_logical (by rw [hop]; rfl) (by rw [hop]; rfl) hl he

theorem assignment_yields (hE : Yields E (Tight 9)) (hO : Yields O (Tight 2)) :
    Yields (Assignment E O) (Tight 9) := by
  intro ts e fl h hfl
  cases h with
  | plain h => exact (disjunction_yields hE hO _ _ _ h hfl).mono (Nat.le_succ 8)
  | assign x eq h _ hv =>
    simp only [Array.append_eq_empty_iff] at hfl
    have hx := (disjunction_yields hE hO _ _ _ h hfl.1).1
    rw [Expr.wellFormed] at hx
    exact ⟨by simp [Expr.wellFormed, hx, (hE _ _ _ hv hfl.2).1], Nat.le_refl 9⟩
  | invalid => simp at hfl

end

theorem expression_operand_yield (n : Nat) :
    Yields (Expression n) (Tight 9) ∧ Yields (Operand n) (Tight 2) := by
  induction n with
  | zero => exact ⟨fun _ _ _ h => h.elim, fun _ _ _ h => h.elim⟩
  | succ n ih => exact ⟨assignment_yields ih.1 ih.2, unary_yields ih.1 ih.2⟩

/-! ### Statements -/

theorem allWellFormed_append {ss ss' : List Stmt} :
    Stmt.allWellFormed (ss ++ ss') = (Stmt.allWellFormed ss && Stmt.allWellFormed ss') := by
  induction ss with
  | nil => rfl
  | cons s ss ih => simp [Stmt.allWellFormed, ih, Bool.and_assoc]

/-- A loop with clauses is well formed when its parts are. -/
theorem forLoop_wellFormed {init : Option Stmt} {cond incr : Option Expr} {body : Stmt}
    (hi : Stmt.allWellFormed init.toList = true) (hc : cond.all Expr.wellFormed = true)
    (hn : incr.all Expr.wellFormed = true) (hb : body.wellFormed = true) :
    (Stmt.forLoop init cond incr body).wellFormed = true := by
  have hcond : (cond.getD (.literal (.bool true))).wellFormed = true := by
    cases cond with
    | none => rfl
    | some c => exact hc
  have hincr : Stmt.allWellFormed (incr.map Stmt.expression).toList = true := by
    cases incr with
    | none => rfl
    | some e => simpa [Stmt.allWellFormed, Stmt.wellFormed] using hn
  rw [Stmt.forLoop, Stmt.wellFormed, allWellFormed_append, hi]
  simp [Stmt.allWellFormed, Stmt.wellFormed, Stmt.isDeclaration, hcond, hb, hincr]

section
variable {E : Reading Expr} {D : Reading Stmt} {S : Tail → Reading Stmt}

/-- A well-formed statement that is no declaration, and takes no `else` unless it may. -/
structure Closes (t : Tail) (s : Stmt) : Prop where
  wellFormed : s.wellFormed = true
  isStatement : s.isDeclaration = false
  tail : t = .closed → s.tail = .closed

theorem optional_yields (hE : Yields E (Tight 9)) :
    Yields (Optional E) (fun e => e.all Expr.wellFormed = true) := by
  intro ts e fl h hfl
  cases h with
  | none => rfl
  | some h => exact (hE _ _ _ h hfl).1

theorem declarations_yield (hD : Yields D (·.wellFormed = true)) :
    Yields (Declarations D) (Stmt.allWellFormed · = true) := by
  intro ts ss fl h hfl
  induction h with
  | nil => rfl
  | cons h _ ih =>
    simp only [Array.append_eq_empty_iff] at hfl
    rw [Stmt.allWellFormed, Bool.and_eq_true]
    exact ⟨hD _ _ _ h hfl.1, ih hfl.2⟩

theorem variable_yields (hE : Yields E (Tight 9)) : Yields (Variable E) (·.wellFormed = true) := by
  intro ts s fl h hfl
  cases h with
  | bare name semi hk => simp [Stmt.wellFormed, hk]
  | init name eq semi hk _ h => simp [Stmt.wellFormed, hk, (hE _ _ _ h hfl).1]

theorem function_yields (hD : Yields D (·.wellFormed = true)) :
    Yields (Function D) (·.wellFormed = true) := by
  rintro _ _ _ ⟨name, l, r, b, hk, _, hp, _, _, ⟨_, h, _⟩⟩ hfl
  simp only [Array.append_eq_empty_iff] at hfl
  have hname : Yields Name (·.kind = .identifier) := fun _ _ _ h _ => by cases h; assumption
  obtain ⟨hlen, hps⟩ := items_yield hname (by decide) _ _ _ hp hfl.1
  simpa [Stmt.wellFormed, hk, hlen, declarations_yield hD _ _ _ h hfl.2] using hps

theorem init_yields (hE : Yields E (Tight 9)) :
    Yields (Init E) (fun s => Stmt.allWellFormed s.toList = true) := by
  intro ts s fl h hfl
  cases h with
  | none semi _ => rfl
  | var k _ h => simp [Stmt.allWellFormed, variable_yields hE _ _ _ h hfl]
  | effect h =>
    obtain ⟨semi, h, -⟩ := h
    simp [Stmt.allWellFormed, Stmt.wellFormed, (hE _ _ _ h hfl).1]

theorem if_yields (hE : Yields E (Tight 9)) (hS : ∀ t, Yields (S t) (Closes t)) (t : Tail) :
    Yields (If E S t) (Closes t) := by
  intro ts s fl h hfl
  cases h with
  | lone l r _ hc _ hs =>
    simp only [Array.append_eq_empty_iff] at hfl
    have hs := hS _ _ _ _ hs hfl.2
    exact ⟨by simp [Stmt.wellFormed, (hE _ _ _ hc hfl.1).1, hs.wellFormed, hs.isStatement], rfl,
      nofun⟩
  | both l r els _ hc _ hs _ hs' =>
    simp only [Array.append_eq_empty_iff] at hfl
    have hyes := hS _ _ _ _ hs hfl.2.1
    have hno := hS _ _ _ _ hs' hfl.2.2
    refine ⟨?_, rfl, hno.tail⟩
    simp [Stmt.wellFormed, (hE _ _ _ hc hfl.1).1, hyes.wellFormed, hyes.isStatement,
      hyes.tail rfl, hno.wellFormed, hno.isStatement]

theorem while_yields (hE : Yields E (Tight 9)) (hS : ∀ t, Yields (S t) (Closes t)) (t : Tail) :
    Yields (While E S t) (Closes t) := by
  rintro _ _ _ ⟨l, r, _, hc, _, hs⟩ hfl
  simp only [Array.append_eq_empty_iff] at hfl
  have hs := hS _ _ _ _ hs hfl.2
  exact ⟨by simp [Stmt.wellFormed, (hE _ _ _ hc hfl.1).1, hs.wellFormed, hs.isStatement], rfl,
    hs.tail⟩

theorem for_yields (hE : Yields E (Tight 9)) (hS : ∀ t, Yields (S t) (Closes t)) (t : Tail) :
    Yields (For E S t) (Closes t) := by
  rintro _ _ _ ⟨l, semi, r, _, hi, hc, _, hn, _, hs⟩ hfl
  simp only [Array.append_eq_empty_iff] at hfl
  have hi := init_yields hE _ _ _ hi hfl.1
  have hc := optional_yields hE _ _ _ hc hfl.2.1
  have hn := optional_yields hE _ _ _ hn hfl.2.2.1
  have hs := (hS _ _ _ _ hs hfl.2.2.2).wellFormed
  exact ⟨forLoop_wellFormed hi hc hn hs, rfl, fun _ => rfl⟩

theorem body_yields (hE : Yields E (Tight 9)) (hD : Yields D (·.wellFormed = true))
    (hS : ∀ t, Yields (S t) (Closes t)) (t : Tail) : Yields (Body E D S t) (Closes t) := by
  intro ts s fl h hfl
  cases h with
  | effect h =>
    obtain ⟨semi, h, -⟩ := h
    exact ⟨(hE _ _ _ h hfl).1, rfl, fun _ => rfl⟩
  | print k hk h =>
    obtain ⟨semi, h, -⟩ := h
    exact ⟨by simp [Stmt.wellFormed, hk, (hE _ _ _ h hfl).1], rfl, fun _ => rfl⟩
  | ret k hk h =>
    obtain ⟨semi, h, -⟩ := h
    exact ⟨by simp [Stmt.wellFormed, hk, optional_yields hE _ _ _ h hfl], rfl, fun _ => rfl⟩
  | block l _ h =>
    obtain ⟨r, h, -⟩ := h
    exact ⟨declarations_yield hD _ _ _ h hfl, rfl, fun _ => rfl⟩
  | loop k _ h => exact while_yields hE hS t _ _ _ h hfl
  | forLoop k _ h => exact for_yields hE hS t _ _ _ h hfl
  | branch k _ h => exact if_yields hE hS t _ _ _ h hfl

theorem declared_yields (hE : Yields E (Tight 9)) (hD : Yields D (·.wellFormed = true))
    (hS : ∀ t, Yields (S t) (Closes t)) : Yields (Declared E D S) (·.wellFormed = true) := by
  intro ts s fl h hfl
  cases h with
  | function k _ h => exact function_yields hD _ _ _ h hfl
  | var k _ h => exact variable_yields hE _ _ _ h hfl
  | statement h => exact (hS _ _ _ _ h hfl).wellFormed

end

theorem declaration_statement_yield (n : Nat) :
    Yields (Declaration n) (·.wellFormed = true) ∧ ∀ t, Yields (Statement n t) (Closes t) := by
  induction n with
  | zero => exact ⟨fun _ _ _ h => h.elim, fun _ _ _ _ h => h.elim⟩
  | succ n ih =>
    have hE := (expression_operand_yield n).1
    exact ⟨declared_yields hE ih.1 ih.2, body_yields hE ih.1 ih.2⟩

end Reading

/-! ### Programs -/

/-- Every tree that a parser gives is well formed. -/
theorem Parser.parse_wellFormed {p : Parser} {ss : List Stmt} (h : p.parse.1 = .ok ss) :
    Stmt.allWellFormed ss = true :=
  Reading.declarations_yield (Reading.declaration_statement_yield maxNesting).1 _ _ _
    (Parser.parse_ok_iff.mp h) rfl

mutual

/-- A statement and all statements in it, those of functions included. -/
def Stmt.parts : Stmt → List Stmt
  | .function x ps body => .function x ps body :: Stmt.allParts body
  | .block body => .block body :: Stmt.allParts body
  | .branch c yes none => .branch c yes none :: yes.parts
  | .branch c yes (some no) => .branch c yes (some no) :: (yes.parts ++ no.parts)
  | .loop c body => .loop c body :: body.parts
  | s => [s]

/-- All statements in a list of them. -/
def Stmt.allParts : List Stmt → List Stmt
  | [] => []
  | s :: ss => s.parts ++ Stmt.allParts ss

end

mutual

theorem Stmt.parts_wellFormed : ∀ {s t : Stmt}, s.wellFormed = true → t ∈ s.parts →
    t.wellFormed = true
  | .function x ps body, t, h, ht => by
    rcases List.mem_cons.mp ht with rfl | ht
    · exact h
    · simp only [Stmt.wellFormed, Bool.and_eq_true] at h
      exact Stmt.allParts_wellFormed h.2 ht
  | .block body, t, h, ht => by
    rcases List.mem_cons.mp ht with rfl | ht
    · exact h
    · exact Stmt.allParts_wellFormed h ht
  | .branch c yes none, t, h, ht => by
    rcases List.mem_cons.mp ht with rfl | ht
    · exact h
    · simp only [Stmt.wellFormed, Bool.and_eq_true] at h
      exact Stmt.parts_wellFormed h.2 ht
  | .branch c yes (some no), t, h, ht => by
    rcases List.mem_cons.mp ht with rfl | ht
    · exact h
    · simp only [Stmt.wellFormed, Bool.and_eq_true] at h
      rcases List.mem_append.mp ht with ht | ht
      · exact Stmt.parts_wellFormed h.1.1.1.2 ht
      · exact Stmt.parts_wellFormed h.2 ht
  | .loop c body, t, h, ht => by
    rcases List.mem_cons.mp ht with rfl | ht
    · exact h
    · simp only [Stmt.wellFormed, Bool.and_eq_true] at h
      exact Stmt.parts_wellFormed h.2 ht
  | .expression _, t, h, ht | .print _ _, t, h, ht | .var _ _, t, h, ht | .ret _ _, t, h, ht => by
    rwa [List.mem_singleton.mp ht]

/-- Whatever stands in well-formed statements is well formed. -/
theorem Stmt.allParts_wellFormed : ∀ {ss : List Stmt} {t : Stmt}, Stmt.allWellFormed ss = true →
    t ∈ Stmt.allParts ss → t.wellFormed = true
  | s :: ss, t, h, ht => by
    rw [Stmt.allWellFormed, Bool.and_eq_true] at h
    rcases List.mem_append.mp ht with ht | ht
    · exact Stmt.parts_wellFormed h.1 ht
    · exact Stmt.allParts_wellFormed h.2 ht

end

mutual

/-- An expression and all expressions in it. -/
def Expr.parts : Expr → List Expr
  | .assign x v => .assign x v :: v.parts
  | .unary op e => .unary op e :: e.parts
  | .binary l op r => .binary l op r :: (l.parts ++ r.parts)
  | .logical l op r => .logical l op r :: (l.parts ++ r.parts)
  | .grouping e => .grouping e :: e.parts
  | .call f paren args => .call f paren args :: (f.parts ++ Expr.allParts args)
  | e => [e]

/-- All expressions in a list of them. -/
def Expr.allParts : List Expr → List Expr
  | [] => []
  | e :: es => e.parts ++ Expr.allParts es

end

/-- The expressions that stand in a statement, but not in a statement inside it. -/
def Stmt.exprs : Stmt → List Expr
  | .expression e | .print _ e | .branch e _ _ | .loop e _ => [e]
  | .var _ e | .ret _ e => e.toList
  | .function .. | .block _ => []

mutual

theorem Expr.parts_wellFormed : ∀ {e t : Expr}, e.wellFormed = true → t ∈ e.parts →
    t.wellFormed = true
  | .assign x v, t, h, ht | .unary x v, t, h, ht => by
    rcases List.mem_cons.mp ht with rfl | ht
    · exact h
    · simp only [Expr.wellFormed, Bool.and_eq_true] at h
      exact Expr.parts_wellFormed h.2 ht
  | .binary l op r, t, h, ht | .logical l op r, t, h, ht => by
    rcases List.mem_cons.mp ht with rfl | ht
    · exact h
    · simp only [Expr.wellFormed, Bool.and_eq_true] at h
      rcases List.mem_append.mp ht with ht | ht
      · exact Expr.parts_wellFormed h.1.2 ht
      · exact Expr.parts_wellFormed h.2 ht
  | .grouping e, t, h, ht => by
    rcases List.mem_cons.mp ht with rfl | ht
    · exact h
    · exact Expr.parts_wellFormed (e := e) h ht
  | .call f paren args, t, h, ht => by
    rcases List.mem_cons.mp ht with rfl | ht
    · exact h
    · simp only [Expr.wellFormed, Bool.and_eq_true] at h
      rcases List.mem_append.mp ht with ht | ht
      · exact Expr.parts_wellFormed h.1.1.2 ht
      · exact Expr.allParts_wellFormed h.2 ht
  | .literal _, t, h, ht | .variable _, t, h, ht => by
    rwa [List.mem_singleton.mp ht]

/-- Whatever stands in well-formed expressions is well formed. -/
theorem Expr.allParts_wellFormed : ∀ {es : List Expr} {t : Expr}, Expr.allWellFormed es = true →
    t ∈ Expr.allParts es → t.wellFormed = true
  | e :: es, t, h, ht => by
    rw [Expr.allWellFormed, Bool.and_eq_true] at h
    rcases List.mem_append.mp ht with ht | ht
    · exact Expr.parts_wellFormed h.1 ht
    · exact Expr.allParts_wellFormed h.2 ht

end

/-- The expressions of a well-formed statement are well formed. -/
theorem Stmt.exprs_wellFormed : ∀ {s : Stmt} {e : Expr}, s.wellFormed = true → e ∈ s.exprs →
    e.wellFormed = true
  | .expression _, _, h, he => by rwa [List.mem_singleton.mp he]
  | .print _ _, _, h, he => by
    simp only [Stmt.wellFormed, Bool.and_eq_true] at h
    exact List.mem_singleton.mp he ▸ h.2
  | .branch _ _ none, _, h, he | .loop _ _, _, h, he => by
    simp only [Stmt.wellFormed, Bool.and_eq_true] at h
    exact List.mem_singleton.mp he ▸ h.1.1
  | .branch _ _ (some _), _, h, he => by
    simp only [Stmt.wellFormed, Bool.and_eq_true] at h
    exact List.mem_singleton.mp he ▸ h.1.1.1.1.1
  | .var _ _, _, h, he | .ret _ _, _, h, he => by
    simp only [Stmt.wellFormed, Bool.and_eq_true] at h
    exact Option.all_eq_true _ _ |>.mp h.2 _ (Option.mem_toList.mp he)

end Lox
