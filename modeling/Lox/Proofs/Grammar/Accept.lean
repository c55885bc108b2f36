import Lox.Proofs.Grammar.Fatal
import Lox.Proofs.Grammar.Notes

/-!
Parsing accepts exactly the grammar. What is read without a fatal flaw can be derived, and what can
be derived is read. Only the kinds of the tokens matter for that.
-/

namespace Lox

namespace Reading
open Parse

/-- The kinds of what `P` reads are phrases of the category `c`. -/
def Spells {α : Type} (r : ElseRule) (c : Category) (n : Nat) (P : Reading α) : Prop :=
  ∀ ts x fl, P ts x fl → Derives r c n (kinds ts)

section
variable {r : ElseRule} {n : Nat} {E O : Reading Expr} {D : Reading Stmt} {S : Tail → Reading Stmt}

theorem arguments_spell (hE : Spells r .expression n E) {limit : Nat} {flaw : Flaw} :
    Spells r .arguments n (Items limit flaw E) := by
  intro ts xs fl h
  cases h with
  | none => exact .noArguments
  | some h =>
    refine .someArguments ?_
    induction h with
    | one h => exact .oneArgument (hE _ _ _ h)
    | more comma t _ hk h ih =>
      rw [kinds_append, kinds_cons, hk]
      exact .moreArguments ih (hE _ _ _ h)

theorem primary_spells (hE : Spells r .expression n E) : Spells r .primary n (Primary E) := by
  intro ts x fl h
  cases h with
  | literal t hv =>
    refine .literal t.kind ?_
    revert hv
    cases hk : t.kind <;> simp [Token.literal?, hk, isLiteral]
  | name t ht =>
    rw [kinds_cons, ht]
    exact .name
  | group l u hl h hu =>
    simp only [kinds_cons, kinds_append, kinds_nil, hl, hu]
    exact .group (hE _ _ _ h)

theorem called_spells (hE : Spells r .expression n E) : Spells r .call n (Called E) := by
  intro ts x fl h
  induction h with
  | primary h => exact .callee (primary_spells hE _ _ _ h)
  | call l u _ hl ha hu ih =>
    simp only [kinds_cons, kinds_append, kinds_nil, hl, hu]
    exact .call ih (arguments_spell hE _ _ _ ha)

theorem unary_spells (hE : Spells r .expression n E) (hO : Spells r .operand n O) :
    Spells r .unary n (Unary E O) := by
  intro ts x fl h
  cases h with
  | operator op hop h => exact .prefixed _ hop (hO _ _ _ h)
  | call h => exact .called (called_spells hE _ _ _ h)

theorem chained_spells (t : Tier) {node : Expr → Token → Expr → Expr} {P : Reading Expr}
    (hP : Spells r t.operands n P) : Spells r (.tier t) n (Chained t.ops node P) := by
  intro ts x fl h
  induction h with
  | one h => exact .tighter t (hP _ _ _ h)
  | more op _ hop h ih =>
    rw [kinds_append, kinds_cons]
    exact .operator t _ ih hop (hP _ _ _ h)

theorem disjunction_spells (hE : Spells r .expression n E) (hO : Spells r .operand n O) :
    Spells r (.tier .disjunction) n (Disjunction E O) :=
  have factor : Spells r (.tier .factor) n (Factor E O) :=
    chained_spells .factor (unary_spells hE hO)
  have term : Spells r (.tier .term) n (Term E O) := chained_spells .term factor
  have comparison : Spells r (.tier .comparison) n (Comparison E O) :=
    chained_spells .comparison term
  have equality : Spells r (.tier .equality) n (Equality E O) :=
    chained_spells .equality comparison
  have conjunction : Spells r (.tier .conjunction) n (Conjunction E O) :=
    chained_spells .conjunction equality
  chained_spells .disjunction conjunction

theorem assignment_spells (hE : Spells r .expression n E) (hO : Spells r .operand n O) :
    Spells r .assignment n (Assignment E O) := by
  intro ts x fl h
  cases h with
  | plain h => exact .plain (disjunction_spells hE hO _ _ _ h)
  | assign name eq h heq hv =>
    rw [kinds_append, kinds_cons, heq]
    exact .assign (disjunction_spells hE hO _ _ _ h) (hE _ _ _ hv)
  | invalid eq h _ heq hv =>
    rw [kinds_append, kinds_cons, heq]
    exact .assign (disjunction_spells hE hO _ _ _ h) (hE _ _ _ hv)

end

theorem expression_operand_spell (r : ElseRule) (n : Nat) :
    Spells r .expression n (Expression n) ∧ Spells r .operand n (Operand n) := by
  induction n with
  | zero => exact ⟨fun _ _ _ h => h.elim, fun _ _ _ h => h.elim⟩
  | succ n ih =>
    exact ⟨fun _ _ _ h => .expression (assignment_spells ih.1 ih.2 _ _ _ h),
      fun _ _ _ h => .operand (unary_spells ih.1 ih.2 _ _ _ h)⟩

section
variable {r : ElseRule} {n : Nat} {E : Reading Expr} {D : Reading Stmt} {S : Tail → Reading Stmt}

theorem optional_spells (hE : Spells r .expression n E) : Spells r .optional n (Optional E) := by
  intro ts x fl h
  cases h with
  | none => exact .absent
  | some h => exact .present (hE _ _ _ h)

theorem variable_spells (hE : Spells r .expression n E) : Spells r .variable n (Variable E) := by
  intro ts x fl h
  cases h with
  | bare name semi hn hs =>
    simp only [kinds_cons, kinds_nil, hn, hs]
    exact .bare
  | init name eq semi hn heq h hs =>
    simp only [kinds_cons, kinds_append, kinds_nil, hn, heq, hs]
    exact .initialized (hE _ _ _ h)

theorem init_spells (hE : Spells r .expression n E) : Spells r .init n (Init E) := by
  intro ts x fl h
  cases h with
  | none semi hs =>
    simp only [kinds_cons, kinds_nil, hs]
    exact .initNone
  | var k hk h =>
    rw [kinds_cons, hk]
    exact .initVariable (variable_spells hE _ _ _ h)
  | effect h =>
    obtain ⟨semi, h, hs⟩ := h
    simp only [kinds_cons, kinds_append, kinds_nil, hs]
    exact .initEffect (hE _ _ _ h)

theorem parameters_spell {limit : Nat} {flaw : Flaw} :
    Spells r .parameters n (Items limit flaw Name) := by
  intro ts xs fl h
  cases h with
  | none => exact .noParameters
  | some h =>
    refine .someParameters ?_
    induction h with
    | one h =>
      obtain ⟨name, hn⟩ := h
      rw [kinds_cons, hn]
      exact .oneParameter
    | more comma t _ hk h ih =>
      obtain ⟨name, hn⟩ := h
      simp only [kinds_append, kinds_cons, kinds_nil, hk, hn]
      exact .moreParameters ih

theorem declarations_spell (hD : Spells r .declaration n D) :
    Spells r .declarations n (Declarations D) := by
  intro ts ss fl h
  induction h with
  | nil => exact .nil
  | cons h _ ih =>
    rw [kinds_append]
    exact .cons (hD _ _ _ h) ih

theorem body_spells (hE : Spells r .expression n E) (hD : Spells r .declaration n D)
    (hS : ∀ t, Spells r (.statement t) n (S t)) (t : Tail) :
    Spells r (.statement t) (n + 1) (Body E D S t) := by
  intro ts x fl h
  cases h with
  | effect h =>
    obtain ⟨semi, h, hs⟩ := h
    simp only [kinds_append, kinds_cons, kinds_nil, hs]
    exact .effect (hE _ _ _ h)
  | print k hk h =>
    obtain ⟨semi, h, hs⟩ := h
    simp only [kinds_append, kinds_cons, kinds_nil, hs, hk]
    exact .print (hE _ _ _ h)
  | ret k hk h =>
    obtain ⟨semi, h, hs⟩ := h
    simp only [kinds_append, kinds_cons, kinds_nil, hs, hk]
    exact .ret (optional_spells hE _ _ _ h)
  | block k hk h =>
    obtain ⟨b, h, hb⟩ := h
    simp only [kinds_append, kinds_cons, kinds_nil, hb, hk]
    exact .block (declarations_spell hD _ _ _ h)
  | loop k hk h =>
    obtain ⟨l, u, hl, hc, hu, hs⟩ := h
    simp only [kinds_append, kinds_cons, hl, hu, hk]
    exact .loop (hE _ _ _ hc) (hS _ _ _ _ hs)
  | forLoop k hk h =>
    obtain ⟨l, semi, u, hl, hi, hc, hsemi, hm, hu, hs⟩ := h
    simp only [kinds_append, kinds_cons, hl, hsemi, hu, hk]
    exact .forLoop (init_spells hE _ _ _ hi) (optional_spells hE _ _ _ hc)
      (optional_spells hE _ _ _ hm) (hS _ _ _ _ hs)
  | branch k hk h =>
    cases h with
    | lone l u hl hc hu hs =>
      simp only [kinds_append, kinds_cons, hl, hu, hk]
      exact .branch (hE _ _ _ hc) (hS _ _ _ _ hs)
    | both l u els hl hc hu hs hels hs' =>
      simp only [kinds_append, kinds_cons, hl, hu, hk, hels]
      exact .branchElse (hE _ _ _ hc) (hS _ _ _ _ hs) (fun _ => rfl) (hS _ _ _ _ hs')

theorem declared_spells (hE : Spells r .expression n E) (hD : Spells r .declaration n D)
    (hS : ∀ t, Spells r (.statement t) n (S t)) :
    Spells r .declaration (n + 1) (Declared E D S) := by
  intro ts x fl h
  cases h with
  | function k hk h =>
    obtain ⟨name, l, u, b, hn, hl, hp, hu, hb, h⟩ := h
    obtain ⟨c, h, hc⟩ := h
    simp only [kinds_append, kinds_cons, kinds_nil, hk, hn, hl, hu, hb, hc]
    exact .function (parameters_spell _ _ _ hp) (declarations_spell hD _ _ _ h)
  | var k hk h =>
    rw [kinds_cons, hk]
    exact .varDeclaration (variable_spells hE _ _ _ h)
  | statement h => exact .statement (hS _ _ _ _ h)

end

theorem declaration_statement_spell (r : ElseRule) (n : Nat) :
    Spells r .declaration n (Declaration n) ∧
      ∀ t, Spells r (.statement t) n (Statement n t) := by
  induction n with
  | zero => exact ⟨fun _ _ _ h => h.elim, fun _ _ _ _ h => h.elim⟩
  | succ n ih =>
    have hE := (expression_operand_spell r n).1
    exact ⟨declared_spells hE ih.1 ih.2, body_spells hE ih.1 ih.2⟩

end Reading

/-! ### Programs -/

open Parse Reading

/-- The parser accepts exactly what the grammar derives, if the derivation with every `else` at the
nearest `if` never opens more levels at once than there may be. There always is such a derivation,
though it may be one that opens more. -/
theorem Parser.accepts_iff_derives (ts : List Token) :
    let w := kinds (ts.takeWhile (!·.isEof))
    ((Parser.ofTokens ts).Accepts ↔
      (∃ n, Derives .any .declarations n w) ∧ Derives .nearest .declarations maxNesting w) ∧
    ((∃ n, Derives .any .declarations n w) → ∃ n, Derives .nearest .declarations n w) := by
  refine ⟨?_, fun ⟨_, h⟩ => h.nearest⟩
  rw [Parser.accepts_iff, ofTokens]
  simp only [Parse.program_eq_ok]
  constructor
  · rintro ⟨ss, _, fl, h, -⟩
    have spells := fun r => declarations_spell (declaration_statement_spell r maxNesting).1 _ _ _ h
    exact ⟨⟨_, spells .any⟩, spells .nearest⟩
  · rintro ⟨-, h⟩
    obtain ⟨ss, fl, h⟩ := h.read rfl
    exact ⟨ss, _, fl, h, rfl⟩

end Lox
