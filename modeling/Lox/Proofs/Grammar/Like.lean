import Lox.Proofs.Grammar.RoundTrip

/-!
Trees of one shape. Two trees are alike when they differ in their tokens alone, and the tokens at
the same place in both are related. When tokens keep their kinds and values, what is read from them
is alike to what was read before.
-/

namespace Lox

/-! ### Trees -/

/-- Expressions that are alike, with tokens related by `R`. -/
inductive Expr.Like (R : Token → Token → Prop) : Expr → Expr → Prop where
  | literal (v : Literal) : Like R (.literal v) (.literal v)
  | «variable» {x x'} : R x x' → Like R (.variable x) (.variable x')
  | assign {x x' e e'} : R x x' → Like R e e' → Like R (.assign x e) (.assign x' e')
  | unary {op op' e e'} : R op op' → Like R e e' → Like R (.unary op e) (.unary op' e')
  | binary {l l' op op' r r'} : Like R l l' → R op op' → Like R r r' →
      Like R (.binary l op r) (.binary l' op' r')
  | logical {l l' op op' r r'} : Like R l l' → R op op' → Like R r r' →
      Like R (.logical l op r) (.logical l' op' r')
  | grouping {e e'} : Like R e e' → Like R (.grouping e) (.grouping e')
  | call {f f' paren paren' args args'} : Like R f f' → R paren paren' →
      List.Forall₂ (Like R) args args' → Like R (.call f paren args) (.call f' paren' args')

/-- Statements that are alike, with tokens related by `R`. -/
inductive Stmt.Like (R : Token → Token → Prop) : Stmt → Stmt → Prop where
  | expression {e e'} : Expr.Like R e e' → Like R (.expression e) (.expression e')
  | print {k k' e e'} : R k k' → Expr.Like R e e' → Like R (.print k e) (.print k' e')
  | var {x x' e e'} : R x x' → Option.Rel (Expr.Like R) e e' → Like R (.var x e) (.var x' e')
  | function {x x' ps ps' body body'} : R x x' → List.Forall₂ R ps ps' →
      List.Forall₂ (Like R) body body' → Like R (.function x ps body) (.function x' ps' body')
  | block {body body'} : List.Forall₂ (Like R) body body' → Like R (.block body) (.block body')
  | lone {c c' yes yes'} : Expr.Like R c c' → Like R yes yes' →
      Like R (.branch c yes none) (.branch c' yes' none)
  | both {c c' yes yes' no no'} : Expr.Like R c c' → Like R yes yes' → Like R no no' →
      Like R (.branch c yes (some no)) (.branch c' yes' (some no'))
  | loop {c c' body body'} : Expr.Like R c c' → Like R body body' →
      Like R (.loop c body) (.loop c' body')
  | ret {k k' e e'} : R k k' → Option.Rel (Expr.Like R) e e' → Like R (.ret k e) (.ret k' e')

/-- A loop with clauses is alike when its clauses are. -/
theorem Stmt.Like.forLoop {R : Token → Token → Prop} {i i' : Option Stmt} {c c' n n' : Option Expr}
    {s s' : Stmt} (hi : Option.Rel (Stmt.Like R) i i') (hc : Option.Rel (Expr.Like R) c c')
    (hn : Option.Rel (Expr.Like R) n n') (hs : Stmt.Like R s s') :
    Stmt.Like R (.forLoop i c n s) (.forLoop i' c' n' s') := by
  have hcond : Expr.Like R (c.getD (.literal (.bool true))) (c'.getD (.literal (.bool true))) := by
    cases hc with
    | none => exact .literal _
    | some h => exact h
  have hincr : List.Forall₂ (Stmt.Like R) (n.map .expression).toList
      (n'.map .expression).toList := by
    cases hn with
    | none => exact .nil
    | some h => exact .cons (.expression h) .nil
  have hloop := Stmt.Like.loop hcond (.block (.cons hs hincr))
  cases hi with
  | none => exact .block (.cons hloop .nil)
  | some hi => exact .block (.cons hi (.cons hloop .nil))

/-! ### Readings of moved tokens -/

namespace Reading
open Parse

/-- Tokens are put in place of others of the same kinds and values. -/
structure Keeps (f : Token → Token) : Prop where
  kind (t : Token) : (f t).kind = t.kind
  value (t : Token) : (f t).value = t.value

theorem Keeps.literal? {f : Token → Token} (hf : Keeps f) (t : Token) :
    (f t).literal? = t.literal? := by
  rw [Token.literal?, Token.literal?, hf.kind, hf.value]

/-- What `P` reads without a flaw it still reads when `f` is applied to all tokens, and the results
are related by `L`. -/
def Carried {α : Type} (f : Token → Token) (R : Token → Token → Prop) (P : Reading α)
    (L : α → α → Prop) : Prop :=
  ∀ ts x fl, P ts x fl → fl = #[] → (∀ t ∈ ts, R t (f t)) → ∃ x', P (ts.map f) x' #[] ∧ L x x'

section
variable {f : Token → Token} {R : Token → Token → Prop}

theorem items_carried {α : Type} {P : Reading α} {L : α → α → Prop} (hf : Keeps f)
    (hP : Carried f R P L) {limit : Nat} {flaw : Flaw} :
    Carried f R (Items limit flaw P) (List.Forall₂ L) := by
  intro ts xs fl h hfl hts
  cases h with
  | none => exact ⟨[], .none, .nil⟩
  | some h =>
    suffices ∃ xs', Listed limit flaw P (ts.map f) xs' #[] ∧ List.Forall₂ L xs xs' by
      obtain ⟨xs', h, hxs⟩ := this
      exact ⟨xs', .some h, hxs⟩
    induction h with
    | one h =>
      obtain ⟨x', h, hx⟩ := hP _ _ _ h hfl hts
      exact ⟨[x'], .one h, .cons hx .nil⟩
    | more comma t hxs hk h ih =>
      simp only [Array.append_eq_empty_iff] at hfl
      simp only [List.forall_mem_append, List.forall_mem_cons] at hts
      obtain ⟨hus, -, ht, hvs⟩ := hts
      obtain ⟨xs', hxs', hall⟩ := ih hfl.1.1 hus
      obtain ⟨x', hx', hx⟩ := hP _ _ _ h hfl.2 (List.forall_mem_cons.mpr ⟨ht, hvs⟩)
      have hover : overflow limit flaw xs'.length (f t) = #[] := by
        have := hfl.1.2
        rw [overflow] at this ⊢
        rw [← hall.length_eq]
        split at this
        · simp at this
        · exact if_neg ‹_›
      have hmore := hxs'.more (f comma) (f t) (by rw [hf.kind, hk]) hx'
      rw [hover] at hmore
      refine ⟨xs' ++ [x'], ?_, List.rel_append hall (.cons hx .nil)⟩
      simpa using hmore

/-! #### Expressions -/

section
variable {E O : Reading Expr}

theorem primary_carried (hf : Keeps f) (hE : Carried f R E (Expr.Like R)) :
    Carried f R (Primary E) (Expr.Like R) := by
  intro ts x fl h hfl hts
  cases h with
  | @literal v t hv => exact ⟨_, .literal (f t) ((hf.literal? t).trans hv), .literal v⟩
  | name t ht =>
    exact ⟨_, .name (f t) ((hf.kind t).trans ht), .variable (hts t List.mem_cons_self)⟩
  | group l r hl h hr =>
    simp only [List.forall_mem_append, List.forall_mem_cons] at hts
    obtain ⟨e', h, he⟩ := hE _ _ _ h hfl hts.2.1
    refine ⟨_, ?_, .grouping he⟩
    simpa using Primary.group (f l) (f r) ((hf.kind l).trans hl) h ((hf.kind r).trans hr)

theorem called_carried (hf : Keeps f) (hE : Carried f R E (Expr.Like R)) :
    Carried f R (Called E) (Expr.Like R) := by
  intro ts x fl h hfl hts
  induction h with
  | primary h =>
    obtain ⟨e', h, he⟩ := primary_carried hf hE _ _ _ h hfl hts
    exact ⟨e', .primary h, he⟩
  | call l r _ hl ha hr ih =>
    simp only [Array.append_eq_empty_iff] at hfl
    simp only [List.forall_mem_append, List.forall_mem_cons] at hts
    obtain ⟨hus, -, hvs, hrp, -⟩ := hts
    obtain ⟨e', h, he⟩ := ih hfl.1 hus
    obtain ⟨args', hargs, hall⟩ := items_carried hf hE _ _ _ ha hfl.2 hvs
    refine ⟨_, ?_, .call he hrp hall⟩
    simpa using h.call (f l) (f r) ((hf.kind l).trans hl) hargs ((hf.kind r).trans hr)

theorem unary_carried (hf : Keeps f) (hE : Carried f R E (Expr.Like R))
    (hO : Carried f R O (Expr.Like R)) : Carried f R (Unary E O) (Expr.Like R) := by
  intro ts x fl h hfl hts
  cases h with
  | operator op hop h =>
    obtain ⟨hopr, hts⟩ := List.forall_mem_cons.mp hts
    obtain ⟨e', h, he⟩ := hO _ _ _ h hfl hts
    exact ⟨_, .operator (f op) (by rw [hf.kind, hop]) h, .unary hopr he⟩
  | call h =>
    obtain ⟨e', h, he⟩ := called_carried hf hE _ _ _ h hfl hts
    exact ⟨e', .call h, he⟩

theorem chained_carried (hf : Keeps f) {ops : Kind → Bool} {node : Expr → Token → Expr → Expr}
    {P : Reading Expr} (hP : Carried f R P (Expr.Like R))
    (hnode : ∀ {l l' op op' r r'}, Expr.Like R l l' → R op op' → Expr.Like R r r' →
      Expr.Like R (node l op r) (node l' op' r')) :
    Carried f R (Chained ops node P) (Expr.Like R) := by
  intro ts x fl h hfl hts
  induction h with
  | one h =>
    obtain ⟨e', h, he⟩ := hP _ _ _ h hfl hts
    exact ⟨e', .one h, he⟩
  | more op _ hop h ih =>
    simp only [Array.append_eq_empty_iff] at hfl
    simp only [List.forall_mem_append, List.forall_mem_cons] at hts
    obtain ⟨l', hl', hl⟩ := ih hfl.1 hts.1
    obtain ⟨r', hr', hr⟩ := hP _ _ _ h hfl.2 hts.2.2
    refine ⟨_, ?_, hnode hl hts.2.1 hr⟩
    simpa using hl'.more (f op) (by rw [hf.kind, hop]) hr'

theorem disjunction_carried (hf : Keeps f) (hE : Carried f R E (Expr.Like R))
    (hO : Carried f R O (Expr.Like R)) : Carried f R (Disjunction E O) (Expr.Like R) :=
  have arithmetic : Carried f R (Term E O) (Expr.Like R) :=
    chained_carried hf (chained_carried hf (unary_carried hf hE hO) .binary) .binary
  have equality : Carried f R (Equality E O) (Expr.Like R) :=
    chained_carried hf (chained_carried hf arithmetic .binary) .binary
  chained_carried hf (chained_carried hf equality .logical) .logical

theorem assignment_carried (hf : Keeps f) (hE : Carried f R E (Expr.Like R))
    (hO : Carried f R O (Expr.Like R)) : Carried f R (Assignment E O) (Expr.Like R) := by
  intro ts x fl h hfl hts
  cases h with
  | plain h =>
    obtain ⟨e', h, he⟩ := disjunction_carried hf hE hO _ _ _ h hfl hts
    exact ⟨e', .plain h, he⟩
  | assign name eq h heq hv =>
    simp only [Array.append_eq_empty_iff] at hfl
    simp only [List.forall_mem_append, List.forall_mem_cons] at hts
    obtain ⟨l', hl', hl⟩ := disjunction_carried hf hE hO _ _ _ h hfl.1 hts.1
    obtain ⟨v', hv', hv⟩ := hE _ _ _ hv hfl.2 hts.2.2
    cases hl with
    | «variable» hx =>
      refine ⟨_, ?_, .assign hx hv⟩
      simpa using Assignment.assign _ (f eq) hl' ((hf.kind eq).trans heq) hv'
  | invalid => simp at hfl

end

theorem expression_operand_carried (hf : Keeps f) (n : Nat) :
    Carried f R (Expression n) (Expr.Like R) ∧ Carried f R (Operand n) (Expr.Like R) := by
  induction n with
  | zero => exact ⟨fun _ _ _ h => h.elim, fun _ _ _ h => h.elim⟩
  | succ n ih => exact ⟨assignment_carried hf ih.1 ih.2, unary_carried hf ih.1 ih.2⟩

/-! #### Statements -/

section
variable {E : Reading Expr} {D : Reading Stmt} {S : Tail → Reading Stmt}

theorem optional_carried (hE : Carried f R E (Expr.Like R)) :
    Carried f R (Optional E) (Option.Rel (Expr.Like R)) := by
  intro ts x fl h hfl hts
  cases h with
  | none => exact ⟨none, .none, .none⟩
  | some h =>
    obtain ⟨e', h, he⟩ := hE _ _ _ h hfl hts
    exact ⟨some e', .some h, .some he⟩

theorem name_carried (hf : Keeps f) : Carried f R Name R := by
  rintro _ t _ ⟨_, ht⟩ _ hts
  exact ⟨f t, .mk (f t) ((hf.kind t).trans ht), hts t List.mem_cons_self⟩

theorem declarations_carried (hD : Carried f R D (Stmt.Like R)) :
    Carried f R (Declarations D) (List.Forall₂ (Stmt.Like R)) := by
  intro ts ss fl h hfl hts
  induction h with
  | nil => exact ⟨[], .nil, .nil⟩
  | cons h _ ih =>
    simp only [Array.append_eq_empty_iff] at hfl
    simp only [List.forall_mem_append] at hts
    obtain ⟨s', hs', hs⟩ := hD _ _ _ h hfl.1 hts.1
    obtain ⟨ss', hss', hss⟩ := ih hfl.2 hts.2
    refine ⟨s' :: ss', ?_, .cons hs hss⟩
    simpa using Declarations.cons hs' hss'

theorem block_carried (hf : Keeps f) (hD : Carried f R D (Stmt.Like R)) :
    Carried f R (Block D) (List.Forall₂ (Stmt.Like R)) := by
  rintro _ ss fl ⟨b, h, hb⟩ hfl hts
  simp only [List.forall_mem_append] at hts
  obtain ⟨ss', hss', hss⟩ := declarations_carried hD _ _ _ h hfl hts.1
  refine ⟨ss', ?_, hss⟩
  simpa using Block.mk (f b) hss' ((hf.kind b).trans hb)

theorem variable_carried (hf : Keeps f) (hE : Carried f R E (Expr.Like R)) :
    Carried f R (Variable E) (Stmt.Like R) := by
  intro ts x fl h hfl hts
  cases h with
  | bare name semi hn hs =>
    exact ⟨_, .bare (f name) (f semi) ((hf.kind name).trans hn) ((hf.kind semi).trans hs),
      .var (hts name List.mem_cons_self) .none⟩
  | init name eq semi hn heq h hs =>
    simp only [List.forall_mem_cons, List.forall_mem_append] at hts
    obtain ⟨e', h, he⟩ := hE _ _ _ h hfl hts.2.2.1
    refine ⟨_, ?_, .var hts.1 (.some he)⟩
    simpa using Variable.init (f name) (f eq) (f semi) ((hf.kind name).trans hn)
      ((hf.kind eq).trans heq) h ((hf.kind semi).trans hs)

theorem effect_carried (hf : Keeps f) (hE : Carried f R E (Expr.Like R)) :
    Carried f R (Effect E) (Stmt.Like R) := by
  rintro _ _ fl ⟨semi, h, hs⟩ hfl hts
  simp only [List.forall_mem_append] at hts
  obtain ⟨e', h, he⟩ := hE _ _ _ h hfl hts.1
  refine ⟨_, ?_, .expression he⟩
  simpa using Effect.mk (f semi) h ((hf.kind semi).trans hs)

theorem init_carried (hf : Keeps f) (hE : Carried f R E (Expr.Like R)) :
    Carried f R (Init E) (Option.Rel (Stmt.Like R)) := by
  intro ts x fl h hfl hts
  cases h with
  | none semi hs => exact ⟨_, .none (f semi) ((hf.kind semi).trans hs), .none⟩
  | var k hk h =>
    obtain ⟨s', h, hs⟩ := variable_carried hf hE _ _ _ h hfl (List.forall_mem_cons.mp hts).2
    exact ⟨_, .var (f k) ((hf.kind k).trans hk) h, .some hs⟩
  | effect h =>
    obtain ⟨s', h, hs⟩ := effect_carried hf hE _ _ _ h hfl hts
    exact ⟨_, .effect h, .some hs⟩

theorem function_carried (hf : Keeps f) (hD : Carried f R D (Stmt.Like R)) :
    Carried f R (Function D) (Stmt.Like R) := by
  rintro _ _ _ ⟨name, l, r, b, hn, hl, hp, hr, hb, h⟩ hfl hts
  simp only [Array.append_eq_empty_iff] at hfl
  simp only [List.forall_mem_cons, List.forall_mem_append] at hts
  obtain ⟨hname, -, hps, -, -, hts⟩ := hts
  obtain ⟨ps', hps', hps⟩ := items_carried hf (name_carried hf) _ _ _ hp hfl.1 hps
  obtain ⟨body', hbody', hbody⟩ := block_carried hf hD _ _ _ h hfl.2 hts
  refine ⟨_, ?_, .function hname hps hbody⟩
  simpa using Function.mk (f name) (f l) (f r) (f b) ((hf.kind name).trans hn)
    ((hf.kind l).trans hl) hps' ((hf.kind r).trans hr) ((hf.kind b).trans hb) hbody'

theorem while_carried (hf : Keeps f) (hE : Carried f R E (Expr.Like R))
    (hS : ∀ t, Carried f R (S t) (Stmt.Like R)) (t : Tail) :
    Carried f R (While E S t) (Stmt.Like R) := by
  rintro _ _ _ ⟨l, r, hl, hc, hr, hs⟩ hfl hts
  simp only [Array.append_eq_empty_iff] at hfl
  simp only [List.forall_mem_cons, List.forall_mem_append] at hts
  obtain ⟨c', hc', hc⟩ := hE _ _ _ hc hfl.1 hts.2.1
  obtain ⟨s', hs', hs⟩ := hS _ _ _ _ hs hfl.2 hts.2.2.2
  refine ⟨_, ?_, .loop hc hs⟩
  simpa using While.mk (f l) (f r) ((hf.kind l).trans hl) hc' ((hf.kind r).trans hr) hs'

theorem for_carried (hf : Keeps f) (hE : Carried f R E (Expr.Like R))
    (hS : ∀ t, Carried f R (S t) (Stmt.Like R)) (t : Tail) :
    Carried f R (For E S t) (Stmt.Like R) := by
  rintro _ _ _ ⟨l, semi, r, hl, hi, hc, hsemi, hn, hr, hs⟩ hfl hts
  simp only [Array.append_eq_empty_iff] at hfl
  simp only [List.forall_mem_cons, List.forall_mem_append] at hts
  obtain ⟨-, hits, hcts, -, hnts, -, hsts⟩ := hts
  obtain ⟨i', hi', hi⟩ := init_carried hf hE _ _ _ hi hfl.1 hits
  obtain ⟨c', hc', hc⟩ := optional_carried hE _ _ _ hc hfl.2.1 hcts
  obtain ⟨n', hn', hn⟩ := optional_carried hE _ _ _ hn hfl.2.2.1 hnts
  obtain ⟨s', hs', hs⟩ := hS _ _ _ _ hs hfl.2.2.2 hsts
  refine ⟨_, ?_, .forLoop hi hc hn hs⟩
  simpa using For.mk (f l) (f semi) (f r) ((hf.kind l).trans hl) hi' hc'
    ((hf.kind semi).trans hsemi)
    hn' ((hf.kind r).trans hr) hs'

theorem if_carried (hf : Keeps f) (hE : Carried f R E (Expr.Like R))
    (hS : ∀ t, Carried f R (S t) (Stmt.Like R)) (t : Tail) :
    Carried f R (If E S t) (Stmt.Like R) := by
  intro ts x fl h hfl hts
  cases h with
  | lone l r hl hc hr hs =>
    simp only [Array.append_eq_empty_iff] at hfl
    simp only [List.forall_mem_cons, List.forall_mem_append] at hts
    obtain ⟨c', hc', hc⟩ := hE _ _ _ hc hfl.1 hts.2.1
    obtain ⟨s', hs', hs⟩ := hS _ _ _ _ hs hfl.2 hts.2.2.2
    refine ⟨_, ?_, .lone hc hs⟩
    simpa using If.lone (f l) (f r) ((hf.kind l).trans hl) hc' ((hf.kind r).trans hr) hs'
  | both l r els hl hc hr hs hels hs₂ =>
    simp only [Array.append_eq_empty_iff] at hfl
    simp only [List.forall_mem_cons, List.forall_mem_append] at hts
    obtain ⟨-, hcts, -, hsts, -, hsts₂⟩ := hts
    obtain ⟨c', hc', hc⟩ := hE _ _ _ hc hfl.1 hcts
    obtain ⟨s', hs', hs⟩ := hS _ _ _ _ hs hfl.2.1 hsts
    obtain ⟨s₂', hs₂', hs₂⟩ := hS _ _ _ _ hs₂ hfl.2.2 hsts₂
    refine ⟨_, ?_, .both hc hs hs₂⟩
    simpa using If.both (f l) (f r) (f els) ((hf.kind l).trans hl) hc' ((hf.kind r).trans hr) hs'
      ((hf.kind els).trans hels) hs₂'

theorem body_carried (hf : Keeps f) (hE : Carried f R E (Expr.Like R))
    (hD : Carried f R D (Stmt.Like R)) (hS : ∀ t, Carried f R (S t) (Stmt.Like R)) (t : Tail) :
    Carried f R (Body E D S t) (Stmt.Like R) := by
  intro ts x fl h hfl hts
  cases h with
  | effect h =>
    obtain ⟨s', h, hs⟩ := effect_carried hf hE _ _ _ h hfl hts
    exact ⟨s', .effect h, hs⟩
  | print k hk h =>
    obtain ⟨semi, h, hsemi⟩ := h
    simp only [List.forall_mem_append, List.forall_mem_cons] at hts
    obtain ⟨e', h, he⟩ := hE _ _ _ h hfl hts.2.1
    refine ⟨_, ?_, .print hts.1 he⟩
    simpa using Body.print (D := D) (S := S) (f k) ((hf.kind k).trans hk)
      (.mk (f semi) h ((hf.kind semi).trans hsemi))
  | ret k hk h =>
    obtain ⟨semi, h, hsemi⟩ := h
    simp only [List.forall_mem_append, List.forall_mem_cons] at hts
    obtain ⟨e', h, he⟩ := optional_carried hE _ _ _ h hfl hts.2.1
    refine ⟨_, ?_, .ret hts.1 he⟩
    simpa using Body.ret (D := D) (S := S) (f k) ((hf.kind k).trans hk)
      (.mk (f semi) h ((hf.kind semi).trans hsemi))
  | block k hk h =>
    obtain ⟨ss', h, hss⟩ := block_carried hf hD _ _ _ h hfl (List.forall_mem_cons.mp hts).2
    exact ⟨_, .block (f k) ((hf.kind k).trans hk) h, .block hss⟩
  | loop k hk h =>
    obtain ⟨s', h, hs⟩ := while_carried hf hE hS _ _ _ _ h hfl (List.forall_mem_cons.mp hts).2
    exact ⟨s', .loop (f k) ((hf.kind k).trans hk) h, hs⟩
  | forLoop k hk h =>
    obtain ⟨s', h, hs⟩ := for_carried hf hE hS _ _ _ _ h hfl (List.forall_mem_cons.mp hts).2
    exact ⟨s', .forLoop (f k) ((hf.kind k).trans hk) h, hs⟩
  | branch k hk h =>
    obtain ⟨s', h, hs⟩ := if_carried hf hE hS _ _ _ _ h hfl (List.forall_mem_cons.mp hts).2
    exact ⟨s', .branch (f k) ((hf.kind k).trans hk) h, hs⟩

theorem declared_carried (hf : Keeps f) (hE : Carried f R E (Expr.Like R))
    (hD : Carried f R D (Stmt.Like R)) (hS : ∀ t, Carried f R (S t) (Stmt.Like R)) :
    Carried f R (Declared E D S) (Stmt.Like R) := by
  intro ts x fl h hfl hts
  cases h with
  | function k hk h =>
    obtain ⟨s', h, hs⟩ := function_carried hf hD _ _ _ h hfl (List.forall_mem_cons.mp hts).2
    exact ⟨s', .function (f k) ((hf.kind k).trans hk) h, hs⟩
  | var k hk h =>
    obtain ⟨s', h, hs⟩ := variable_carried hf hE _ _ _ h hfl (List.forall_mem_cons.mp hts).2
    exact ⟨s', .var (f k) ((hf.kind k).trans hk) h, hs⟩
  | statement h =>
    obtain ⟨s', h, hs⟩ := hS _ _ _ _ h hfl hts
    exact ⟨s', .statement h, hs⟩

end

theorem declaration_statement_carried (hf : Keeps f) (n : Nat) :
    Carried f R (Declaration n) (Stmt.Like R) ∧
      ∀ t, Carried f R (Statement n t) (Stmt.Like R) := by
  induction n with
  | zero => exact ⟨fun _ _ _ h => h.elim, fun _ _ _ _ h => h.elim⟩
  | succ n ih =>
    have hE : Carried f R (Expression n) (Expr.Like R) := (expression_operand_carried hf n).1
    exact ⟨declared_carried hf hE ih.1 ih.2, body_carried hf hE ih.1 ih.2⟩

end

/-- Declarations may be put behind others. -/
theorem Declarations.append {D : Reading Stmt} {ts us : List Token} {ss ss' : List Stmt}
    {fl fl' : Array Problem} (h : Declarations D ts ss fl) (h' : Declarations D us ss' fl') :
    Declarations D (ts ++ us) (ss ++ ss') (fl ++ fl') := by
  induction h with
  | nil => simpa using h'
  | cons hd _ ih =>
    rw [List.append_assoc, Array.append_assoc]
    exact .cons hd ih

end Reading

/-! ### Programs -/

/-- Programs that parse one by one parse together. -/
theorem Parser.parse_append {ts us : List Token} {ss ss' : List Stmt}
    (hts : ∀ t ∈ ts, t.isEof = false) (h : (Parser.ofTokens ts).parse.1 = .ok ss)
    (h' : (Parser.ofTokens us).parse.1 = .ok ss') :
    (Parser.ofTokens (ts ++ us)).parse.1 = .ok (ss ++ ss') := by
  rw [Parser.parse_eq_ok] at h h' ⊢
  rw [List.takeWhile_append_of_pos (by simpa using hts)]
  rw [List.takeWhile_eq_self_iff.mpr (by simpa using hts)] at h
  simpa using h.append h'

/-- A program parses in the same way when tokens of the same kinds and values stand in it. -/
theorem Parser.parse_map {f : Token → Token} (hf : Reading.Keeps f) {R : Token → Token → Prop}
    {ts : List Token} {ss : List Stmt} (hts : ∀ t ∈ ts, R t (f t))
    (h : (Parser.ofTokens ts).parse.1 = .ok ss) :
    ∃ ss', (Parser.ofTokens (ts.map f)).parse.1 = .ok ss' ∧ List.Forall₂ (Stmt.Like R) ss ss' := by
  have heof : (fun t => !Token.isEof t) ∘ f = fun t => !t.isEof := by
    funext t
    simp [Token.isEof, hf.kind]
  simp only [Parser.parse_eq_ok, List.takeWhile_map, heof] at h ⊢
  exact Reading.declarations_carried (Reading.declaration_statement_carried hf maxNesting).1 _ _ _ h
    rfl fun t ht => hts t ((List.takeWhile_sublist _).subset ht)

/-! ### Tokens of trees -/

mutual

/-- The tokens that an expression keeps. -/
def Expr.kept : Expr → List Token
  | .literal _ => []
  | .variable x => [x]
  | .assign x e | .unary x e => x :: e.kept
  | .binary l op r | .logical l op r => l.kept ++ op :: r.kept
  | .grouping e => e.kept
  | .call f paren args => f.kept ++ paren :: Expr.allKept args

/-- The tokens that some expressions keep. -/
def Expr.allKept : List Expr → List Token
  | [] => []
  | e :: es => e.kept ++ Expr.allKept es

end

mutual

/-- The tokens that a statement keeps. -/
def Stmt.kept : Stmt → List Token
  | .expression e => e.kept
  | .print k e => k :: e.kept
  | .var x e | .ret x e => x :: (e.map Expr.kept).getD []
  | .function x ps body => x :: (ps ++ Stmt.allKept body)
  | .block body => Stmt.allKept body
  | .branch c yes none => c.kept ++ yes.kept
  | .branch c yes (some no) => c.kept ++ (yes.kept ++ no.kept)
  | .loop c body => c.kept ++ body.kept

/-- The tokens that some statements keep. -/
def Stmt.allKept : List Stmt → List Token
  | [] => []
  | s :: ss => s.kept ++ Stmt.allKept ss

end

section
variable {R : Token → Token → Prop}

mutual

/-- A tree is like itself when its tokens are related to themselves. -/
theorem Expr.Like.refl : ∀ e : Expr, (∀ t ∈ e.kept, R t t) → Expr.Like R e e
  | .literal v, _ => .literal v
  | .variable x, h => .variable (h x List.mem_cons_self)
  | .assign x e, h => by
    obtain ⟨hx, he⟩ := List.forall_mem_cons.mp h
    exact .assign hx (.refl e he)
  | .unary op e, h => by
    obtain ⟨hop, he⟩ := List.forall_mem_cons.mp h
    exact .unary hop (.refl e he)
  | .binary l op r, h => by
    simp only [kept, List.forall_mem_append, List.forall_mem_cons] at h
    exact .binary (.refl l h.1) h.2.1 (.refl r h.2.2)
  | .logical l op r, h => by
    simp only [kept, List.forall_mem_append, List.forall_mem_cons] at h
    exact .logical (.refl l h.1) h.2.1 (.refl r h.2.2)
  | .grouping e, h => .grouping (.refl e h)
  | .call f paren args, h => by
    simp only [kept, List.forall_mem_append, List.forall_mem_cons] at h
    exact .call (.refl f h.1) h.2.1 (Expr.Like.allRefl args h.2.2)

theorem Expr.Like.allRefl : ∀ es : List Expr, (∀ t ∈ Expr.allKept es, R t t) →
    List.Forall₂ (Expr.Like R) es es
  | [], _ => .nil
  | e :: es, h => by
    simp only [allKept, List.forall_mem_append] at h
    exact .cons (.refl e h.1) (Expr.Like.allRefl es h.2)

end

theorem Expr.Like.optionRefl (e : Option Expr) (h : ∀ t ∈ (e.map Expr.kept).getD [], R t t) :
    Option.Rel (Expr.Like R) e e := by
  cases e with
  | none => exact .none
  | some e => exact .some (.refl e h)

mutual

theorem Stmt.Like.refl : ∀ s : Stmt, (∀ t ∈ s.kept, R t t) → Stmt.Like R s s
  | .expression e, h => .expression (.refl e h)
  | .print k e, h => by
    obtain ⟨hk, he⟩ := List.forall_mem_cons.mp h
    exact .print hk (.refl e he)
  | .var x e, h => by
    obtain ⟨hx, he⟩ := List.forall_mem_cons.mp h
    exact .var hx (Expr.Like.optionRefl e he)
  | .ret k e, h => by
    obtain ⟨hk, he⟩ := List.forall_mem_cons.mp h
    exact .ret hk (Expr.Like.optionRefl e he)
  | .function x ps body, h => by
    simp only [kept, List.forall_mem_append, List.forall_mem_cons] at h
    exact .function h.1 (List.forall₂_same.mpr h.2.1) (Stmt.Like.allRefl body h.2.2)
  | .block body, h => .block (Stmt.Like.allRefl body h)
  | .branch c yes none, h => by
    simp only [kept, List.forall_mem_append] at h
    exact .lone (.refl c h.1) (.refl yes h.2)
  | .branch c yes (some no), h => by
    simp only [kept, List.forall_mem_append] at h
    exact .both (.refl c h.1) (.refl yes h.2.1) (.refl no h.2.2)
  | .loop c body, h => by
    simp only [kept, List.forall_mem_append] at h
    exact .loop (.refl c h.1) (.refl body h.2)

theorem Stmt.Like.allRefl : ∀ ss : List Stmt, (∀ t ∈ Stmt.allKept ss, R t t) →
    List.Forall₂ (Stmt.Like R) ss ss
  | [], _ => .nil
  | s :: ss, h => by
    simp only [allKept, List.forall_mem_append] at h
    exact .cons (.refl s h.1) (Stmt.Like.allRefl ss h.2)

end

end

end Lox
