import Lox.Proofs.Grammar.Complete
import Lox.Proofs.Grammar.SoundStatement

/-!
Completeness of parsing for declarations, statements and programs. Only an `else` can go on with a
statement, and only with one that ends in an `if` without one.
-/

namespace Lox

/-- With enough rounds, `p` takes every statement of `S` and nothing else, unless it could take an
`else` and one comes next. -/
def CompleteTail (size : Nat) (p : Parse Stmt) (S : Tail → Reading Stmt) : Prop :=
  ∀ t ts x fl, S t ts x fl → ∀ rest r, (ts ++ rest).length ≤ size →
    (t = .dangling → Stops (· == .kwElse) rest) → p ⟨ts ++ rest, r⟩ = .ok x ⟨rest, r ++ fl⟩

namespace Parse
open Reading Step

variable {size : Nat} {e : Parse Expr} {d st : Parse Stmt}
variable {E : Reading Expr} {D : Reading Stmt} {S : Tail → Reading Stmt}

/-! ### Lists of declarations -/

/-- What follows a declaration is another one, or the token behind them all. -/
theorem stops_else_of_declarations (hD : Starts startsDeclaration D) {us ss fl}
    (h : Declarations D us ss fl) {rest : List Token} (hrest : Stops (· == .kwElse) rest) :
    Stops (· == .kwElse) (us ++ rest) := by
  cases h with
  | nil => exact hrest
  | cons h _ =>
    obtain ⟨t, ts, rfl, ht⟩ := hD _ _ _ h
    have hne : (t.kind == .kwElse) = false := beq_false_of_starts ht rfl
    exact .cons hne _

theorem declarations_complete (hd : Complete size (· == .kwElse) d D)
    (hD : Starts startsDeclaration D) {ts ss fl} (h : Declarations D ts ss fl) {b : Token}
    (hb : b.kind = .rightBrace) (rest : List Token) : ∀ n acc r, (ts ++ b :: rest).length ≤ n →
      (ts ++ b :: rest).length ≤ size →
      declarations d n acc ⟨ts ++ b :: rest, r⟩ = .ok (acc.toList ++ ss) ⟨b :: rest, r ++ fl⟩ := by
  have hstop : Stops (· == .kwElse) (b :: rest) := .cons (by simp [hb]) _
  induction h with
  | nil =>
    intro n acc r _ _
    cases n with
    | zero => simp [declarations, pure, EStateM.pure]
    | succ n =>
      rw [declarations, List.nil_append, bind_of_ok (nextIs_cons _)]
      simp [hb, atEnd, bind, EStateM.bind, pure, EStateM.pure]
  | @cons ts s fl us ss fl' hs hss ih =>
    intro n acc r hn hsize
    rw [List.append_assoc] at hn hsize ⊢
    have hitem := hd _ _ _ hs _ r hsize (stops_else_of_declarations hD hss hstop)
    obtain ⟨t, ts, rfl, ht⟩ := hD _ _ _ hs
    simp only [List.cons_append, List.length_cons, List.length_append] at hn hsize
    obtain ⟨n, rfl⟩ : ∃ n', n = n' + 1 := Nat.exists_eq_add_one.mpr (by omega)
    have hnext : (t.kind == .rightBrace) = false := beq_false_of_starts ht rfl
    have hmore := ih n (acc.push s) (r ++ fl)
      (by simp only [List.length_append, List.length_cons]; omega)
      (by simp only [List.length_append, List.length_cons]; omega)
    rw [declarations, List.cons_append, bind_of_ok (nextIs_cons _), hnext, ← List.cons_append]
    have hend : atEnd ⟨t :: ts ++ (us ++ b :: rest), r⟩ =
        .ok false ⟨t :: ts ++ (us ++ b :: rest), r⟩ := rfl
    rw [bind_of_ok hend, if_neg (by simp), bind_of_ok hitem, hmore]
    simp [Array.append_assoc]

theorem blockBody_complete (hd : Complete size (· == .kwElse) d D)
    (hD : Starts startsDeclaration D) :
    Complete size (fun _ => false) (blockBody size d) (Block D) := by
  intro ts x fl h rest r hlen _
  obtain ⟨b, h, hb⟩ := h
  rw [List.append_assoc, List.singleton_append] at hlen ⊢
  have hbody := declarations_complete hd hD h hb rest size #[] r hlen hlen
  rw [blockBody, bind_of_ok hbody, bind_of_ok (expect_cons hb)]
  rfl

/-! ### After the keyword -/

theorem parameter_complete : Complete size (fun _ => false) (expect .parameterName) Name := by
  rintro _ t _ ⟨_, ht⟩ rest r _ _
  exact expect_cons ht

theorem functionRest_complete (hd : Complete size (· == .kwElse) d D)
    (hD : Starts startsDeclaration D) :
    Complete size (fun _ => false) (functionRest size d) (Function D) := by
  intro ts x fl h rest r hlen _
  cases h with
  | @mk ps params fl bs body fl' name l u b hn hl hp hu hb h =>
    have hsplit : name :: l :: (ps ++ u :: b :: bs) ++ rest =
        name :: l :: (ps ++ u :: (b :: (bs ++ rest))) := by simp
    rw [hsplit] at hlen ⊢
    simp only [List.length_cons, List.length_append] at hlen
    have hname : Complete size _ (expect .parameterName) Name := parameter_complete
    have hparams := items_complete hname rfl rfl name_starts rfl hp hu (b :: (bs ++ rest)) r
      (by simp only [List.length_cons, List.length_append]; omega)
    have hbody : blockBody size d ⟨bs ++ rest, r ++ fl⟩ = .ok body ⟨rest, r ++ fl ++ fl'⟩ :=
      blockBody_complete hd hD _ _ _ h rest (r ++ fl) (by simp only [List.length_append]; omega)
        (fun _ _ => rfl)
    rw [functionRest, bind_of_ok (expect_cons hn), bind_of_ok (expect_cons hl),
      bind_of_ok hparams, bind_of_ok (expect_cons hu), bind_of_ok (expect_cons hb),
      bind_of_ok hbody, Array.append_assoc]
    rfl

theorem variableRest_complete (he : Complete size continues e E) :
    Complete size (fun _ => false) (variableRest e) (Variable E) := by
  intro ts x fl h rest r hlen _
  cases h with
  | bare name semi hn hs =>
    have hnone : Stops (· == .equal) (semi :: rest) := .cons (by simp [hs]) _
    rw [variableRest, List.cons_append, bind_of_ok (expect_cons hn), List.cons_append,
      List.nil_append, bind_of_ok (skipIf_stops hnone)]
    simp only [Bool.false_eq_true, if_false, pure_bind]
    rw [bind_of_ok (expect_cons hs)]
    rfl
  | @init ts v fl name eq semi hn heq h hs =>
    have hsplit : name :: eq :: (ts ++ [semi]) ++ rest = name :: eq :: (ts ++ semi :: rest) := by
      simp
    rw [hsplit] at hlen ⊢
    have hvalue := he _ _ _ h (semi :: rest) r
      (by simp only [List.length_cons, List.length_append] at hlen ⊢; omega)
      (.cons (by rw [hs]; rfl) _)
    rw [variableRest, bind_of_ok (expect_cons hn), bind_of_ok (skipIf_cons heq)]
    simp only [if_true, bind_map_left]
    rw [bind_of_ok hvalue, bind_of_ok (expect_cons hs)]
    rfl

theorem expressionStatement_complete (he : Complete size continues e E) :
    Complete size (fun _ => false) (expressionStatement e) (Effect E) := by
  intro ts x fl h rest r hlen _
  obtain ⟨semi, h, hs⟩ := h
  rw [List.append_assoc, List.singleton_append] at hlen ⊢
  have hvalue := he _ _ _ h (semi :: rest) r hlen (.cons (by rw [hs]; rfl) _)
  rw [expressionStatement, bind_of_ok hvalue, bind_of_ok (expect_cons hs)]
  rfl

theorem forInit_complete (he : Complete size continues e E) (hE : Starts startsExpression E) :
    Complete size (fun _ => false) (forInit e) (Init E) := by
  intro ts x fl h rest r hlen hstop
  cases h with
  | none semi hs =>
    rw [forInit, List.cons_append, bind_of_ok (skipIf_cons hs)]
    rfl
  | @var ts s fl k hk h =>
    have hvar := variableRest_complete he _ _ _ h rest r (by simp at hlen ⊢; omega) hstop
    rw [forInit, List.cons_append, bind_of_ok (skipIf_stops (.cons (by simp [hk]) _))]
    simp only [Bool.false_eq_true, if_false]
    rw [bind_of_ok (skipIf_cons hk), if_pos rfl, bind_of_ok hvar]
    rfl
  | effect h =>
    have heffect := expressionStatement_complete he _ _ _ h rest r hlen hstop
    obtain ⟨t, us, rfl, ht⟩ := effect_starts hE _ _ _ h
    have hsemi : (t.kind == .semicolon) = false := beq_false_of_starts ht rfl
    have hvar : (t.kind == .kwVar) = false := beq_false_of_starts ht rfl
    rw [forInit, List.cons_append, bind_of_ok (skipIf_stops (.cons hsemi _))]
    simp only [Bool.false_eq_true, if_false]
    rw [bind_of_ok (skipIf_stops (.cons hvar _)), if_neg (by simp), ← List.cons_append,
      bind_of_ok heffect]
    rfl

theorem printRest_complete {k : Token} (he : Complete size continues e E) :
    Complete size (fun _ => false) (printRest k e) (Print k E) := by
  intro ts x fl h rest r hlen _
  obtain ⟨semi, h, hs⟩ := h
  rw [List.append_assoc, List.singleton_append] at hlen ⊢
  have hvalue := he _ _ _ h (semi :: rest) r hlen (.cons (by rw [hs]; rfl) _)
  rw [printRest, bind_of_ok hvalue, bind_of_ok (expect_cons hs)]
  rfl

theorem returnRest_complete {k : Token} (he : Complete size continues e E)
    (hE : Starts startsExpression E) :
    Complete size (fun _ => false) (returnRest k e) (Return k E) := by
  intro ts x fl h rest r hlen _
  obtain ⟨semi, h, hs⟩ := h
  rw [List.append_assoc, List.singleton_append] at hlen ⊢
  have hvalue := optionalUntil_complete he rfl hE rfl h hs rest r hlen
  rw [returnRest, bind_of_ok hvalue, bind_of_ok (expect_cons hs)]
  rfl

theorem whileRest_complete (he : Complete size continues e E) (hst : CompleteTail size st S) :
    CompleteTail size (whileRest e st) (While E S) := by
  intro t ts x fl h rest r hlen hstop
  cases h with
  | @mk ts c fl us s fl' l u hl hc hu hs =>
    have hsplit : l :: (ts ++ u :: us) ++ rest = l :: (ts ++ u :: (us ++ rest)) := by simp
    rw [hsplit] at hlen ⊢
    simp only [List.length_cons, List.length_append] at hlen
    have hcond := he _ _ _ hc (u :: (us ++ rest)) r
      (by simp only [List.length_cons, List.length_append]; omega) (.cons (by rw [hu]; rfl) _)
    have hbody := hst _ _ _ _ hs rest (r ++ fl) (by simp only [List.length_append]; omega) hstop
    rw [whileRest, bind_of_ok (expect_cons hl), bind_of_ok hcond, bind_of_ok (expect_cons hu),
      bind_of_ok hbody, Array.append_assoc]
    rfl

theorem forRest_complete (he : Complete size continues e E) (hE : Starts startsExpression E)
    (hst : CompleteTail size st S) : CompleteTail size (forRest e st) (For E S) := by
  intro t ts x fl h rest r hlen hstop
  cases h with
  | @mk is i fl cs c fl₁ ns n fl₂ us s fl₃ l semi u hl hi hc hsemi hn hu hs =>
    have hsplit : l :: (is ++ (cs ++ semi :: (ns ++ u :: us))) ++ rest =
        l :: (is ++ (cs ++ semi :: (ns ++ u :: (us ++ rest)))) := by simp
    rw [hsplit] at hlen ⊢
    simp only [List.length_cons, List.length_append] at hlen
    have hinit := forInit_complete he hE _ _ _ hi (cs ++ semi :: (ns ++ u :: (us ++ rest))) r
      (by simp only [List.length_cons, List.length_append]; omega) (fun _ _ => rfl)
    have hcond := optionalUntil_complete he rfl hE rfl hc hsemi (ns ++ u :: (us ++ rest)) (r ++ fl)
      (by simp only [List.length_cons, List.length_append]; omega)
    have hincr := optionalUntil_complete he rfl hE rfl hn hu (us ++ rest) (r ++ fl ++ fl₁)
      (by simp only [List.length_cons, List.length_append]; omega)
    have hbody := hst _ _ _ _ hs rest (r ++ fl ++ fl₁ ++ fl₂)
      (by simp only [List.length_append]; omega) hstop
    rw [forRest, bind_of_ok (expect_cons hl), bind_of_ok hinit, bind_of_ok hcond,
      bind_of_ok (expect_cons hsemi), bind_of_ok hincr, bind_of_ok (expect_cons hu),
      bind_of_ok hbody]
    simp only [Array.append_assoc]
    rfl

theorem ifRest_complete (he : Complete size continues e E) (hst : CompleteTail size st S) :
    CompleteTail size (ifRest e st) (If E S) := by
  intro t ts x fl h rest r hlen hstop
  cases h with
  | @lone _ ts c fl us s fl' l u hl hc hu hs =>
    have hsplit : l :: (ts ++ u :: us) ++ rest = l :: (ts ++ u :: (us ++ rest)) := by simp
    rw [hsplit] at hlen ⊢
    simp only [List.length_cons, List.length_append] at hlen
    have hnone := hstop rfl
    have hcond := he _ _ _ hc (u :: (us ++ rest)) r
      (by simp only [List.length_cons, List.length_append]; omega) (.cons (by rw [hu]; rfl) _)
    have hyes := hst _ _ _ _ hs rest (r ++ fl) (by simp only [List.length_append]; omega)
      (fun _ => hnone)
    rw [ifRest, bind_of_ok (expect_cons hl), bind_of_ok hcond, bind_of_ok (expect_cons hu),
      bind_of_ok hyes, bind_of_ok (skipIf_stops hnone), Array.append_assoc]
    rfl
  | @both _ ts c fl us s fl₁ vs s' fl₂ l u els hl hc hu hs hels hs' =>
    have hsplit : l :: (ts ++ u :: (us ++ els :: vs)) ++ rest =
        l :: (ts ++ u :: (us ++ els :: (vs ++ rest))) := by simp
    rw [hsplit] at hlen ⊢
    simp only [List.length_cons, List.length_append] at hlen
    have hcond := he _ _ _ hc (u :: (us ++ els :: (vs ++ rest))) r
      (by simp only [List.length_cons, List.length_append]; omega) (.cons (by rw [hu]; rfl) _)
    have hyes := hst _ _ _ _ hs (els :: (vs ++ rest)) (r ++ fl)
      (by simp only [List.length_cons, List.length_append]; omega) (by simp)
    have hno := hst _ _ _ _ hs' rest (r ++ fl ++ fl₁) (by simp only [List.length_append]; omega)
      hstop
    rw [ifRest, bind_of_ok (expect_cons hl), bind_of_ok hcond, bind_of_ok (expect_cons hu),
      bind_of_ok hyes, bind_of_ok (skipIf_cons hels)]
    simp only [if_true, bind_map_left]
    rw [bind_of_ok hno]
    simp only [Array.append_assoc]
    rfl

/-! ### Which statement -/

theorem statementLevel_complete (he : Complete size continues e E) (hE : Starts startsExpression E)
    (hd : Complete size (· == .kwElse) d D) (hD : Starts startsDeclaration D)
    (hst : CompleteTail size st S) :
    CompleteTail size (statementLevel size e d st) (Body E D S) := by
  intro t ts x fl h rest r hlen hstop
  cases h with
  | effect h =>
    have heffect := expressionStatement_complete he _ _ _ h rest r hlen (fun _ _ => rfl)
    obtain ⟨u, us, rfl, hu⟩ := effect_starts hE _ _ _ h
    have hnot := not_opensStatement hu
    rw [statementLevel, List.cons_append, bind_of_ok (takeIf_stops (.cons hnot _))]
    exact heffect
  | print k hk h =>
    have hlen' := Nat.le_of_succ_le hlen
    rw [statementLevel, List.cons_append, bind_of_ok (takeIf_cons (by rw [hk]; rfl))]
    simp only [hk]
    exact printRest_complete he _ _ _ h rest r hlen' (fun _ _ => rfl)
  | ret k hk h =>
    have hlen' := Nat.le_of_succ_le hlen
    rw [statementLevel, List.cons_append, bind_of_ok (takeIf_cons (by rw [hk]; rfl))]
    simp only [hk]
    exact returnRest_complete he hE _ _ _ h rest r hlen' (fun _ _ => rfl)
  | block k hk h =>
    have hlen' := Nat.le_of_succ_le hlen
    have hbody := blockBody_complete hd hD _ _ _ h rest r hlen' (fun _ _ => rfl)
    rw [statementLevel, List.cons_append, bind_of_ok (takeIf_cons (by rw [hk]; rfl))]
    simp only [hk]
    rw [bind_of_ok hbody]
    rfl
  | loop k hk h =>
    have hlen' := Nat.le_of_succ_le hlen
    rw [statementLevel, List.cons_append, bind_of_ok (takeIf_cons (by rw [hk]; rfl))]
    simp only [hk]
    exact whileRest_complete he hst _ _ _ _ h rest r hlen' hstop
  | forLoop k hk h =>
    have hlen' := Nat.le_of_succ_le hlen
    rw [statementLevel, List.cons_append, bind_of_ok (takeIf_cons (by rw [hk]; rfl))]
    simp only [hk]
    exact forRest_complete he hE hst _ _ _ _ h rest r hlen' hstop
  | branch k hk h =>
    have hlen' := Nat.le_of_succ_le hlen
    rw [statementLevel, List.cons_append, bind_of_ok (takeIf_cons (by rw [hk]; rfl))]
    simp only [hk]
    exact ifRest_complete he hst _ _ _ _ h rest r hlen' hstop

theorem declarationLevel_complete (he : Complete size continues e E)
    (hd : Complete size (· == .kwElse) d D) (hD : Starts startsDeclaration D)
    (hst : CompleteTail size st S) (hS : ∀ t, Starts startsStatement (S t)) :
    Complete size (· == .kwElse) (declarationLevel size e d st) (Declared E D S) := by
  intro ts x fl h rest r hlen hstop
  cases h with
  | function k hk h =>
    have hlen' := Nat.le_of_succ_le hlen
    rw [declarationLevel, List.cons_append, bind_of_ok (takeIf_cons (by rw [hk]; rfl))]
    simp only [hk]
    exact functionRest_complete hd hD _ _ _ h rest r hlen' (fun _ _ => rfl)
  | var k hk h =>
    have hlen' := Nat.le_of_succ_le hlen
    rw [declarationLevel, List.cons_append, bind_of_ok (takeIf_cons (by rw [hk]; rfl))]
    simp only [hk]
    exact variableRest_complete he _ _ _ h rest r hlen' (fun _ _ => rfl)
  | statement h =>
    have hs := hst _ _ _ _ h rest r hlen (fun _ => hstop)
    obtain ⟨u, us, rfl, hu⟩ := hS _ _ _ _ h
    have hnot := not_opensDeclaration hu
    rw [declarationLevel, List.cons_append, bind_of_ok (takeIf_stops (.cons hnot _))]
    exact hs

/-- Declarations and statements are complete, if there is room for their nesting. -/
theorem declaration_statement_complete (size n : Nat) :
    Complete size (· == .kwElse) (declaration size n) (Declaration n) ∧
      CompleteTail size (statement size n) (Statement n) := by
  induction n with
  | zero => exact ⟨fun _ _ _ h => h.elim, fun _ _ _ _ h => h.elim⟩
  | succ n ih =>
    have he := (expression_operand_complete size n).1
    exact ⟨declarationLevel_complete he ih.1 (declaration_starts n) ih.2 (statement_starts · n),
      statementLevel_complete he (expression_starts n) ih.1 (declaration_starts n) ih.2⟩

/-! ### Programs -/

theorem programFrom_complete (hd : Complete size (· == .kwElse) d D)
    (hD : Starts startsDeclaration D) {ts ss fl} (h : Declarations D ts ss fl) :
    ∀ n acc r, ts.length ≤ n → ts.length ≤ size →
      programFrom d n acc ⟨ts, r⟩ = .ok (acc.toList ++ ss) ⟨[], r ++ fl⟩ := by
  induction h with
  | nil =>
    intro n acc r _ _
    cases n <;> simp [programFrom, atEnd, bind, EStateM.bind, pure, EStateM.pure]
  | @cons ts s fl us ss fl' hs hss ih =>
    intro n acc r hn hsize
    have hstop : Stops (· == .kwElse) us := by
      simpa using stops_else_of_declarations hD hss (Stops.nil (· == .kwElse))
    have hitem := hd _ _ _ hs us r hsize hstop
    obtain ⟨t, ts, rfl, ht⟩ := hD _ _ _ hs
    simp only [List.length_cons, List.length_append] at hn hsize
    obtain ⟨n, rfl⟩ : ∃ n', n = n' + 1 := Nat.exists_eq_add_one.mpr (by omega)
    have hend : atEnd ⟨t :: ts ++ us, r⟩ = .ok false ⟨t :: ts ++ us, r⟩ := rfl
    rw [programFrom, bind_of_ok hend, if_neg (by simp), bind_of_ok hitem,
      ih n (acc.push s) (r ++ fl) (by omega) (by omega)]
    simp [Array.append_assoc]

/-- With rounds enough, a program parses to its end exactly if its declarations have a reading. -/
theorem program_eq_ok_of_le {n : Nat} {ts : List Token} (hn : ts.length ≤ n) {ss : List Stmt}
    {s : Progress} : program n ⟨ts, #[]⟩ = .ok ss s ↔
      ∃ fl, Declarations (Declaration maxNesting) ts ss fl ∧ s = ⟨[], fl⟩ := by
  have hD := declaration_starts maxNesting
  constructor
  · intro h
    have hd := (declaration_statement_sound n maxNesting).1
    obtain ⟨hend, us, fl, ht, hus⟩ := programFrom_sound hd hD n hn (.refl _) .nil h
    obtain ⟨rest, reports⟩ := s
    obtain rfl : rest = [] := hend
    obtain rfl : ts = us := by simpa using ht.rest
    obtain rfl : reports = fl := by simpa using ht.reports
    exact ⟨_, hus, rfl⟩
  · rintro ⟨fl, h, rfl⟩
    have hd := (declaration_statement_complete n maxNesting).1
    simpa [program] using programFrom_complete hd hD h n #[] #[] hn hn

theorem program_eq_ok {ts : List Token} {ss : List Stmt} {s : Progress} :
    program ts.length ⟨ts, #[]⟩ = .ok ss s ↔
      ∃ fl, Declarations (Declaration maxNesting) ts ss fl ∧ s = ⟨[], fl⟩ :=
  program_eq_ok_of_le (Nat.le_refl _)

end Parse
end Lox
