import Lox.Proofs.Grammar.WellFormed

/-!
What parsing reports. A fatal error comes last, if there is one. Otherwise the tokens are a program,
and the errors are the places of its phrases where something is wrong, each of them once. Without
any the tree keeps to the limits of parameters and arguments.
-/

namespace Lox
open Parse Reading

/-- What is said of the flaws that parsing goes on from. -/
def mildMessages : List String :=
  ["Invalid assignment target.", "Can't have more than 255 parameters.",
    "Can't have more than 255 arguments."]

/-- What is said of a flaw tells whether parsing goes on from it. -/
theorem Flaw.mem_mildMessages (flaw : Flaw) :
    flaw.message ∈ mildMessages ↔ flaw.fatal = false := by
  cases flaw with
  | missing slot => cases slot <;> decide
  | noExpression | tooMuchNesting | invalidTarget | tooManyParameters | tooManyArguments => decide

/-- No function has more than 255 parameters and no call more than 255 arguments. -/
structure Stmt.WithinLimits (ss : List Stmt) : Prop where
  parameters : ∀ x ps body, .function x ps body ∈ Stmt.allParts ss → ps.length ≤ 255
  arguments : ∀ s ∈ Stmt.allParts ss, ∀ f paren args,
    .call f paren args ∈ Expr.allParts s.exprs → args.length ≤ 255

/-- Well-formed statements keep to the limits. -/
theorem Stmt.withinLimits_of_wellFormed {ss : List Stmt} (h : Stmt.allWellFormed ss = true) :
    Stmt.WithinLimits ss where
  parameters x ps body hmem := by
    have hwell := Stmt.allParts_wellFormed h hmem
    simp only [Stmt.wellFormed, Bool.and_eq_true, decide_eq_true_eq] at hwell
    exact hwell.1.2
  arguments s hs f paren args hmem := by
    have hstmt := Stmt.allParts_wellFormed h hs
    have hall := allWellFormed_iff.mpr fun e => Stmt.exprs_wellFormed hstmt
    have hwell := Expr.allParts_wellFormed hall hmem
    simp only [Expr.wellFormed, Bool.and_eq_true, decide_eq_true_eq] at hwell
    exact hwell.1.2

namespace Parser
variable {p : Parser}

/-- A fatal error comes behind all others. -/
theorem error_shape {es : List GrammarError} (h : p.parse.1 = .error es) :
    ∃ mild, ∃ fatal : Option GrammarError, es = mild ++ fatal.toList ∧
      (∀ e ∈ mild, e.flaw.fatal = false) ∧ ∀ e ∈ fatal, e.flaw.fatal = true := by
  obtain ⟨s, hs, ⟨_, -, -, rfl⟩ | ⟨q, -, hq, rfl⟩⟩ := of_parse_error h
  · exact ⟨_, none, (List.append_nil _).symm, fun e he => hs.error he, by simp⟩
  · refine ⟨_, some (q.toError p.stop), rfl, fun e he => hs.error he, fun e he => ?_⟩
    obtain rfl := Option.mem_some.mp he
    exact hq

/-- Without a fatal error the tokens are a program. -/
theorem accepts_iff_phrase :
    p.Accepts ↔ Nonempty (Phrase .declarations maxNesting p.rest) := by
  rw [accepts_iff, Phrase.nonempty_iff]
  simp only [program_eq_ok]
  constructor
  · rintro ⟨ss, _, fl, h, -⟩
    exact declarations_spell (declaration_statement_spell .nearest maxNesting).1 _ _ _ h
  · intro h
    obtain ⟨ss, fl, h⟩ := h.read rfl
    exact ⟨ss, _, fl, h, rfl⟩

/-- A program is parsed if none of its places has a flaw, and else these are the errors. -/
theorem parse_phrase (d : Phrase .declarations maxNesting p.rest) :
    (d.places = [] → ∃ ss, p.parse.1 = .ok ss) ∧
      (d.places ≠ [] → p.parse.1 = .error (d.places.map (·.toError p.stop))) := by
  obtain ⟨ss, fl, h, hfl⟩ := d.notes
  have hrun : program p.rest.length ⟨p.rest, #[]⟩ = .ok ss ⟨[], fl⟩ :=
    program_eq_ok.mpr ⟨fl, h, rfl⟩
  constructor
  · intro hnone
    have hempty : fl = #[] := Array.toList_eq_nil_iff.mp (hfl.trans hnone)
    exact ⟨ss, by rw [(parse_of_ok hrun).1, hempty]; rfl⟩
  · intro hsome
    have hempty : fl ≠ #[] := fun hnil => hsome (by rw [← hfl, hnil])
    rw [(parse_of_ok hrun).1, ← hfl]
    simp [hempty]

/-- What parsing reports is complete and exact. Errors that it goes on from come first, and at most
one other error comes behind them. There is none of the latter kind if and only if the tokens are a
program, and then the errors are the places of its phrases that have a flaw, in order and each of
them once. So a tree is given exactly if there is no such place either, and the tree keeps to the
limits. -/
theorem diagnostics_exact (ts : List Token) :
    let p := ofTokens ts
    (∀ es, p.parse.1 = .error es → ∃ mild, ∃ fatal : Option GrammarError,
      es = mild ++ fatal.toList ∧
      (∀ e ∈ mild, e.flaw.fatal = false ∧ e.flaw.message ∈ mildMessages) ∧
      ∀ e ∈ fatal, e.flaw.fatal = true ∧ e.flaw.message ∉ mildMessages) ∧
    (p.Accepts ↔ Nonempty (Phrase .declarations maxNesting p.rest)) ∧
    (∀ d : Phrase .declarations maxNesting p.rest, d.places ≠ [] →
      p.parse.1 = .error (d.places.map (·.toError p.stop))) ∧
    ((∃ ss, p.parse.1 = .ok ss) ↔
      p.Accepts ∧ ∀ d : Phrase .declarations maxNesting p.rest, d.places = []) ∧
    ∀ ss, p.parse.1 = .ok ss → Stmt.WithinLimits ss := by
  intro p
  refine ⟨fun es h => ?_, accepts_iff_phrase, fun d => (parse_phrase d).2, ⟨?_, ?_⟩,
    fun ss h => Stmt.withinLimits_of_wellFormed (parse_wellFormed h)⟩
  · obtain ⟨mild, fatal, hes, hmild, hfatal⟩ := error_shape h
    refine ⟨mild, fatal, hes, fun e he => ⟨hmild e he, ?_⟩, fun e he => ⟨hfatal e he, ?_⟩⟩
    · exact (Flaw.mem_mildMessages _).mpr (hmild e he)
    · rw [Flaw.mem_mildMessages, hfatal e he]
      exact Bool.noConfusion
  · rintro ⟨ss, h⟩
    have hno {es} : p.parse.1 ≠ .error es := by simp [h]
    exact ⟨fun es hes => absurd hes hno, fun d => by_contra fun hd => hno ((parse_phrase d).2 hd)⟩
  · rintro ⟨haccepts, hnone⟩
    obtain ⟨d⟩ := accepts_iff_phrase.mp haccepts
    exact (parse_phrase d).1 (hnone d)

/-- A name in parentheses is nothing that can be assigned to. -/
example :
    let eq : Token := ⟨.equal, "=", 1, 4, 3, .nil⟩
    let ts : List Token := [⟨.leftParen, "(", 1, 0, 0, .nil⟩, ⟨.identifier, "a", 1, 1, 1, .nil⟩,
      ⟨.rightParen, ")", 1, 2, 2, .nil⟩, eq, ⟨.identifier, "b", 1, 6, 4, .nil⟩,
      ⟨.semicolon, ";", 1, 7, 5, .nil⟩]
    (ofTokens ts).parse.1 = .error [⟨.invalidTarget, eq⟩] := rfl

end Parser
end Lox
