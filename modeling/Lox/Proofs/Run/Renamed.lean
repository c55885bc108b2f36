import Lox.Proofs.Grammar.Like
import Lox.Proofs.Grammar.WellFormed
import Lox.Proofs.Run.Coupling
import Lox.Proofs.Run.Truncation
import Mathlib.Data.Set.Function

/-!
Other names for the same things. When the names of a program are changed so that no two become one,
the program does the same. A name is only seen where a function is printed, and where it is missed.
-/

namespace Lox

/-! ### Renaming -/

/-- A token with another name, if it is a name. -/
def Token.renamed (ρ : String → String) (t : Token) : Token :=
  if t.kind = .identifier then { t with lexeme := ρ t.lexeme } else t

/-- The names that a program of these tokens may look up. -/
def Token.names (ts : List Token) : Set String :=
  {x | x = "clock" ∨ ∃ t ∈ ts, t.kind = .identifier ∧ t.lexeme = x}

/-- New names for those among some tokens: no two become one, and the clock keeps its name. -/
structure Renaming (ρ : String → String) (ts : List Token) : Prop where
  clock : ρ "clock" = "clock"
  distinct : Set.InjOn ρ (Token.names ts)

/-- One of the tokens, and what becomes of it. -/
structure Renames (ρ : String → String) (ts : List Token) (t t' : Token) : Prop where
  mem : t ∈ ts
  eq : t' = t.renamed ρ

/-- The same fault, but when a name is missing it has been renamed. -/
def Fault.renamed (ρ : String → String) : Fault → Fault
  | ⟨.undefinedVariable, x⟩ => ⟨.undefinedVariable, { x with lexeme := ρ x.lexeme }⟩
  | f => f

/-- A program ends in the same way, but for the name that it may miss. -/
def Ending.renamed (ρ : String → String) : Ending → Ending
  | .faulted f => .faulted (f.renamed ρ)
  | ending => ending

/-- Values that are the same, or functions made at the same time with names as they should be. -/
inductive Value.Renamed (ρ : String → String) : Value → Value → Prop where
  | same {v : Value} : v.Plain → Renamed ρ v v
  | function {f f' : Closure} : f.id = f'.id → f'.name.lexeme = ρ f.name.lexeme →
      Renamed ρ (.callable (.function f)) (.callable (.function f'))

section
variable {ρ : String → String} {ts : List Token} {t t' : Token} {x y : String}

theorem Token.renamed_name (ht : t.kind = .identifier) :
    t.renamed ρ = { t with lexeme := ρ t.lexeme } := if_pos ht

theorem Token.renamed_of_ne (ht : t.kind ≠ .identifier) : t.renamed ρ = t := if_neg ht

theorem Token.renamed_keeps (ρ : String → String) : Reading.Keeps (Token.renamed ρ) where
  kind t := by rw [renamed]; split <;> rfl
  value t := by rw [renamed]; split <;> rfl

theorem Renames.lexeme_mem (h : Renames ρ ts t t') (ht : t.kind = .identifier) :
    t.lexeme ∈ Token.names ts := .inr ⟨t, h.mem, ht, rfl⟩

theorem Renames.lexeme (h : Renames ρ ts t t') (ht : t.kind = .identifier) :
    t'.lexeme = ρ t.lexeme := by
  rw [h.eq, Token.renamed_name ht]

theorem Renames.eq_of_ne (h : Renames ρ ts t t') (ht : t.kind ≠ .identifier) : t' = t :=
  h.eq.trans (Token.renamed_of_ne ht)

end

/-! ### Values that are printed -/

namespace Run

/-- From a point on the values have been printed, one after the other: each of them by a `print`
that the run comes to when all before it has been written, and whose operand has the value. -/
inductive Prints (p : Point) : List Value → ByteArray → Prop where
  | start : Prints p [] p.machine.out.written
  | line {vs w t e k n v m₀ m} : Prints p vs w → LeadsOn p ⟨.exec (.print t e), m₀, k⟩ →
      eval n e m₀ = .ok v m → m.out.written = w → Prints p (vs ++ [v]) (w ++ Output.line v)

/-! ### Programs that are the same but for their names -/

namespace Renamed

/-- Names are renamed, and the parts of bodies one by one. -/
def correspondence {ρ : String → String} {ts : List Token} (hρ : Renaming ρ ts) :
    Correspondence where
  Name x x' := x.kind = .identifier ∧ Renames ρ ts x x'
  Key x x' := x ∈ Token.names ts ∧ x' = ρ x
  Body ss ss' := Stmt.allWellFormed ss = true ∧ List.Forall₂ (Stmt.Like (Renames ρ ts)) ss ss'
  key h := ⟨h.2.lexeme_mem h.1, h.2.lexeme h.1⟩
  one_to_one := by
    rintro x _ y _ ⟨hx, rfl⟩ ⟨hy, rfl⟩
    exact (hρ.distinct.eq_iff hx hy).symm

section
variable {ρ : String → String} {ts : List Token} (hρ : Renaming ρ ts)

/-- Tokens that are no names stay as they are. -/
def Mark (t t' : Token) : Prop := t.kind ≠ .identifier ∧ t' = t

/-- Expressions before and after the renaming. -/
def Exprs (ρ : String → String) (ts : List Token) (e e' : Expr) : Prop :=
  e.wellFormed = true ∧ e.Like (Renames ρ ts) e'

/-- Statements before and after the renaming. -/
def Stmts (ρ : String → String) (ts : List Token) (s s' : Stmt) : Prop :=
  s.wellFormed = true ∧ s.Like (Renames ρ ts) s'

variable {t t' : Token} {e e' : Expr} {s s' : Stmt} {ss ss' : List Stmt}

theorem mark {p : Kind → Bool} (hp : p .identifier = false) (ht : p t.kind = true)
    (h : Renames ρ ts t t') : Mark t t' := by
  have hne : t.kind ≠ .identifier := by
    intro hk
    rw [hk, hp] at ht
    cases ht
  exact ⟨hne, h.eq_of_ne hne⟩

theorem expr_matches (h : Exprs ρ ts e e') :
    e.Matches (correspondence hρ) Mark (Exprs ρ ts) e' := by
  obtain ⟨hwf, hlike⟩ := h
  cases hlike with
  | literal v => exact .literal v
  | «variable» hx =>
    rw [Expr.wellFormed, beq_iff_eq] at hwf
    exact .variable ⟨hwf, hx⟩
  | assign hx he =>
    simp only [Expr.wellFormed, Bool.and_eq_true, beq_iff_eq] at hwf
    exact .assign ⟨hwf.1, hx⟩ ⟨hwf.2, he⟩
  | unary hop he =>
    simp only [Expr.wellFormed, Bool.and_eq_true] at hwf
    obtain ⟨⟨hunary, -⟩, hwf⟩ := hwf
    exact .unary (mark rfl hunary hop) ⟨hwf, he⟩
  | binary hl hop hr =>
    simp only [Expr.wellFormed, Bool.and_eq_true] at hwf
    obtain ⟨⟨⟨⟨hbinary, -⟩, -⟩, hwfl⟩, hwfr⟩ := hwf
    exact .binary ⟨hwfl, hl⟩ (mark rfl hbinary hop) ⟨hwfr, hr⟩
  | logical hl hop hr =>
    simp only [Expr.wellFormed, Bool.and_eq_true] at hwf
    obtain ⟨⟨⟨⟨hlogical, -⟩, -⟩, hwfl⟩, hwfr⟩ := hwf
    exact .logical ⟨hwfl, hl⟩ (mark rfl hlogical hop) ⟨hwfr, hr⟩
  | grouping he =>
    rw [Expr.wellFormed] at hwf
    exact .grouping ⟨hwf, he⟩
  | call hf hparen hargs =>
    simp only [Expr.wellFormed, Bool.and_eq_true] at hwf
    obtain ⟨⟨⟨⟨hright, -⟩, hwf⟩, -⟩, hwfargs⟩ := hwf
    exact .call ⟨hwf, hf⟩ (mark (p := (· == .rightParen)) rfl hright hparen)
      ((List.forall₂_and_left _ _).mpr ⟨Reading.allWellFormed_iff.mp hwfargs, hargs⟩)

theorem option_matches {e e' : Option Expr} (hwf : e.all Expr.wellFormed = true)
    (h : Option.Rel (Expr.Like (Renames ρ ts)) e e') : Option.Rel (Exprs ρ ts) e e' := by
  cases h with
  | none => exact .none
  | some h => exact .some ⟨hwf, h⟩

theorem stmt_matches (h : Stmts ρ ts s s') :
    s.Matches (correspondence hρ) Mark (Exprs ρ ts) (Stmts ρ ts) s' := by
  obtain ⟨hwf, hlike⟩ := h
  cases hlike with
  | expression he =>
    rw [Stmt.wellFormed] at hwf
    exact .expression ⟨hwf, he⟩
  | print hk he =>
    simp only [Stmt.wellFormed, Bool.and_eq_true] at hwf
    exact .print (mark (p := (· == .kwPrint)) rfl hwf.1 hk) ⟨hwf.2, he⟩
  | var hx he =>
    simp only [Stmt.wellFormed, Bool.and_eq_true, beq_iff_eq] at hwf
    exact .var ⟨hwf.1, hx⟩ (option_matches hwf.2 he)
  | function hx hps hbody =>
    simp only [Stmt.wellFormed, Bool.and_eq_true, beq_iff_eq, List.all_eq_true] at hwf
    obtain ⟨⟨⟨hname, hparams⟩, -⟩, hwf⟩ := hwf
    exact .function ⟨hname, hx⟩ ((List.forall₂_and_left _ _).mpr ⟨hparams, hps⟩) ⟨hwf, hbody⟩
  | block hbody =>
    rw [Stmt.wellFormed] at hwf
    exact .block ⟨hwf, hbody⟩
  | lone hc hyes =>
    simp only [Stmt.wellFormed, Bool.and_eq_true] at hwf
    obtain ⟨⟨hwfc, -⟩, hwf⟩ := hwf
    exact .branch ⟨hwfc, hc⟩ ⟨hwf, hyes⟩ .none
  | both hc hyes hno =>
    simp only [Stmt.wellFormed, Bool.and_eq_true] at hwf
    obtain ⟨⟨⟨⟨⟨hwfc, -⟩, hwf⟩, -⟩, -⟩, hwfno⟩ := hwf
    exact .branch ⟨hwfc, hc⟩ ⟨hwf, hyes⟩ (.some ⟨hwfno, hno⟩)
  | loop hc hbody =>
    simp only [Stmt.wellFormed, Bool.and_eq_true] at hwf
    obtain ⟨⟨hwfc, -⟩, hwf⟩ := hwf
    exact .loop ⟨hwfc, hc⟩ ⟨hwf, hbody⟩
  | ret _ he =>
    simp only [Stmt.wellFormed, Bool.and_eq_true] at hwf
    exact .ret (option_matches hwf.2 he)

theorem body_matches (h : (correspondence hρ).Body ss ss') :
    Stmt.AllMatch (correspondence hρ) (Stmts ρ ts) ss ss' := by
  obtain ⟨hwf, hlike⟩ := h
  cases hlike with
  | nil => exact .nil
  | cons hs hss =>
    rw [Stmt.allWellFormed, Bool.and_eq_true] at hwf
    exact .cons ⟨hwf.1, hs⟩ ⟨hwf.2, hss⟩

/-- Output without a limit, to which values that correspond have been printed from two points on. -/
structure Printed (p p' : Point) (o o' : Output) : Prop where
  room : o.room = none
  room' : o'.room = none
  values : ∃ vs vs', List.Forall₂ (Value.Coupled (correspondence hρ)) vs vs' ∧
    Prints p vs o.written ∧ Prints p' vs' o'.written

variable {hρ} in
theorem Printed.write {p p' : Point} {t t' : Token} {n k : Nat} {v v' : Value}
    {m₀ m₀' m m' : Machine} (h : Printed hρ p p' m.out m'.out)
    (hp : LeadsOn p ⟨.exec (.print t e), m₀, k⟩) (hp' : LeadsOn p' ⟨.exec (.print t' e'), m₀', k⟩)
    (he : eval n e m₀ = .ok v m) (he' : eval n e' m₀' = .ok v' m')
    (hv : Value.Coupled (correspondence hρ) v v') :
    let w := m.out.write (v.text ++ "\n")
    let w' := m'.out.write (v'.text ++ "\n")
    w.1 = w'.1 ∧ Printed hρ p p' w.2 w'.2 := by
  obtain ⟨vs, vs', hvs, hprints, hprints'⟩ := h.values
  -- however long the names are, both lines are written to their ends
  rw [Output.write_unlimited h.room, Output.write_unlimited h.room']
  refine ⟨rfl, h.room, h.room', vs ++ [v], vs' ++ [v'], ?_, ?_, ?_⟩
  · exact List.rel_append hvs (.cons hv .nil)
  · exact hprints.line hp he rfl
  · exact hprints'.line hp' he' rfl

/-- Programs before and after the renaming, from two points on. -/
def coupling (p p' : Point) : Coupling where
  toCorrespondence := correspondence hρ
  Mark := Mark
  Exprs := Exprs ρ ts
  Stmts := Stmts ρ ts
  Outs := Printed hρ p p'
  Among q q' := LeadsOn p q ∧ LeadsOn p' q'
  leads h hq hq' := ⟨h.1.tail hq, h.2.tail hq'⟩
  kind h := congrArg Token.kind h.2.symm
  expr := expr_matches hρ
  stmt := stmt_matches hρ
  body := body_matches hρ
  print h he he' hv hout := hout.write h.1 h.2 he he' hv

variable {hρ}

theorem renamed_of_coupled {v v' : Value} (h : Value.Coupled (correspondence hρ) v v') :
    Value.Renamed ρ v v' := by
  cases h with
  | nil => exact .same .nil
  | bool b => exact .same (.bool b)
  | num x => exact .same (.num x)
  | str s => exact .same (.str s)
  | clock => exact .same fun _ h => nomatch h
  | function hid hname => exact .function hid (hname.2.lexeme hname.1)

theorem fault_renamed {p p' : Point} {f f' : Fault} (h : (coupling hρ p p').Faults f f') :
    f' = f.renamed ρ := by
  cases h with
  | undefined hx => rw [Fault.renamed, hx.2.eq, Token.renamed_name hx.1]
  | @other cause t t' hcause ht =>
    obtain rfl : t' = t := ht.2
    cases cause with
    | undefinedVariable => exact absurd rfl hcause
    | _ => rfl

theorem ending_renamed {p p' : Point} {a a' : Ending} (h : (coupling hρ p p').Endings a a') :
    a' = a.renamed ρ := by
  cases h with
  | faulted hf => rw [Ending.renamed, fault_renamed hf]
  | _ => rfl

end

end Renamed
end Run

/-! ### Programs -/

open Run in
/-- Names matter only up to equality. A program whose names are changed, so that no two become one
and the clock keeps its name, is still a program. Within any number of steps on a new machine it
ends just as the original one does, but that another name may be missed, and it has printed the same
values, but that functions show their new names. -/
theorem Machine.run_renamed {ρ : String → String} {ts : List Token} {program : List Stmt}
    (hρ : Renaming ρ ts) (hparse : (Parser.ofTokens ts).parse.1 = .ok program)
    (κ : Nat → Float) :
    ∃ program', (Parser.ofTokens (ts.map (Token.renamed ρ))).parse.1 = .ok program' ∧
      List.Forall₂ (Stmt.Like (Renames ρ ts)) program program' ∧
      ∀ n, let m := Machine.start κ .unlimited
        let original := m.run n program
        let renamed := m.run n program'
        renamed.1 = original.1.renamed ρ ∧
          ∃ vs vs', Prints ⟨.execAll program, m, 0⟩ vs original.2.out.written ∧
            Prints ⟨.execAll program', m, 0⟩ vs' renamed.2.out.written ∧
            List.Forall₂ (Value.Renamed ρ) vs vs' := by
  obtain ⟨program', hparse', hlike⟩ := Parser.parse_map (Token.renamed_keeps ρ)
    (R := Renames ρ ts) (fun t ht => ⟨ht, rfl⟩) hparse
  refine ⟨program', hparse', hlike, fun n => ?_⟩
  intro m original renamed
  let c := Renamed.coupling hρ ⟨.execAll program, m, 0⟩ ⟨.execAll program', m, 0⟩
  have hbody : c.Body program program' := ⟨Parser.parse_wellFormed hparse, hlike⟩
  have hout : c.Outs m.out m.out := ⟨rfl, rfl, [], [], .nil, .start, .start⟩
  have hm : c.Machines m m :=
    ⟨.start ⟨.inl rfl, hρ.clock.symm⟩, rfl, rfl, rfl, rfl, rfl, hout⟩
  -- the values come with the output that they were printed to
  obtain ⟨hending, hm'⟩ := c.run hbody hm (k := 0) ⟨.refl, .refl⟩ n
  obtain ⟨vs, vs', hvs, hprints, hprints'⟩ := hm'.out.values
  exact ⟨Renamed.ending_renamed hending, vs, vs', hprints, hprints',
    hvs.imp fun _ _ => Renamed.renamed_of_coupled⟩

/-- A function and its parameter trade their names. What is missed behind its declaration is the
name of the parameter, whichever that is. -/
theorem Machine.run_renamed_swapped :
    let ρ := Equiv.swap "f" "x"
    let f : Token := ⟨.identifier, "f", 1, 4, 1, .nil⟩
    let x : Token := ⟨.identifier, "x", 2, 0, 10, .nil⟩
    let mark (kind : Kind) (lexeme : String) : Token := ⟨kind, lexeme, 1, 0, 0, .nil⟩
    let ts := [mark .kwFun "fun", f, mark .leftParen "(", x, mark .rightParen ")",
      mark .leftBrace "\x7b", mark .rightBrace "\x7d",
      mark .kwPrint "print", f, mark .semicolon ";", x, mark .semicolon ";"]
    let program : List Stmt := [.function f [x] [], .print (mark .kwPrint "print") (.variable f),
      .expression (.variable x)]
    Renaming ρ ts ∧ (Parser.ofTokens ts).parse.1 = .ok program ∧
      ∃ program', (Parser.ofTokens (ts.map (Token.renamed ρ))).parse.1 = .ok program' ∧
        ((Machine.start (fun _ => 0) .unlimited).run 2 program').1 =
          .faulted ⟨.undefinedVariable, { x with lexeme := "f" }⟩ := by
  intro ρ f x mark ts program
  have hρ : Renaming ρ ts :=
    ⟨Equiv.swap_apply_of_ne_of_ne (by decide) (by decide), (Equiv.swap _ _).injective.injOn⟩
  have hparse : (Parser.ofTokens ts).parse.1 = .ok program := rfl
  obtain ⟨program', hparse', -, hruns⟩ := Machine.run_renamed hρ hparse fun _ => 0
  obtain ⟨hending, -⟩ := hruns 2
  have hrun : ((Machine.start (fun _ => 0) .unlimited).run 2 program).1 =
      .faulted ⟨.undefinedVariable, x⟩ := rfl
  refine ⟨hρ, hparse, program', hparse', ?_⟩
  rw [hending, hrun, Ending.renamed, Fault.renamed, Equiv.swap_apply_right]

end Lox
