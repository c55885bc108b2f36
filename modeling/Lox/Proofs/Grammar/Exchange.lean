import Lox.Proofs.Grammar.Earliest
import Lox.Proofs.Grammar.Logic
import Lox.Proofs.Grammar.RoundTrip

/-!
One statement in place of another. Where a statement may stand, another one can stand that parsing
takes in the same way, with the same tree: what comes before and behind is parsed as it was.
-/

namespace Lox

/-- Trees and tokens that are the same. -/
def Likeness.same : Likeness where
  LikeToken := Eq
  LikeExpr := Eq
  LikeStmt := Eq
  kind h := h ▸ rfl
  literal h hv hv' := by
    subst h
    rw [Option.some.inj (hv.symm.trans hv')]
  always := rfl
  «variable» := congrArg _
  target {e e'} h := by
    subst h
    cases e with
    | «variable» x => exact .inl ⟨x, x, rfl, rfl, rfl⟩
    | _ => exact .inr ⟨by simp, by simp⟩
  assign := by rintro _ _ _ _ rfl rfl; rfl
  unary := by rintro _ _ _ _ rfl rfl; rfl
  binary := by rintro _ _ _ _ _ _ rfl rfl rfl; rfl
  logical := by rintro _ _ _ _ _ _ rfl rfl rfl; rfl
  grouping := congrArg _
  call := by
    rintro _ _ _ _ _ _ rfl rfl h
    rw [List.forall₂_eq_eq_eq] at h
    rw [h]
  expression := congrArg _
  print := by rintro _ _ _ _ rfl rfl; rfl
  var := by
    rintro _ _ _ _ rfl h
    cases h with
    | none => rfl
    | some h => rw [h]
  function := by
    rintro _ _ _ _ _ _ rfl h h'
    rw [List.forall₂_eq_eq_eq] at h h'
    rw [h, h']
  block h := by
    rw [List.forall₂_eq_eq_eq] at h
    rw [h]
  branch := by
    rintro _ _ _ _ _ _ rfl rfl h
    cases h with
    | none => rfl
    | some h => rw [h]
  loop := by rintro _ _ _ _ rfl rfl; rfl
  ret := by
    rintro _ _ _ _ rfl h
    cases h with
    | none => rfl
    | some h => rw [h]

/-- Two statements, each with the token that opens it, and the tokens behind them. The new one is no
block, so it cannot be taken for the body of a function. -/
structure Exchange where
  size : Nat
  opener : Token
  others : List Token
  opener' : Token
  others' : List Token
  behind : List Token
  opens : Parse.opensStatement opener.kind = true
  opens' : Parse.opensStatement opener'.kind = true
  noBlock : opener'.kind ≠ .leftBrace

namespace Exchange
open Parse Step

variable (X : Exchange)

theorem expect_cons_ne {slot : Slot} {t : Token} {ts : List Token} {r : Array Problem}
    (h : t.kind ≠ slot.kind) :
    expect slot ⟨t :: ts, r⟩ = .error ⟨.missing slot, some t⟩ ⟨t :: ts, r⟩ := by
  rw [expect, bind_of_ok (takeIf_stops (.cons (by simpa using h) ts))]
  rfl

/-- Of the tokens that open a statement only the brace is needed anywhere. -/
theorem kind_of_opens {slot : Slot} (h : opensStatement slot.kind = true) :
    slot.kind = .leftBrace := by
  revert h
  cases slot <;> decide

/-- The tokens from the old statement on. -/
def old : List Token := X.opener :: (X.others ++ X.behind)

/-- The tokens from the new statement on. -/
def new : List Token := X.opener' :: (X.others' ++ X.behind)

/-- The tokens that two runs have left: those from the statements on, perhaps with some before them,
or the same ones behind them. -/
inductive Beside : List Token → List Token → Prop where
  | here : Beside X.old X.new
  | done : Beside [] []
  | before (t : Token) {ts ts' : List Token} : Beside ts ts' → Beside (t :: ts) (t :: ts')

theorem Beside.refl : ∀ ts, X.Beside ts ts
  | [] => .done
  | t :: ts => .before t (refl ts)

theorem Beside.append {ts ts' : List Token} (h : X.Beside ts ts') :
    ∀ us, X.Beside (us ++ ts) (us ++ ts')
  | [] => h
  | u :: us => .before u (append h us)

/-- Two runs side by side, with equally many flaws reported. -/
structure Level (s s' : Progress) : Prop where
  rest : X.Beside s.rest s'.rest
  reports : s.reports.size = s'.reports.size

/-- When the first run goes on, the second does too, or it stops at a flaw that is not about
nesting. -/
inductive Goes {α : Type} (R : α → α → Prop) :
    EStateM.Result Problem Progress α → EStateM.Result Problem Progress α → Prop where
  | ok {a a' s s'} : R a a' → X.Level s s' → Goes R (.ok a s) (.ok a' s')
  | stops {a s e' s'} : e'.flaw ≠ .tooMuchNesting → Goes R (.ok a s) (.error e' s')
  | stopped {e s x'} : Goes R (.error e s) x'

variable {X} {s s' : Progress}

theorem Goes.bind {α β : Type} {R : α → α → Prop} {R' : β → β → Prop} {p p' : Parse α}
    {f f' : α → Parse β} (h : X.Goes R (p s) (p' s'))
    (hf : ∀ a a' s₁ s₁', R a a' → X.Level s₁ s₁' → X.Goes R' (f a s₁) (f' a' s₁')) :
    X.Goes R' ((p >>= f) s) ((p' >>= f') s') := by
  generalize hx : p s = x at h
  generalize hx' : p' s' = x' at h
  cases h with
  | ok ha hs =>
    rw [bind_of_ok hx, bind_of_ok hx']
    exact hf _ _ _ _ ha hs
  | @stops a s₁ e' s₁' he =>
    rw [bind_of_error hx']
    cases (p >>= f) s with
    | ok => exact .stops he
    | error => exact .stopped
  | stopped =>
    rw [bind_of_error hx]
    exact .stopped

namespace Level

theorem atEnd (h : X.Level s s') : X.Goes Eq (atEnd s) (atEnd s') := by
  obtain ⟨ts, r⟩ := s
  obtain ⟨ts', r'⟩ := s'
  refine .ok ?_ h
  cases h.rest <;> rfl

theorem report (h : X.Level s s') (flaw : Flaw) (spot spot' : Option Token) :
    X.Goes Eq (reportAt flaw spot s) (reportAt flaw spot' s') :=
  .ok rfl ⟨h.rest, by rw [Array.size_push, Array.size_push, h.reports]⟩

/-- A token that opens no statement is taken by both runs, or by neither. -/
theorem takeIf (h : X.Level s s') {q : Kind → Bool} (hq : Apart q) :
    X.Goes (Option.Rel Eq) (takeIf q s) (takeIf q s') := by
  obtain ⟨ts, r⟩ := s
  obtain ⟨ts', r'⟩ := s'
  cases h.rest with
  | here =>
    rw [takeIf_stops (.cons (hq _ X.opens) _), takeIf_stops (.cons (hq _ X.opens') _)]
    exact .ok .none h
  | done => exact .ok .none h
  | before t hts =>
    by_cases ht : q t.kind = true
    · rw [takeIf_cons ht, takeIf_cons ht]
      exact .ok (.some rfl) ⟨hts, h.reports⟩
    · have ht : q t.kind = false := Bool.eq_false_iff.mpr ht
      rw [takeIf_stops (.cons ht _), takeIf_stops (.cons ht _)]
      exact .ok .none h

theorem nextIs (h : X.Level s s') {k : Kind} (hk : Apart (· == k)) :
    X.Goes Eq (nextIs k s) (nextIs k s') := by
  obtain ⟨ts, r⟩ := s
  obtain ⟨ts', r'⟩ := s'
  cases h.rest with
  | here =>
    refine .ok ?_ h
    exact (hk _ X.opens).trans (hk _ X.opens').symm
  | done => exact .ok rfl h
  | before t _ => exact .ok rfl h

/-- Where the old statement is a block, it may be the body of a function; but the new one is not. -/
theorem expect (h : X.Level s s') (slot : Slot) : X.Goes Eq (expect slot s) (expect slot s') := by
  obtain ⟨ts, r⟩ := s
  obtain ⟨ts', r'⟩ := s'
  cases h.rest with
  | here =>
    by_cases hold : X.opener.kind = slot.kind
    · have hbrace : slot.kind = .leftBrace := kind_of_opens (hold ▸ X.opens)
      have hnew : X.opener'.kind ≠ slot.kind := hbrace ▸ X.noBlock
      rw [expect_cons hold, expect_cons_ne hnew]
      exact .stops (by simp)
    · rw [expect_cons_ne hold]
      exact .stopped
  | done => exact .stopped
  | before t hts =>
    by_cases ht : t.kind = slot.kind
    · rw [expect_cons ht, expect_cons ht]
      exact .ok rfl ⟨hts, h.reports⟩
    · rw [expect_cons_ne ht]
      exact .stopped

end Level

/-- What steps of two runs side by side have in common. -/
def logic (X : Exchange) : Parse.Logic where
  toLikeness := .same
  Holds R p p' := ∀ s s', X.Level s s' → X.Goes R (p s) (p' s')
  pure ha _ _ hs := .ok ha hs
  bind hp hf s s' hs := (hp s s' hs).bind fun _ _ _ _ ha => hf _ _ ha _ _
  fail _ _ _ _ := .stopped
  report flaw _ _ hs := hs.report flaw _ _
  reportAt flaw _ _ _ _ _ hs := hs.report flaw _ _
  atEnd _ _ hs := hs.atEnd
  nextIs hk _ _ hs := hs.nextIs hk
  takeIf hq _ _ hs := hs.takeIf hq
  expect slot _ _ hs := hs.expect slot

/-- The new statement is parsed in the same way, wherever that is tried. -/
def Fits (X : Exchange) : Prop :=
  ∀ n r r', r.size = r'.size →
    X.Goes Eq (statement X.size n ⟨X.old, r⟩) (statement X.size n ⟨X.new, r'⟩)

theorem statement_goes (hX : X.Fits) (n : Nat)
    (h : ∀ t t', Option.Rel Eq t t' → X.logic.Holds Eq
      (statementAfter X.size (expression X.size n) (declaration X.size n) (statement X.size n) t)
      (statementAfter X.size (expression X.size n) (declaration X.size n) (statement X.size n)
        t')) :
    X.logic.Holds Eq (statement X.size (n + 1)) (statement X.size (n + 1)) := by
  rintro ⟨ts, r⟩ ⟨ts', r'⟩ hs
  cases hs.rest with
  | here => exact hX (n + 1) r r' hs.reports
  | done =>
    rw [statement, statementLevel_eq]
    exact h none none .none _ _ hs
  | before t hts =>
    rw [statement, statementLevel_eq]
    by_cases ht : opensStatement t.kind = true
    · rw [bind_of_ok (takeIf_cons ht), bind_of_ok (takeIf_cons ht)]
      exact h (some t) (some t) (.some rfl) _ _ ⟨hts, hs.reports⟩
    · have ht : opensStatement t.kind = false := Bool.eq_false_iff.mpr ht
      rw [bind_of_ok (takeIf_stops (.cons ht _)), bind_of_ok (takeIf_stops (.cons ht _))]
      exact h none none .none _ _ hs

theorem program_goes (hX : X.Fits) (us : List Token) :
    X.Goes (List.Forall₂ Eq) (program X.size ⟨us ++ X.old, #[]⟩)
      (program X.size ⟨us ++ X.new, #[]⟩) := by
  have hd := (X.logic.declaration_statement (statement_goes hX) maxNesting).1
  exact X.logic.programFrom hd X.size .nil _ _ ⟨Beside.here.append X us, rfl⟩

/-- Where a program has the old statement in it, it is one with the new statement too, if it is any
program at all. -/
theorem declarations_new (hX : X.Fits) {us : List Token} {ss : List Stmt} {n : Nat}
    (hold : (us ++ X.old).length ≤ X.size) (hnew : (us ++ X.new).length ≤ X.size)
    (hread : Reading.Declarations (Reading.Declaration maxNesting) (us ++ X.old) ss #[])
    (hderives : Derives .any .declarations n (kinds (us ++ X.new))) :
    Reading.Declarations (Reading.Declaration maxNesting) (us ++ X.new) ss #[] := by
  have hrun := (program_eq_ok_of_le hold).mpr ⟨#[], hread, rfl⟩
  have hgoes := program_goes hX us
  rw [hrun] at hgoes
  cases hrun' : program X.size ⟨us ++ X.new, #[]⟩ with
  | ok ss' s' =>
    rw [hrun'] at hgoes
    cases hgoes with
    | ok hss hs =>
      obtain ⟨fl, hread', rfl⟩ := (program_eq_ok_of_le hnew).mp hrun'
      obtain rfl : fl = #[] := Array.eq_empty_of_size_eq_zero hs.reports.symm
      rw [List.forall₂_eq_eq_eq] at hss
      exact hss ▸ hread'
  | error e s' =>
    rw [hrun'] at hgoes
    cases hgoes with
    | stops he =>
      -- parsing does not stop within what is a program
      obtain ⟨ts, hts⟩ := (LeavesSuffix.program X.size).error hrun'
      have hts : ts ++ s'.rest = us ++ X.new := hts
      rw [← hts] at hnew hrun' hderives
      exact absurd hderives (not_derives_of_rounds hnew hrun' he rfl n)

end Exchange
end Lox
