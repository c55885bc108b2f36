import Lox.Proofs.Step
import Lox.Grammar.Parser

/-!
Parsing stops at a fatal flaw and nowhere else. The flaws that it reports and goes on from are never
fatal, and the one that ends it always is.
-/

namespace Lox

/-- Only flaws that do not end parsing have been reported. -/
def Progress.Mild (s : Progress) : Prop := ∀ p ∈ s.reports, p.flaw.fatal = false

namespace Parse
open Step

variable {α β : Type}

/-- Whatever `p` reports is not fatal, and it stops at fatal flaws alone. -/
structure StopsAtFatal (p : Parse α) : Prop where
  ok {s x s'} : s.Mild → p s = .ok x s' → s'.Mild
  error {s e s'} : s.Mild → p s = .error e s' → s'.Mild ∧ e.flaw.fatal = true

namespace StopsAtFatal

/-! ### Steps -/

theorem pure (x : α) : StopsAtFatal (Pure.pure x : Parse α) where
  ok hs h := (pure_eq_ok.mp h).2 ▸ hs
  error _ h := by simp [Pure.pure, EStateM.pure] at h

theorem bind {p : Parse α} {f : α → Parse β} (hp : StopsAtFatal p) (hf : ∀ x, StopsAtFatal (f x)) :
    StopsAtFatal (p >>= f) where
  ok hs h := by
    obtain ⟨x, s₁, hx, h⟩ := bind_eq_ok.mp h
    exact (hf x).ok (hp.ok hs hx) h
  error hs h := by
    rcases bind_eq_error.mp h with h | ⟨x, s₁, hx, h⟩
    · exact hp.error hs h
    · exact (hf x).error (hp.ok hs hx) h

theorem fail {flaw : Flaw} (h : flaw.fatal = true) :
    StopsAtFatal (Parse.fail flaw : Parse α) where
  ok _ h := by simp [Parse.fail] at h
  error hs he := by
    simp only [Parse.fail, EStateM.Result.error.injEq] at he
    obtain ⟨rfl, rfl⟩ := he
    exact ⟨hs, h⟩

theorem reportAt {flaw : Flaw} (h : flaw.fatal = false) (spot : Option Token) :
    StopsAtFatal (reportAt flaw spot) where
  ok hs hr := by
    simp only [Parse.reportAt, EStateM.Result.ok.injEq, true_and] at hr
    subst hr
    intro p hp
    rcases Array.mem_push.mp hp with hp | rfl
    · exact hs p hp
    · exact h
  error _ h := by simp [Parse.reportAt] at h

theorem report {flaw : Flaw} (h : flaw.fatal = false) : StopsAtFatal (report flaw) where
  ok := (reportAt h _).ok
  error := (reportAt h _).error

/-- A step that only looks at the tokens or takes some of them. -/
theorem silent {p : Parse α} (h : ∀ s, ∃ x s', p s = .ok x s' ∧ s'.reports = s.reports) :
    StopsAtFatal p where
  ok {s _ _} hs hp := by
    obtain ⟨y, s₁, hy, hr⟩ := h s
    rw [hp] at hy
    obtain ⟨rfl, rfl⟩ := EStateM.Result.ok.inj hy
    rw [Progress.Mild, hr]
    exact hs
  error {s _ _} _ hp := by
    obtain ⟨y, s₁, hy, hr⟩ := h s
    rw [hp] at hy
    cases hy

end StopsAtFatal

/-- Stopping at fatal flaws alone lasts. -/
def stopsAtFatal : Property where
  Holds := StopsAtFatal
  pure := .pure
  bind := .bind
  fail := .fail
  report := .report
  reportAt := .reportAt
  atEnd := .silent fun s => ⟨_, s, rfl, rfl⟩
  nextIs k := .silent fun s => (exists_nextIs k s).imp fun _ h => ⟨s, h, rfl⟩
  takeIf q := .silent fun s => (exists_takeIf q s).imp fun _ ⟨_, h, _⟩ => ⟨_, h, rfl⟩

theorem StopsAtFatal.program (size : Nat) : StopsAtFatal (program size) :=
  stopsAtFatal.program size

end Parse

/-- The errors of a parser are the flaws that were reported on the way. There are some, or reading
stopped at a fatal flaw, and then this one comes behind them. -/
theorem Parser.of_parse_error {p : Parser} {es : List GrammarError} (h : p.parse.1 = .error es) :
    ∃ s : Progress, s.Mild ∧
      ((∃ ss, Parse.program p.rest.length ⟨p.rest, #[]⟩ = .ok ss s ∧ s.reports ≠ #[] ∧
          es = s.reports.toList.map (·.toError p.stop)) ∨
        ∃ q, Parse.program p.rest.length ⟨p.rest, #[]⟩ = .error q s ∧ q.flaw.fatal = true ∧
          es = s.reports.toList.map (·.toError p.stop) ++ [q.toError p.stop]) := by
  have hmild : Progress.Mild ⟨p.rest, #[]⟩ := by simp [Progress.Mild]
  cases hrun : Parse.program p.rest.length ⟨p.rest, #[]⟩ with
  | ok ss s =>
    rw [(parse_of_ok hrun).1] at h
    by_cases hr : s.reports.isEmpty = true
    · simp [hr] at h
    · simp only [hr, Bool.false_eq_true, if_false, Except.error.injEq] at h
      have hsome : s.reports ≠ #[] := fun hnil => hr (Array.isEmpty_iff.mpr hnil)
      exact ⟨s, (Parse.StopsAtFatal.program _).ok hmild hrun, .inl ⟨ss, rfl, hsome, h.symm⟩⟩
  | error q s =>
    obtain ⟨hs, hq⟩ := (Parse.StopsAtFatal.program _).error hmild hrun
    simp only [(parse_of_error hrun).1, List.map_append, List.map_singleton,
      Except.error.injEq] at h
    exact ⟨s, hs, .inr ⟨q, rfl, hq, h.symm⟩⟩

/-- What was reported on the way is not fatal. -/
theorem Progress.Mild.error {s : Progress} (hs : s.Mild) {stop : Token} {e : GrammarError}
    (he : e ∈ s.reports.toList.map (·.toError stop)) : e.flaw.fatal = false := by
  obtain ⟨q, hq, rfl⟩ := List.mem_map.mp he
  exact hs q (Array.mem_toList_iff.mp hq)

/-- Some tokens parse without a fatal flaw, though others may have been reported. -/
def Parser.Accepts (p : Parser) : Prop :=
  ∀ es, p.parse.1 = .error es → ∀ e ∈ es, e.flaw.fatal = false

theorem Parser.accepts_iff (p : Parser) :
    p.Accepts ↔ ∃ ss s, Parse.program p.rest.length ⟨p.rest, #[]⟩ = .ok ss s := by
  constructor
  · intro hall
    cases h : Parse.program p.rest.length ⟨p.rest, #[]⟩ with
    | ok ss s => exact ⟨ss, s, rfl⟩
    | error q s =>
      have hmild : Progress.Mild ⟨p.rest, #[]⟩ := by simp [Progress.Mild]
      have hq := ((Parse.StopsAtFatal.program _).error hmild h).2
      have hnot := hall _ (parse_of_error h).1 (q.toError p.stop) (by simp)
      rw [show (q.toError p.stop).flaw = q.flaw from rfl, hq] at hnot
      cases hnot
  · rintro ⟨ss, s, h⟩ es hes e he
    obtain ⟨s, hs, ⟨_, -, -, rfl⟩ | ⟨q, hrun, -, -⟩⟩ := of_parse_error hes
    · exact hs.error he
    · rw [h] at hrun
      cases hrun

end Lox
