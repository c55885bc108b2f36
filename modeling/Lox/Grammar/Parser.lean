import Lox.Grammar.Property
import Lox.Proofs.Step

/-!
Parsers. A parser reads declarations up to the end of its tokens. After a fatal flaw it stands at
the next place where a statement may start, so that parsing can go on from there.
-/

namespace Lox

/-- Tokens that are still to be parsed, and the end marker behind them. The tokens themselves hold
no end marker. -/
@[ext]
structure Parser where
  rest : List Token
  stop : Token
  isEof_rest : ∀ t ∈ rest, t.isEof = false
  isEof_stop : stop.isEof = true

/-- The end marker of tokens that have none. -/
def Token.standIn (ts : List Token) : Token :=
  ⟨.eof, "", (ts.getLast?.map (·.line)).getD 1, 0, ts.length, .nil⟩

/-- A parser for some tokens. All behind the first end marker is out of sight. -/
def Parser.ofTokens (ts : List Token) : Parser where
  rest := ts.takeWhile (!·.isEof)
  stop := (ts.find? (·.isEof)).getD (Token.standIn ts)
  isEof_rest t ht := by simpa using List.all_eq_true.mp List.all_takeWhile t ht
  isEof_stop := by
    cases h : ts.find? (·.isEof) with
    | none => rfl
    | some t => exact List.find?_some h

theorem Parser.rest_ofTokens (ts : List Token) :
    (ofTokens ts).rest = ts.takeWhile (!·.isEof) := rfl

theorem Parser.stop_ofTokens (ts : List Token) :
    (ofTokens ts).stop = (ts.find? (·.isEof)).getD (Token.standIn ts) := rfl

/-- The parser when only the last ones of its tokens are left. -/
def Parser.leaving (p : Parser) (rest : List Token) (h : rest <:+ p.rest) : Parser where
  rest := rest
  stop := p.stop
  isEof_rest t ht := p.isEof_rest t (h.subset ht)
  isEof_stop := p.isEof_stop

/-- The error for a problem; one that shows at no token shows at the end marker. -/
def Problem.toError (stop : Token) (p : Problem) : GrammarError := ⟨p.flaw, p.spot.getD stop⟩

/-! ### What is left -/

namespace Parse
open Step

variable {α β : Type}

theorem exists_nextIs (k : Kind) (s : Progress) : ∃ b, nextIs k s = .ok b s := by
  obtain ⟨ts, r⟩ := s
  cases ts <;> exact ⟨_, rfl⟩

theorem exists_takeIf (q : Kind → Bool) (s : Progress) :
    ∃ o ts, takeIf q s = .ok o ⟨ts, s.reports⟩ ∧ ts <:+ s.rest := by
  obtain ⟨ts, r⟩ := s
  cases ts with
  | nil => exact ⟨none, [], rfl, List.suffix_rfl⟩
  | cons t ts =>
    by_cases ht : q t.kind = true
    · exact ⟨some t, ts, by simp [takeIf, ht], List.suffix_cons t ts⟩
    · exact ⟨none, t :: ts, by simp [takeIf, ht], List.suffix_rfl⟩

/-- Whatever a step comes to, it leaves the last ones of the tokens that it found. -/
structure LeavesSuffix (p : Parse α) : Prop where
  ok {s x s'} : p s = .ok x s' → s'.rest <:+ s.rest
  error {s e s'} : p s = .error e s' → s'.rest <:+ s.rest

namespace LeavesSuffix

/-- A step that never stops. -/
theorem of_ok {p : Parse α} (h : ∀ s, ∃ x s', p s = .ok x s' ∧ s'.rest <:+ s.rest) :
    LeavesSuffix p where
  ok {s _ _} hp := by
    obtain ⟨x, s', hx, hs⟩ := h s
    cases hx.symm.trans hp
    exact hs
  error {s _ _} hp := by
    obtain ⟨x, s', hx, -⟩ := h s
    cases hx.symm.trans hp

theorem pure (x : α) : LeavesSuffix (Pure.pure x : Parse α) :=
  of_ok fun s => ⟨x, s, rfl, List.suffix_rfl⟩

theorem bind {p : Parse α} {f : α → Parse β} (hp : LeavesSuffix p) (hf : ∀ x, LeavesSuffix (f x)) :
    LeavesSuffix (p >>= f) where
  ok h := by
    obtain ⟨x, s₁, hx, h⟩ := bind_eq_ok.mp h
    exact ((hf x).ok h).trans (hp.ok hx)
  error h := by
    rcases bind_eq_error.mp h with h | ⟨x, s₁, hx, h⟩
    · exact hp.error h
    · exact ((hf x).error h).trans (hp.ok hx)

theorem fail (flaw : Flaw) : LeavesSuffix (Parse.fail flaw : Parse α) where
  ok h := by cases h
  error h := by
    cases h
    exact List.suffix_rfl

end LeavesSuffix

/-- Leaving the last ones of the tokens lasts. -/
def leavesSuffix : Property where
  Holds := LeavesSuffix
  pure := .pure
  bind := .bind
  fail _ := .fail _
  report _ := .of_ok fun _ => ⟨(), _, rfl, List.suffix_rfl⟩
  reportAt _ _ := .of_ok fun _ => ⟨(), _, rfl, List.suffix_rfl⟩
  atEnd := .of_ok fun s => ⟨_, s, rfl, List.suffix_rfl⟩
  nextIs k := .of_ok fun s => (exists_nextIs k s).imp fun _ h => ⟨s, h, List.suffix_rfl⟩
  takeIf q := .of_ok fun s => (exists_takeIf q s).imp fun _ ⟨_, h, hs⟩ => ⟨_, h, hs⟩

theorem LeavesSuffix.program (size : Nat) : LeavesSuffix (program size) :=
  leavesSuffix.program size

end Parse

/-! ### The next boundary -/

/-- Drop tokens until the one dropped last was a semicolon or the next one starts a statement. -/
def skipToBoundary (last : Token) : List Token → List Token
  | [] => []
  | t :: ts =>
    if last.kind == .semicolon || t.kind.startsStatement then t :: ts else skipToBoundary t ts

/-- The tokens from the next statement boundary on; the token at the flaw is dropped in any case. -/
def synchronize : List Token → List Token
  | [] => []
  | t :: ts => skipToBoundary t ts

theorem skipToBoundary_suffix (last : Token) (ts : List Token) : skipToBoundary last ts <:+ ts := by
  induction ts generalizing last with
  | nil => exact List.suffix_rfl
  | cons t ts ih =>
    rw [skipToBoundary]
    split
    · exact List.suffix_rfl
    · exact (ih t).trans (List.suffix_cons t ts)

theorem synchronize_suffix (ts : List Token) : synchronize ts <:+ ts := by
  cases ts with
  | nil => exact List.suffix_rfl
  | cons t ts => exact (skipToBoundary_suffix t ts).trans (List.suffix_cons t ts)

/-! ### Calls -/

namespace Parser
open Parse

/-- Parse up to the end or the first fatal flaw. Any flaw makes the answer an error, which holds all
reports in order and the fatal flaw, if there is one, at its end. -/
def parse (p : Parser) : Except (List GrammarError) (List Stmt) × Parser :=
  match h : program p.rest.length ⟨p.rest, #[]⟩ with
  | .ok stmts s =>
    (if s.reports.isEmpty then .ok stmts else .error (s.reports.toList.map (·.toError p.stop)),
      p.leaving s.rest ((LeavesSuffix.program _).ok h))
  | .error e s =>
    (.error ((s.reports.toList ++ [e]).map (·.toError p.stop)),
      p.leaving (synchronize s.rest)
        ((synchronize_suffix s.rest).trans ((LeavesSuffix.program _).error h)))

variable {p : Parser} {s : Progress}

/-- A call that comes to the end of the tokens. -/
theorem parse_of_ok {ss : List Stmt} (h : program p.rest.length ⟨p.rest, #[]⟩ = .ok ss s) :
    p.parse.1 = (if s.reports.isEmpty then .ok ss
      else .error (s.reports.toList.map (·.toError p.stop))) ∧ p.parse.2.rest = s.rest := by
  rw [parse]
  split
  · next heq =>
    cases h.symm.trans heq
    exact ⟨rfl, rfl⟩
  · next heq => cases h.symm.trans heq

/-- A call that stops at a fatal flaw. -/
theorem parse_of_error {q : Problem} (h : program p.rest.length ⟨p.rest, #[]⟩ = .error q s) :
    p.parse.1 = .error ((s.reports.toList ++ [q]).map (·.toError p.stop)) ∧
      p.parse.2.rest = synchronize s.rest := by
  rw [parse]
  split
  · next heq => cases h.symm.trans heq
  · next heq =>
    cases h.symm.trans heq
    exact ⟨rfl, rfl⟩

@[simp] theorem parse_stop (p : Parser) : p.parse.2.stop = p.stop := by
  rw [parse]
  split <;> rfl

end Parser
end Lox
