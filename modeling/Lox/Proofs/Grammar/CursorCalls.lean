import Lox.Proofs.Grammar.Bookkeeping
import Lox.Proofs.Grammar.Recovery

/-!
Calls of a parser with a cursor. A call does with the cursor what a call of a parser does with the
tokens that are left: it gives the same, and the cursor is where those that are left then begin.
No level is open between calls, and nothing that one of them has reported is left for the next one.
-/

namespace Lox
open Step

namespace Walk

variable {ts : List Token} {before : Array GrammarError} {top k n : Nat} {c : Cursor} {s : Progress}

/-! ### The next boundary -/

/-- The loop passes the tokens that come before the next boundary. -/
theorem toBoundary_eq {last : Token} (hA : Agrees ts before top k c s)
    (hlast : previous ts c = .ok last c) (hn : s.rest.length < n) :
    ∃ c', toBoundary ts n c = .ok () c' ∧
      Agrees ts before top k c' ⟨skipToBoundary last s.rest, s.reports⟩ := by
  obtain ⟨rest, reports⟩ := s
  induction rest generalizing n c last with
  | nil =>
    cases n with
    | zero => exact absurd hn (Nat.not_lt_zero _)
    | succ n =>
      refine ⟨c, ?_, hA⟩
      rw [toBoundary, bind_of_ok (isAtEnd_eq hA)]
      rfl
  | cons t us ih =>
    cases n with
    | zero => exact absurd hn (Nat.not_lt_zero _)
    | succ n =>
      rw [toBoundary, bind_of_ok (isAtEnd_eq hA)]
      simp only [List.isEmpty_cons, Bool.not_false, if_true]
      rw [bind_of_ok hlast, bind_of_ok (peek_eq hA), skipToBoundary, List.head?_cons,
        Option.getD_some]
      split
      · exact ⟨c, rfl, hA⟩
      · rw [bind_of_ok (advance_eq hA rfl)]
        exact ih (previous_step hA rfl) (hA.step rfl) (Nat.lt_of_succ_lt_succ hn)

theorem synchronize_eq (hA : Agrees ts before top k c s) (hn : s.rest.length < n) :
    ∃ c', synchronize ts n c = .ok () c' ∧
      Agrees ts before top k c' ⟨Lox.synchronize s.rest, s.reports⟩ := by
  obtain ⟨rest, reports⟩ := s
  cases rest with
  | nil =>
    -- nothing is passed here, whichever token is before the cursor
    obtain ⟨last, hlast⟩ : ∃ last, previous ts c = .ok last c := by
      rw [previous]
      cases c.current <;> exact ⟨_, rfl⟩
    have hadvance : advance ts c = .ok last c := by
      rw [advance, bind_of_ok (isAtEnd_eq hA)]
      exact hlast
    rw [synchronize, bind_of_ok hadvance]
    exact toBoundary_eq hA hlast hn
  | cons t us =>
    rw [synchronize, bind_of_ok (advance_eq hA rfl)]
    exact toBoundary_eq (hA.step rfl) (previous_step hA rfl) (Nat.lt_of_succ_lt hn)

/-! ### Programs -/

/-- What is left when a call has dealt with the end of its reading, and all that has been found. -/
def settled {α : Type} : EStateM.Result Problem Progress α → Progress
  | .ok _ s => s
  | .error e s => ⟨Lox.synchronize s.rest, s.reports.push e⟩

/-- Declarations are read alike, and the error that stops one is dealt with and noted. -/
theorem programFrom_eq {size rounds : Nat} (htop : maxNesting ≤ top)
    (hA : Agrees ts before top 0 c s) (hs : s.rest.length ≤ size) (hn : size + maxNesting < n)
    {j : Nat} (hj : s.rest.length < j) (hrounds : s.rest.length ≤ rounds) (stmts : Array Stmt) :
    let read := Parse.programFrom (Parse.declaration size maxNesting) rounds stmts s
    ∃ found c', programFrom ts n j stmts c = .ok found c' ∧
      Agrees ts before top 0 c' (settled read) ∧ ∀ ss s', read = .ok ss s' → found.toList = ss := by
  have hd : Keeps ts before top size 0 1 (declaration ts n) (Parse.declaration size maxNesting) :=
    Production.keeps htop hn (Nat.le_refl size) .declaration
  induction j generalizing c s rounds stmts with
  | zero => exact absurd hj (Nat.not_lt_zero _)
  | succ j ih =>
    have hend : Parse.atEnd s = .ok s.rest.isEmpty s := rfl
    rw [programFrom, bind_of_ok (isAtEnd_eq hA)]
    by_cases hempty : s.rest = []
    · have hread : Parse.programFrom (Parse.declaration size maxNesting) rounds stmts s =
          .ok stmts.toList s := by
        cases rounds with
        | zero => rfl
        | succ rounds =>
          rw [Parse.programFrom, bind_of_ok hend, hempty]
          rfl
      rw [hread, hempty]
      refine ⟨stmts, c, rfl, hA, fun ss s' h => (EStateM.Result.ok.inj h).1⟩
    · have hsome : s.rest.isEmpty = false := by simpa using hempty
      have hpos : 0 < s.rest.length := List.length_pos_iff.mpr hempty
      obtain ⟨rounds, rfl⟩ := Nat.exists_eq_add_of_le' (Nat.le_trans hpos hrounds)
      rw [Parse.programFrom, bind_of_ok hend, hsome]
      simp only [Bool.not_false, if_true, Bool.false_eq_true, if_false]
      have hends := hd c s hA hs
      generalize hwalk : declaration ts n c = x at hends
      generalize hparse : Parse.declaration size maxNesting s = y at hends
      have hlen := hA.length_rest
      cases hends with
      | @ok x c₁ s₁ hA₁ hle =>
        have hcaught : caught (declaration ts n) c = .ok (.ok x) c₁ := by rw [caught, hwalk]
        have hlen₁ := hA₁.length_rest
        rw [bind_of_ok hcaught, bind_of_ok hparse]
        exact ih hA₁ (by omega) (by omega) (by omega) (stmts.push x)
      | @error e c₁ s₁ hA₁ hle =>
        let error := e.toError (Parser.ofTokens ts).stop
        have hcaught : caught (declaration ts n) c = .ok (.error error) c₁ := by rw [caught, hwalk]
        have hlen₁ := hA₁.length_rest
        obtain ⟨c', hsync, hA'⟩ := synchronize_eq hA₁ (n := n) (by omega)
        rw [bind_of_ok hcaught, bind_of_error hparse]
        simp only [bind_of_ok hsync]
        refine ⟨stmts, _, rfl, ⟨hA'.current, hA'.rest, hA'.nesting, hA'.peak, ?_⟩, ?_⟩
        · simp [settled, hA'.reports, error]
        · intro ss s' h
          cases h

end Walk

/-! ### Calls -/

namespace Cursor

variable {ts : List Token} {c : Cursor} {n m : Nat}

/-- What holds of a cursor between calls: it is not behind the first end marker, no level is open,
and nothing has been reported. -/
structure Idle (ts : List Token) (c : Cursor) : Prop where
  inside : c.current ≤ ts.findIdx Token.isEof
  nesting : c.nesting = 0
  reports : c.reports = #[]

theorem Idle.start (ts : List Token) : Idle ts .start := ⟨Nat.zero_le _, rfl, rfl⟩

/-- The parser of the tokens that are left behind a cursor. -/
def left (ts : List Token) (c : Cursor) : Parser :=
  (Parser.ofTokens ts).leaving ((Parser.ofTokens ts).rest.drop c.current) (List.drop_suffix _ _)

@[simp] theorem left_rest : (c.left ts).rest = (Parser.ofTokens ts).rest.drop c.current := rfl

@[simp] theorem left_stop : (c.left ts).stop = (Parser.ofTokens ts).stop := rfl

theorem left_start (ts : List Token) : left ts .start = .ofTokens ts := rfl

theorem Idle.length_left (h : c.Idle ts) :
    (c.left ts).rest.length + c.current = ts.findIdx Token.isEof := by
  have hinside := h.inside
  rw [left, Parser.leaving, List.length_drop, Parser.length_rest]
  omega

variable (hn : ts.findIdx Token.isEof + maxNesting < n)
include hn

/-- A call does what a call of the parser of the tokens that are left does. -/
theorem Idle.parse (h : c.Idle ts) :
    ∃ c', Walk.parse ts n c = .ok (c.left ts).parse.1 c' ∧ c'.Idle ts ∧
      c'.left ts = (c.left ts).parse.2 := by
  have hA : Walk.Agrees ts #[] (max c.peak maxNesting) 0 c ⟨(c.left ts).rest, #[]⟩ :=
    ⟨h.inside, rfl, h.nesting, Nat.le_max_left .., by simp [h.reports]⟩
  have hsize : (c.left ts).rest.length ≤ ts.findIdx Token.isEof :=
    h.length_left ▸ Nat.le_add_right _ _
  obtain ⟨found, c₁, hwalk, hA₁, hfound⟩ :=
    Walk.programFrom_eq (Nat.le_max_right ..) hA (Nat.le_refl (c.left ts).rest.length)
      (n := n) (by omega) (j := n) (by simp only; omega) (Nat.le_refl _) #[]
  have hcall : Walk.parse ts n c = .ok (if c₁.reports.isEmpty then .ok found.toList
      else .error c₁.reports.toList) { c₁ with reports := #[] } := by
    rw [Walk.parse, bind_of_ok hwalk]
    rfl
  have hidle : Idle ts { c₁ with reports := #[] } := ⟨hA₁.current, hA₁.nesting, rfl⟩
  have hstop : (Parser.ofTokens ts).stop = (c.left ts).parse.2.stop :=
    (Parser.parse_stop (c.left ts)).symm
  have hrest := hA₁.rest
  have hreports := hA₁.reports
  rw [← Parse.program] at hrest hreports hfound
  cases hrun : Parse.program (c.left ts).rest.length ⟨(c.left ts).rest, #[]⟩ with
  | ok ss s =>
    rw [hrun] at hrest hreports hfound
    obtain ⟨hanswer, hleft⟩ := Parser.parse_of_ok hrun
    refine ⟨_, ?_, hidle, Parser.ext (hrest.symm.trans hleft.symm) hstop⟩
    rw [hcall, hanswer, hreports, hfound ss s rfl]
    simp [Walk.settled]
  | error e s =>
    rw [hrun] at hrest hreports
    obtain ⟨hanswer, hleft⟩ := Parser.parse_of_error hrun
    refine ⟨_, ?_, hidle, Parser.ext (hrest.symm.trans hleft.symm) hstop⟩
    rw [hcall, hanswer, hreports]
    simp [Walk.settled]

/-- So do any number of calls, one after the other. -/
theorem Idle.calls (h : c.Idle ts) (m : Nat) :
    ∃ c', Walk.calls ts n m c = .ok () c' ∧ c'.Idle ts ∧ c'.left ts = (c.left ts).after m := by
  induction m with
  | zero => exact ⟨c, rfl, h, rfl⟩
  | succ m ih =>
    obtain ⟨c₁, hcalls, hidle, hleft⟩ := ih
    obtain ⟨c₂, hparse, hidle', hleft'⟩ := hidle.parse hn
    refine ⟨c₂, ?_, hidle', by rw [hleft', hleft, Parser.after]⟩
    rw [Walk.calls, bind_of_ok hcalls, bind_of_ok hparse]
    rfl

theorem Idle.answer (h : c.Idle ts) (m : Nat) :
    ∃ c', Walk.answer ts n m c = .ok ((c.left ts).answer m) c' ∧ c'.Idle ts ∧
      c'.left ts = (c.left ts).after (m + 1) := by
  obtain ⟨c₁, hcalls, hidle, hleft⟩ := h.calls hn m
  obtain ⟨c₂, hparse, hidle', hleft'⟩ := hidle.parse hn
  refine ⟨c₂, ?_, hidle', by rw [hleft', hleft, Parser.after]⟩
  rw [Walk.answer, bind_of_ok hcalls, hparse, hleft, Parser.answer]

end Cursor
end Lox
