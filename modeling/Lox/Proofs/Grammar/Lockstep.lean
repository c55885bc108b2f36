import Lox.Proofs.Grammar.Like
import Lox.Proofs.Grammar.Logic

/-!
Parsing in lockstep. Parsing looks at the kinds of tokens and at nothing else, so two runs over
tokens that are alike end in the same way: with trees that are alike, or at the same flaw with
tokens that are alike. So do calls of two parsers, one after the other, and each call leaves tokens
that are alike.
-/

namespace Lox

/-- Trees of one shape, with tokens related by `R` at the same place in both. -/
def Likeness.ofTokens (R : Token → Token → Prop) (hkind : ∀ {t t'}, R t t' → t.kind = t'.kind)
    (hvalue : ∀ {t t'}, R t t' → t.value = t'.value) : Likeness where
  LikeToken := R
  LikeExpr := Expr.Like R
  LikeStmt := Stmt.Like R
  kind := hkind
  literal {t t' v v'} ht hv hv' := by
    have hsame : t.literal? = t'.literal? := by
      rw [Token.literal?, Token.literal?, hkind ht, hvalue ht]
    obtain rfl : v = v' := Option.some.inj (hv.symm.trans (hsame.trans hv'))
    exact .literal v
  always := .literal _
  «variable» := .variable
  target h := by
    cases h with
    | «variable» hx => exact .inl ⟨_, _, rfl, rfl, hx⟩
    | _ => exact .inr ⟨by simp, by simp⟩
  assign := .assign
  unary := .unary
  binary := .binary
  logical := .logical
  grouping := .grouping
  call := .call
  expression := .expression
  print := .print
  var := .var
  function := .function
  block := .block
  branch hc hyes hno := by
    cases hno with
    | none => exact .lone hc hyes
    | some hno => exact .both hc hyes hno
  loop := .loop
  ret := .ret

namespace Likeness

variable (L : Likeness)

theorem isEof {t t' : Token} (h : L.LikeToken t t') : t.isEof = t'.isEof := by
  rw [Token.isEof, Token.isEof, L.kind h]

/-- The same flaw at tokens that are alike. -/
def LikeProblem (e e' : Problem) : Prop := e.flaw = e'.flaw ∧ Option.Rel L.LikeToken e.spot e'.spot

/-- The tokens left are alike, and so are the flaws reported. -/
structure LikeProgress (s s' : Progress) : Prop where
  rest : List.Forall₂ L.LikeToken s.rest s'.rest
  reports : List.Forall₂ L.LikeProblem s.reports.toList s'.reports.toList

/-- Two steps end alike. -/
inductive Ends {α : Type} (R : α → α → Prop) :
    EStateM.Result Problem Progress α → EStateM.Result Problem Progress α → Prop where
  | ok {a a' s s'} : R a a' → L.LikeProgress s s' → Ends R (.ok a s) (.ok a' s')
  | error {e e' s s'} : L.LikeProblem e e' → L.LikeProgress s s' →
      Ends R (.error e s) (.error e' s')

variable {L} {s s' : Progress}

theorem Ends.bind {α β : Type} {R : α → α → Prop} {R' : β → β → Prop} {p p' : Parse α}
    {f f' : α → Parse β} (h : L.Ends R (p s) (p' s'))
    (hf : ∀ a a' s₁ s₁', R a a' → L.LikeProgress s₁ s₁' → L.Ends R' (f a s₁) (f' a' s₁')) :
    L.Ends R' ((p >>= f) s) ((p' >>= f') s') := by
  generalize hx : p s = x at h
  generalize hx' : p' s' = x' at h
  cases h with
  | ok ha hs =>
    rw [Step.bind_of_ok hx, Step.bind_of_ok hx']
    exact hf _ _ _ _ ha hs
  | error he hs =>
    rw [Step.bind_of_error hx, Step.bind_of_error hx']
    exact .error he hs

namespace LikeProgress

theorem head (h : L.LikeProgress s s') : Option.Rel L.LikeToken s.rest.head? s'.rest.head? := by
  obtain ⟨ts, r⟩ := s
  obtain ⟨ts', r'⟩ := s'
  cases h.rest with
  | nil => exact .none
  | cons ht _ => exact .some ht

theorem fail {α : Type} {R : α → α → Prop} (h : L.LikeProgress s s') (flaw : Flaw) :
    L.Ends R (Parse.fail flaw s) (Parse.fail flaw s') :=
  .error ⟨rfl, h.head⟩ h

theorem reportAt (h : L.LikeProgress s s') (flaw : Flaw) {spot spot' : Option Token}
    (hspot : Option.Rel L.LikeToken spot spot') :
    L.Ends Eq (Parse.reportAt flaw spot s) (Parse.reportAt flaw spot' s') := by
  refine .ok rfl ⟨h.rest, ?_⟩
  rw [Array.toList_push, Array.toList_push]
  exact List.rel_append h.reports (.cons ⟨rfl, hspot⟩ .nil)

theorem atEnd (h : L.LikeProgress s s') : L.Ends Eq (Parse.atEnd s) (Parse.atEnd s') := by
  refine .ok ?_ h
  rw [Bool.eq_iff_iff, List.isEmpty_iff_length_eq_zero, List.isEmpty_iff_length_eq_zero,
    h.rest.length_eq]

theorem nextIs (h : L.LikeProgress s s') (k : Kind) :
    L.Ends Eq (Parse.nextIs k s) (Parse.nextIs k s') := by
  obtain ⟨ts, r⟩ := s
  obtain ⟨ts', r'⟩ := s'
  cases h.rest with
  | nil => exact .ok rfl h
  | cons ht _ => exact .ok (by rw [L.kind ht]) h

/-- Whether a token is taken depends on its kind alone. -/
theorem takeIf (h : L.LikeProgress s s') (q : Kind → Bool) :
    L.Ends (Option.Rel L.LikeToken) (Parse.takeIf q s) (Parse.takeIf q s') := by
  obtain ⟨ts, r⟩ := s
  obtain ⟨ts', r'⟩ := s'
  cases h.rest with
  | nil => exact .ok .none h
  | cons ht hts =>
    rw [Parse.takeIf, Parse.takeIf]
    simp only [L.kind ht]
    split
    · exact .ok (.some ht) ⟨hts, h.reports⟩
    · exact .ok .none h

theorem expect (h : L.LikeProgress s s') (slot : Slot) :
    L.Ends L.LikeToken (Parse.expect slot s) (Parse.expect slot s') := by
  refine (h.takeIf _).bind fun o o' s₁ s₁' ho hs => ?_
  cases ho with
  | none => exact hs.fail _
  | some ht => exact .ok ht hs

end LikeProgress

/-- What steps over tokens that are alike have in common: they end alike. -/
def lockstep (L : Likeness) : Parse.Logic where
  toLikeness := L
  Holds R p p' := ∀ s s', L.LikeProgress s s' → L.Ends R (p s) (p' s')
  pure ha _ _ hs := .ok ha hs
  bind hp hf s s' hs := (hp s s' hs).bind fun _ _ _ _ ha => hf _ _ ha _ _
  fail flaw _ _ hs := hs.fail flaw
  report flaw _ _ hs := hs.reportAt flaw hs.head
  reportAt flaw _ _ ht _ _ hs := hs.reportAt flaw (.some ht)
  atEnd _ _ hs := hs.atEnd
  nextIs _ _ _ hs := hs.nextIs _
  takeIf _ _ _ hs := hs.takeIf _
  expect slot _ _ hs := hs.expect slot

end Likeness

namespace Parser
open Likeness

variable {L : Likeness} {ts ts' : List Token}

theorem declaration_lockstep (size n : Nat) :
    L.lockstep.Holds L.LikeStmt (Parse.declaration size n) (Parse.declaration size n) := by
  refine (L.lockstep.declaration_statement (fun n h => ?_) n).1
  rw [Parse.statement, Parse.statementLevel_eq]
  exact fun s s' hs => (hs.takeIf _).bind fun o o' _ _ ho => h o o' ho _ _

/-- Programs over tokens that are alike end alike. -/
theorem program_ends (hts : List.Forall₂ L.LikeToken ts ts') :
    L.Ends (List.Forall₂ L.LikeStmt) (Parse.program ts.length ⟨ts, #[]⟩)
      (Parse.program ts'.length ⟨ts', #[]⟩) := by
  have hstart : L.LikeProgress ⟨ts, #[]⟩ ⟨ts', #[]⟩ := ⟨hts, .nil⟩
  rw [← hts.length_eq]
  exact L.lockstep.programFrom (declaration_lockstep ts.length maxNesting) _ .nil _ _ hstart

theorem rest_like (hts : List.Forall₂ L.LikeToken ts ts') :
    List.Forall₂ L.LikeToken (ofTokens ts).rest (ofTokens ts').rest := by
  induction hts with
  | nil => exact .nil
  | cons ht _ ih =>
    simp only [ofTokens, List.takeWhile_cons, ← L.isEof ht] at ih ⊢
    split
    · exact .cons ht ih
    · exact .nil

/-- What parses still does when its tokens are put in place of others that are like them. -/
theorem parse_like (hts : List.Forall₂ L.LikeToken ts ts') {ss : List Stmt}
    (h : (ofTokens ts).parse.1 = .ok ss) :
    ∃ ss', (ofTokens ts').parse.1 = .ok ss' ∧ List.Forall₂ L.LikeStmt ss ss' := by
  have hrun := Parse.program_eq_ok.mpr ⟨#[], parse_ok_iff.mp h, rfl⟩
  have hends := program_ends (rest_like hts)
  generalize hrun' :
    Parse.program (ofTokens ts').rest.length ⟨(ofTokens ts').rest, #[]⟩ = x at hends
  rw [hrun] at hends
  cases hends with
  | @ok _ ss' _ s' hss hs =>
    obtain ⟨fl, hread, rfl⟩ := Parse.program_eq_ok.mp hrun'
    have hfl : fl = #[] := by simpa using hs.reports
    exact ⟨ss', parse_ok_iff.mpr (hfl ▸ hread), hss⟩

end Parser

/-! ### Calls side by side -/

namespace Likeness

variable (L : Likeness)

/-- The same flaw at tokens that are alike. -/
def LikeError (e e' : GrammarError) : Prop := e.flaw = e'.flaw ∧ L.LikeToken e.token e'.token

/-- Trees that are alike, or errors that are alike one by one. -/
inductive LikeAnswer :
    Except (List GrammarError) (List Stmt) → Except (List GrammarError) (List Stmt) → Prop where
  | ok {ss ss'} : List.Forall₂ L.LikeStmt ss ss' → LikeAnswer (.ok ss) (.ok ss')
  | error {es es'} : List.Forall₂ L.LikeError es es' → LikeAnswer (.error es) (.error es')

/-- Parsers that have tokens left which are alike, with end markers that are alike. -/
structure LikeParser (p p' : Parser) : Prop where
  rest : List.Forall₂ L.LikeToken p.rest p'.rest
  stop : L.LikeToken p.stop p'.stop

variable {L} {p p' : Parser}

theorem skipToBoundary_like {t t' : Token} {ts ts' : List Token} (ht : L.LikeToken t t')
    (hts : List.Forall₂ L.LikeToken ts ts') :
    List.Forall₂ L.LikeToken (skipToBoundary t ts) (skipToBoundary t' ts') := by
  induction hts generalizing t t' with
  | nil => exact .nil
  | cons hu hts ih =>
    rw [skipToBoundary, skipToBoundary, L.kind ht, L.kind hu]
    split
    · exact .cons hu hts
    · exact ih hu

theorem synchronize_like {ts ts' : List Token} (hts : List.Forall₂ L.LikeToken ts ts') :
    List.Forall₂ L.LikeToken (synchronize ts) (synchronize ts') := by
  cases hts with
  | nil => exact .nil
  | cons ht hts => exact skipToBoundary_like ht hts

theorem find?_like {ts ts' : List Token} (hts : List.Forall₂ L.LikeToken ts ts') :
    Option.Rel L.LikeToken (ts.find? (·.isEof)) (ts'.find? (·.isEof)) := by
  induction hts with
  | nil => exact .none
  | @cons _ t' _ _ ht _ ih =>
    rw [List.find?_cons, List.find?_cons, L.isEof ht]
    cases t'.isEof with
    | true => exact .some ht
    | false => exact ih

namespace LikeParser

theorem toError (h : L.LikeParser p p') {q q' : Problem} (hq : L.LikeProblem q q') :
    L.LikeError (q.toError p.stop) (q'.toError p'.stop) := by
  obtain ⟨flaw, spot⟩ := q
  obtain ⟨flaw', spot'⟩ := q'
  obtain ⟨hflaw, hspot⟩ := hq
  refine ⟨hflaw, ?_⟩
  cases hspot with
  | none => exact h.stop
  | some ht => exact ht

theorem toErrors (h : L.LikeParser p p') {qs qs' : List Problem}
    (hqs : List.Forall₂ L.LikeProblem qs qs') :
    List.Forall₂ L.LikeError (qs.map (·.toError p.stop)) (qs'.map (·.toError p'.stop)) := by
  induction hqs with
  | nil => exact .nil
  | cons hq _ ih => exact .cons (h.toError hq) ih

/-- A call of each of them gives answers that are alike, and leaves them alike. -/
theorem parse (h : L.LikeParser p p') :
    L.LikeAnswer p.parse.1 p'.parse.1 ∧ L.LikeParser p.parse.2 p'.parse.2 := by
  have hends := Parser.program_ends h.rest
  have hstop : L.LikeToken p.parse.2.stop p'.parse.2.stop := by
    rw [Parser.parse_stop, Parser.parse_stop]
    exact h.stop
  generalize hrun : Parse.program p.rest.length ⟨p.rest, #[]⟩ = x at hends
  generalize hrun' : Parse.program p'.rest.length ⟨p'.rest, #[]⟩ = x' at hends
  cases hends with
  | @ok _ _ s s' hss hs =>
    obtain ⟨hanswer, hrest⟩ := Parser.parse_of_ok hrun
    obtain ⟨hanswer', hrest'⟩ := Parser.parse_of_ok hrun'
    refine ⟨?_, by rw [hrest, hrest']; exact hs.rest, hstop⟩
    have hsize : s.reports.size = s'.reports.size := hs.reports.length_eq
    have hempty : s.reports.isEmpty = s'.reports.isEmpty := by
      rw [Array.isEmpty, Array.isEmpty, hsize]
    rw [hanswer, hanswer', hempty]
    cases s'.reports.isEmpty with
    | true => exact .ok hss
    | false => exact .error (h.toErrors hs.reports)
  | error he hs =>
    obtain ⟨hanswer, hrest⟩ := Parser.parse_of_error hrun
    obtain ⟨hanswer', hrest'⟩ := Parser.parse_of_error hrun'
    refine ⟨?_, by rw [hrest, hrest']; exact synchronize_like hs.rest, hstop⟩
    rw [hanswer, hanswer']
    exact .error (h.toErrors (List.rel_append hs.reports (.cons he .nil)))

/-- Parsers of tokens that are alike, if there is an end marker among these. -/
theorem ofTokens {ts ts' : List Token} (hts : List.Forall₂ L.LikeToken ts ts')
    (hend : ∃ t ∈ ts, t.isEof = true) : L.LikeParser (.ofTokens ts) (.ofTokens ts') := by
  refine ⟨Parser.rest_like hts, ?_⟩
  obtain ⟨e, he⟩ := Option.isSome_iff_exists.mp (List.find?_isSome.mpr hend)
  have hfind := find?_like hts
  rw [Parser.stop_ofTokens, Parser.stop_ofTokens]
  rw [he] at hfind ⊢
  generalize ts'.find? (·.isEof) = e' at hfind ⊢
  cases hfind with
  | some h => exact h

end LikeParser

end Likeness
end Lox
