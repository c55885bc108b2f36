import Lox.Error
import Lox.Proofs.Grammar.Lookahead
import Lox.Proofs.Grammar.Viable
import Mathlib.Data.List.TakeWhile

/-!
Fatal errors come as early as they can. What was read before the token at which parsing stops can
be gone on with to a program, and no program begins with it and that token.
-/

namespace Lox
open Parse

namespace Parse

/-- No program is there where reading stops, whatever comes behind the next token, and however many
rounds there are. -/
theorem not_derives_of_rounds {m : Nat} {us vs vs' : List Token} {e : Problem} {r : Array Problem}
    (hm : (us ++ vs).length ≤ m) (h : program m ⟨us ++ vs, #[]⟩ = .error e ⟨vs, r⟩)
    (hflaw : e.flaw ≠ .tooMuchNesting) (hnext : vs.head? = vs'.head?) (n : Nat) :
    ¬Derives .any .declarations n (kinds (us ++ vs')) := by
  intro hderives
  -- with enough rounds and levels the other program would be read to its end
  obtain ⟨k, hderives⟩ := hderives.nearest
  obtain ⟨ss, fl, hread⟩ := (hderives.mono (Nat.le_max_right maxNesting k)).read rfl
  let size := max m (us ++ vs').length
  have hsize : (us ++ vs').length ≤ size := Nat.le_max_right _ _
  have hd := (declaration_statement_complete size (max maxNesting k)).1
  have hok := programFrom_complete hd (Reading.declaration_starts _) hread size #[] #[] hsize hsize
  have hfollows := Follows.program (Nat.le_max_left m (us ++ vs').length)
    (Nat.le_max_left maxNesting k)
  have herror := hfollows.error ⟨hnext, hm, hsize⟩ h hflaw
  rw [herror] at hok
  cases hok

theorem not_derives_of_error {us vs vs' : List Token} {e : Problem} {r : Array Problem}
    (h : program (us ++ vs).length ⟨us ++ vs, #[]⟩ = .error e ⟨vs, r⟩)
    (hflaw : e.flaw ≠ .tooMuchNesting) (hnext : vs.head? = vs'.head?) (n : Nat) :
    ¬Derives .any .declarations n (kinds (us ++ vs')) :=
  not_derives_of_rounds (Nat.le_refl _) h hflaw hnext n

end Parse

theorem exists_kinds (w : List Kind) : ∃ ts, kinds ts = w :=
  ⟨w.map fun k => ⟨k, "", 0, 0, 0, .nil⟩, by simp [kinds, Function.comp_def]⟩

namespace Parser

/-- Behind the tokens that are parsed stands the first end marker, if there is one. -/
theorem getElem?_length (ts : List Token) :
    ts[(ts.takeWhile (!·.isEof)).length]? = ts.find? (·.isEof) := by
  induction ts with
  | nil => rfl
  | cons t ts ih => cases ht : t.isEof <;> simp [ht, ih]

section
variable {ts us vs : List Token}

theorem take_of_split (h : (ofTokens ts).rest = us ++ vs) : ts.take us.length = us := by
  obtain ⟨ws, hws⟩ := List.takeWhile_prefix (fun t : Token => !t.isEof) (l := ts)
  rw [← hws, show ts.takeWhile (!·.isEof) = us ++ vs from h, List.append_assoc, List.take_left]

/-- The token that comes next is the one at its place, or else what stands for an end marker. -/
theorem next_of_split (h : (ofTokens ts).rest = us ++ vs) :
    vs.head?.getD (ofTokens ts).stop = ts[us.length]?.getD (.standIn ts) := by
  have h : ts.takeWhile (!·.isEof) = us ++ vs := h
  cases vs with
  | nil =>
    have hstop := getElem?_length ts
    rw [h, List.append_nil] at hstop
    rw [hstop]
    rfl
  | cons t vs =>
    obtain ⟨ws, hws⟩ := List.takeWhile_prefix (fun t : Token => !t.isEof) (l := ts)
    rw [← hws, h]
    simp

/-- Only at the end of all tokens is the next one an end marker. -/
theorem end_of_isEof (h : (ofTokens ts).rest = us ++ vs)
    (heof : (vs.head?.getD (ofTokens ts).stop).isEof = true) : vs = [] := by
  cases vs with
  | nil => rfl
  | cons t vs =>
    have hnot := (ofTokens ts).isEof_rest t (by simp [h])
    exact absurd heof (by simp [hnot])

end

/-- A fatal error is the problem at which reading stopped. -/
theorem exists_problem {p : Parser} {es : List GrammarError} {e : GrammarError}
    (h : p.parse.1 = .error es) (he : e ∈ es) (hfatal : e.flaw.fatal = true) :
    ∃ problem s, Parse.program p.rest.length ⟨p.rest, #[]⟩ = .error problem s ∧
      e = problem.toError p.stop := by
  obtain ⟨s, hs, ⟨_, -, -, rfl⟩ | ⟨problem, hrun, -, rfl⟩⟩ := of_parse_error h
  · rw [hs.error he] at hfatal
    cases hfatal
  · rcases List.mem_append.mp he with he | he
    · rw [hs.error he] at hfatal
      cases hfatal
    · exact ⟨problem, s, hrun, List.mem_singleton.mp he⟩

/-- Parsing `ts` ended at the error `e` with the parser at the token at `k`. -/
def StopsAt (ts : List Token) (k : Nat) (e : GrammarError) : Prop :=
  ∃ problem s, Parse.program (ofTokens ts).rest.length ⟨(ofTokens ts).rest, #[]⟩ =
      .error problem s ∧
    e = problem.toError (ofTokens ts).stop ∧
    k ≤ (ofTokens ts).rest.length ∧ s.rest = (ofTokens ts).rest.drop k

end Parser

/-- A token of kind `k` behind `w` is an error, and the first one: `w` is the beginning of a
program, no program begins with `w` and `k`, and when `k` is the end `w` is no program itself. -/
structure FirstError (w : List Kind) (k : Kind) : Prop where
  viable : ∃ n v, Derives .any .declarations n (w ++ v)
  refused : ∀ n v, ¬Derives .any .declarations n (w ++ k :: v)
  unfinished : k = .eof → ∀ n, ¬Derives .any .declarations n w

/-- Fatal errors come as early as they can. Where one of them ends parsing, it is at the token that
the parser stands at and on the line of that token. Unless it is about nesting, this token is the
first that is an error, whatever levels of nesting may be opened. -/
theorem Parser.fatal_earliest (ts : List Token) {es : List GrammarError} {e : GrammarError}
    (h : (ofTokens ts).parse.1 = .error es) (he : e ∈ es) (hfatal : e.flaw.fatal = true) :
    ∃ k, StopsAt ts k e ∧ e.token = ts[k]?.getD (.standIn ts) ∧
      (Error.grammar e).line = e.token.line ∧
      (e.flaw ≠ .tooMuchNesting → FirstError (kinds (ts.take k)) e.token.kind) := by
  obtain ⟨problem, ⟨vs, r⟩, hrun, rfl⟩ := exists_problem h he hfatal
  obtain ⟨hspot, us, hsplit, hviable⟩ := (Viable.program _).error hrun
  have hsplit : (ofTokens ts).rest = us ++ vs := hsplit
  have htoken : (problem.toError (ofTokens ts).stop).token = vs.head?.getD (ofTokens ts).stop := by
    rw [Problem.toError, hspot]
  have hstops : StopsAt ts us.length (problem.toError (ofTokens ts).stop) :=
    ⟨problem, ⟨vs, r⟩, hrun, rfl, by simp [hsplit], by simp [hsplit]⟩
  rw [hsplit] at hrun
  refine ⟨us.length, hstops, htoken.trans (next_of_split hsplit), rfl, fun hflaw => ?_⟩
  rw [take_of_split hsplit, htoken]
  refine ⟨?_, fun n v hderives => ?_, fun heof n hderives => ?_⟩
  · obtain ⟨v, n, hv⟩ := hviable hflaw
    exact ⟨n, v, hv⟩
  · cases vs with
    | nil =>
      have heof : (ofTokens ts).stop.kind = .eof := eq_of_beq (ofTokens ts).isEof_stop
      exact hderives.eof_not_mem (by simp [heof])
    | cons t vs =>
      obtain ⟨ws, rfl⟩ := exists_kinds v
      have hnext : (t :: vs).head? = (t :: ws).head? := rfl
      exact not_derives_of_error hrun hflaw hnext n (by simpa using hderives)
  · obtain rfl := end_of_isEof hsplit (beq_iff_eq.mpr heof)
    exact not_derives_of_error hrun hflaw rfl n (by simpa using hderives)

/-- What is to be printed is missed at the semicolon, which is the second token. -/
theorem Parser.fatal_earliest_print :
    let semi : Token := ⟨.semicolon, ";", 1, 5, 1, .nil⟩
    let ts : List Token := [⟨.kwPrint, "print", 1, 0, 0, .nil⟩, semi]
    let e : GrammarError := ⟨.noExpression, semi⟩
    (ofTokens ts).parse.1 = .error [e] ∧ e ∈ [e] ∧ e.flaw.fatal = true ∧
    ∃ k, StopsAt ts k e ∧ e.token = ts[k]?.getD (.standIn ts) ∧
      (Error.grammar e).line = e.token.line ∧
      (e.flaw ≠ .tooMuchNesting → FirstError (kinds (ts.take k)) e.token.kind) := by
  intro semi ts e
  have h : (ofTokens ts).parse.1 = .error [e] := rfl
  have he : e ∈ [e] := List.mem_singleton.mpr rfl
  exact ⟨h, he, rfl, fatal_earliest ts h he rfl⟩

end Lox
