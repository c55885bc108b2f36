import Lox.Proofs.Run.Proper
import Lox.Proofs.Session.Errors

/-!
The faults of sessions. Whatever functions are kept from earlier runs, a fault is a documented one,
and it shows at a token of a source that was run.
-/

namespace Lox
open BigStep Run

namespace Session

/-- Sessions after runs of `srcs`, the last one first, each of which has ended. -/
inductive Ran (κ : Nat → Float) (out : Output) : List String → Session → Prop where
  | start : Ran κ out [] (Session.start κ out)
  | run {srcs s n src} : Ran κ out srcs s → (s.run n src).1.result ≠ .exhausted →
      Ran κ out (src :: srcs) (s.run n src).2

/-- The tokens of some sources. -/
def TokenOf (srcs : List String) (t : Token) : Prop := ∃ src ∈ srcs, t ∈ (scan src).1

variable {κ : Nat → Float} {out : Output} {T : Token → Prop} {s : Session} {src : String}
  {srcs : List String} {n : Nat}

theorem Reached.ran (hs : Reached κ out s) : ∃ srcs, Ran κ out srcs s := by
  induction hs with
  | start => exact ⟨[], .start⟩
  | run _ hend ih =>
    obtain ⟨srcs, hran⟩ := ih
    exact ⟨_, hran.run hend⟩

/-- A source that is read has its tokens where they belong. -/
theorem parseSource_proper {program : List Stmt} (hT : ∀ t ∈ (scan src).1, T t)
    (h : parseSource src = .ok program) : ∀ st ∈ program, st.Proper T :=
  Parser.parse_proper hT (parseSource_eq_ok.mp h).2

/-- The tokens of all sources that were run are enough. -/
theorem Ran.proper (hs : Ran κ out srcs s) (hT : ∀ src ∈ srcs, ∀ t ∈ (scan src).1, T t) :
    s.machine.heap.Proper T := by
  induction hs with
  | start => exact .start
  | run _ hend ih =>
    obtain ⟨hsrc, hsrcs⟩ := List.forall_mem_cons.mp hT
    rcases run_ended hend with hsame | ⟨program, r, m, hparse, hrun, hsession⟩
    · rw [hsame]
      exact ih hsrcs
    · rw [hsession]
      cases (sequence_outcome hrun).2.proper (parseSource_proper hsrc hparse) (ih hsrcs) with
      | ok _ hm | error _ hm => exact hm

/-- A run that reports a fault has run a program, and it has ended with the fault. -/
theorem run_faulted {errors : List Error} {f : Fault} (h : (s.run n src).1.result = .failed errors)
    (hf : .runtime f ∈ errors) : ∃ program m, parseSource src = .ok program ∧
      sequence (exec n) program s.machine.ready = .error (.fault f) m := by
  cases hparse : parseSource src with
  | error found =>
    rw [run, hparse] at h
    obtain rfl := Result.failed.inj h
    obtain ⟨-, rfl⟩ := parseSource_eq_error.mp hparse
    cases isStatic_of_mem hf
  | ok program =>
    rw [run_of_parse hparse] at h
    cases hseq : sequence (exec n) program s.machine.ready with
    | ok flow m => simp [hseq, concluded] at h
    | error e m =>
      cases e with
      | exhausted => simp [hseq, concluded] at h
      | fault g =>
        obtain rfl : [.runtime g] = errors := by simpa [hseq, concluded] using h
        obtain rfl : f = g := by simpa using hf
        exact ⟨program, m, rfl, hseq⟩

/-- The code at every point of a session is proper, and so is all that is kept there. -/
theorem Occurs.proper {p : Point} (hp : Occurs κ out p) : ∃ T, p.Proper T := by
  obtain ⟨s, src, program, hs, hparse, hp⟩ := hp
  obtain ⟨srcs, hran⟩ := hs.ran
  have hT : ∀ src' ∈ src :: srcs, ∀ t ∈ (scan src').1, TokenOf (src :: srcs) t :=
    fun src' hsrc t ht => ⟨src', hsrc, ht⟩
  obtain ⟨hsrc, hsrcs⟩ := List.forall_mem_cons.mp hT
  exact ⟨_, hp.proper ⟨parseSource_proper hsrc hparse, hran.proper hsrcs⟩⟩

/-- Faults over sessions. Every fault that a run reports shows at a token of its source or of one
that was run before it, on the line of that token, and it is a documented fault for such a token.
Nowhere in a session is an operator applied that is none. -/
theorem faults_documented (κ : Nat → Float) (out : Output) :
    (∀ srcs s, Ran κ out srcs s → ∀ n src errors f, (s.run n src).1.result = .failed errors →
      .runtime f ∈ errors → TokenOf (src :: srcs) f.token ∧
        (Error.runtime f).line = f.token.line ∧ Documented f.cause.kind f.token f.message ∧
        f.cause ≠ .notBinary ∧ f.cause ≠ .notUnary) ∧
    (∀ l op r m k, Occurs κ out ⟨.eval (.binary l op r), m, k⟩ →
      ∀ a b m₁ m₂, Run.binary op a b m₁ ≠ .error (.fault ⟨.notBinary, op⟩) m₂) ∧
    (∀ op e m k, Occurs κ out ⟨.eval (.unary op e), m, k⟩ →
      ∀ a m₁ m₂, Run.unary op a m₁ ≠ .error (.fault ⟨.notUnary, op⟩) m₂) := by
  refine ⟨fun srcs s hs n src errors f herrors hf => ?_, fun l op r m k hp a b m₁ m₂ h => ?_,
    fun op e m k hp a m₁ m₂ h => ?_⟩
  · obtain ⟨program, m, hparse, hrun⟩ := run_faulted herrors hf
    have hT : ∀ src' ∈ src :: srcs, ∀ t ∈ (scan src').1, TokenOf (src :: srcs) t :=
      fun src' hsrc t ht => ⟨src', hsrc, ht⟩
    obtain ⟨hsrc, hsrcs⟩ := List.forall_mem_cons.mp hT
    have hleaves := (sequence_outcome (r := .error f) hrun).2.proper
      (parseSource_proper hsrc hparse) (hs.proper hsrcs)
    cases hleaves with
    | error hf _ => exact ⟨hf.token, rfl, hf.documented, hf.binary, hf.unary⟩
  · obtain ⟨T, hwork, -⟩ := hp.proper
    cases hwork with
    | binary _ _ hop _ => exact not_notBinary hop ((binary_result (r := .error _)).mp h).1
  · obtain ⟨T, hwork, -⟩ := hp.proper
    cases hwork with
    | unary _ hop _ => exact not_notUnary hop ((unary_result (r := .error _)).mp h).1

/-- A function that was declared in an earlier run faults at its own token. -/
theorem faults_documented_earlier :
    let κ : Nat → Float := fun _ => 0
    ∃ s f, Ran κ .unlimited ["fun f() \x7b y; \x7d"] s ∧
      (s.run 8 "f();").1.result = .failed [.runtime f] ∧
      TokenOf ["f();", "fun f() \x7b y; \x7d"] f.token ∧
      Documented .name f.token "Undefined variable 'y'." := by
  intro κ
  let f : Token := ⟨.identifier, "f", 1, 4, 1, .nil⟩
  let y : Token := ⟨.identifier, "y", 1, 10, 5, .nil⟩
  let g : Token := ⟨.identifier, "f", 1, 0, 0, .nil⟩
  let paren : Token := ⟨.rightParen, ")", 1, 2, 2, .nil⟩
  have hscan : scan "fun f() \x7b y; \x7d" = ([⟨.kwFun, "fun", 1, 0, 0, .nil⟩, f,
      ⟨.leftParen, "(", 1, 5, 2, .nil⟩, ⟨.rightParen, ")", 1, 6, 3, .nil⟩,
      ⟨.leftBrace, "\x7b", 1, 8, 4, .nil⟩, y, ⟨.semicolon, ";", 1, 11, 6, .nil⟩,
      ⟨.rightBrace, "\x7d", 1, 13, 7, .nil⟩, ⟨.eof, "", 1, 14, 8, .nil⟩], []) := by cbv
  have hscan' : scan "f();" = ([g, ⟨.leftParen, "(", 1, 1, 1, .nil⟩, paren,
      ⟨.semicolon, ";", 1, 3, 3, .nil⟩, ⟨.eof, "", 1, 4, 4, .nil⟩], []) := by cbv
  have hparse : parseSource "fun f() \x7b y; \x7d" =
      .ok [.function f [] [.expression (.variable y)]] := by
    rw [parseSource_eq_ok, hscan]
    exact ⟨rfl, rfl⟩
  have hparse' : parseSource "f();" = .ok [.expression (.call (.variable g) paren [])] := by
    rw [parseSource_eq_ok, hscan']
    exact ⟨rfl, rfl⟩
  let s := ((Session.start κ .unlimited).run 8 "fun f() \x7b y; \x7d").2
  have hran : Ran κ .unlimited ["fun f() \x7b y; \x7d"] s := by
    refine .run .start ?_
    rw [run_of_parse hparse]
    rintro ⟨⟩
  have hresult : (s.run 8 "f();").1.result = .failed [.runtime ⟨.undefinedVariable, y⟩] := by
    rw [run_of_parse hparse', show s = _ from congrArg Prod.snd (run_of_parse hparse _ 8)]
    rfl
  obtain ⟨htoken, -, hdocumented, -⟩ :=
    (faults_documented κ .unlimited).1 _ _ hran _ _ _ _ hresult List.mem_cons_self
  exact ⟨s, _, hran, hresult, htoken, hdocumented⟩

end Session
end Lox
