import Lox.Proofs.Run.Simulation
import Lox.Proofs.Source.Joined
import Lox.Session

/-!
Sessions in pieces. A program put behind another one is read as it would be alone, but at later
places, and it runs as it would in a session in which the other one has been run.
-/

namespace Lox
open Run

/-! ### Reading -/

theorem parseSource_eq_ok {src : String} {program : List Stmt} :
    parseSource src = .ok program ↔
      (scan src).2 = [] ∧ (Parser.ofTokens (scan src).1).parse.1 = .ok program := by
  rw [parseSource]
  cases hparse : (Parser.ofTokens (scan src).1).parse.1 with
  | error errors => simp [hparse]
  | ok ss => by_cases hflaws : (scan src).2 = [] <;> simp [hparse, hflaws]

/-- A program reads in the same way without its end. -/
theorem Parser.parse_tokens {src : String} {program : List Stmt}
    (h : (Parser.ofTokens (scan src).1).parse.1 = .ok program) :
    (Parser.ofTokens (Scan.ofSource src).tokens).parse.1 = .ok program := by
  have htokens : ∀ t ∈ (Scan.ofSource src).tokens, (!t.isEof) = true := by
    simpa using fun t => Scan.not_isEof (t := t)
  rw [Parser.parse_eq_ok] at h ⊢
  have heof : [(Scan.ofSource src).place.eof].takeWhile (!·.isEof) = [] :=
    List.takeWhile_cons_of_neg (by simp [Place.eof, Token.isEof])
  rw [scan_tokens, List.takeWhile_append_of_pos htokens, heof, List.append_nil] at h
  rwa [List.takeWhile_eq_self_iff.mpr htokens]

/-- Positions aside, moving a token keeps it as it is. -/
theorem Token.move_keeps (δ : Offset) : Reading.Keeps (Token.move δ) := ⟨fun _ => rfl, fun _ => rfl⟩

/-- Two programs that read well alone read well together, one after the other. -/
theorem parseSource_append {R : Token → Token → Prop} {a b : String} {first second : List Stmt}
    (ha : parseSource a = .ok first) (hb : parseSource b = .ok second)
    (hR : ∀ t ∈ (scan b).1, R t (t.move (.behind a))) :
    ∃ second', parseSource (a ++ "\n" ++ b) = .ok (first ++ second') ∧
      List.Forall₂ (Stmt.Like R) second second' := by
  obtain ⟨haerr, haparse⟩ := parseSource_eq_ok.mp ha
  obtain ⟨hberr, hbparse⟩ := parseSource_eq_ok.mp hb
  have hclosed : Fragment.Closed a.toList := closed_of_errors (by simp [haerr])
  obtain ⟨second', hparse, hlike⟩ := Parser.parse_map (Token.move_keeps (.behind a)) hR hbparse
  have hwhole : parseSource (a ++ "\n" ++ b) = .ok (first ++ second') := by
    rw [parseSource_eq_ok]
    constructor
    · rw [scan_append_errors hclosed, haerr, hberr]
      rfl
    · rw [scan_append_tokens hclosed]
      exact Parser.parse_append (fun _ => Scan.not_isEof) (Parser.parse_tokens haparse) hparse
  exact ⟨second', hwhole, hlike⟩

/-! ### Running -/

/-- A machine that is ready for a program: in the global frame, with no call under way. -/
def Machine.ready (m : Machine) : Machine := { m with scope := Heap.globals, depth := 0 }

/-- Within `n` steps a source runs through: nothing is wrong with it, and running it meets neither a
fault nor a `return` outside of functions. -/
def Session.RunsThrough (s : Session) (n : Nat) (src : String) : Prop :=
  ∃ program m, parseSource src = .ok program ∧
    sequence (exec n) program s.machine.ready = .ok .next m

/-- Statements go on where others ended. -/
theorem sequence_append {exec : Stmt → Run Flow} {ss : List Stmt} {m m₁ : Machine}
    (h : sequence exec ss m = .ok .next m₁) (ss' : List Stmt) :
    sequence exec (ss ++ ss') m = sequence exec ss' m₁ := by
  induction ss generalizing m with
  | nil =>
    obtain ⟨-, rfl⟩ := Step.pure_eq_ok.mp h
    rfl
  | cons s ss ih =>
    obtain ⟨flow, m₂, hs, h⟩ := Step.bind_eq_ok.mp h
    cases flow with
    | next => exact (Step.bind_of_ok hs _).trans (ih h)
    | returned v => cases (Step.pure_eq_ok.mp h).1

/-- At its end, a program is back in the global frame and has no call under way. -/
theorem Machine.ready_of_sequence {m m₁ : Machine} {n : Nat} {program : List Stmt} {flow : Flow}
    (h : sequence (exec n) program m.ready = .ok flow m₁) : m₁.ready = m₁ := by
  have hsound := sequence_sound (eval_exec_sound m.clock n).2 program Heap.globals 0 m.store
  obtain ⟨σ, rfl, -⟩ := hsound (.ok flow) m₁ h
  rfl

/-- The bytes that a program writes and how it ends, from the run of its statements. -/
def Session.concluded : EStateM.Result Halt Machine Flow → Report × Session
  | .ok _ m => (⟨m.out.written, .done⟩, ⟨m.takeWritten.2⟩)
  | .error (.fault f) m => (⟨m.out.written, .failed [.runtime f]⟩, ⟨m.takeWritten.2⟩)
  | .error .exhausted m => (⟨m.out.written, .exhausted⟩, ⟨m.takeWritten.2⟩)

theorem Session.run_of_parse {src : String} {program : List Stmt}
    (h : parseSource src = .ok program) (s : Session) (n : Nat) :
    s.run n src = concluded (sequence (exec n) program s.machine.ready) := by
  rw [run, h]
  simp only [Machine.run, Machine.ready]
  cases sequence (exec n) program _ with
  | ok flow m => rfl
  | error e m => cases e <;> rfl

/-! ### Running in pieces -/

/-- How a token that a program works with in one run corresponds to one in another run, in which the
source `b` of the program stands behind `a`: functions made before keep their tokens, and those of
the program itself are moved. -/
inductive Origin (h : Heap) (a b : String) : Token → Token → Prop where
  | before {t : Token} : h.Keeps t → Origin h a b t t
  | moved {t : Token} : t ∈ (scan b).1 → Origin h a b t (t.move (.behind a))

theorem Origin.faithful (h : Heap) (a b : String) : Faithful (Origin h a b) where
  kind ht := by cases ht <;> rfl
  lexeme ht := by cases ht <;> rfl

/-- Runs that end in the same way, with tokens related by `R`: both well, both cut off, or both with
one fault of which the same is said. -/
inductive Result.Like (R : Token → Token → Prop) : Result → Result → Prop where
  | done : Like R .done .done
  | faulted {f f' : Fault} : f.cause.kind = f'.cause.kind → f.message = f'.message →
      f.token.lexeme = f'.token.lexeme → R f.token f'.token →
      Like R (.failed [.runtime f]) (.failed [.runtime f'])
  | exhausted : Like R .exhausted .exhausted

section
variable {R : Token → Token → Prop} {w : ByteArray}

theorem Output.Behind.taken {o o' : Output} (h : Output.Behind w o o') :
    Output.Behind .empty { o with written := .empty } { o' with written := .empty } :=
  ⟨rfl, h.room, h.refusal⟩

theorem Machine.Like.taken {m m' : Machine} (h : Machine.Like R w m m') :
    Machine.Like R .empty m.takeWritten.2 m'.takeWritten.2 := { h with out := h.out.taken }

/-- A machine is behind the one it was before its output was taken away. -/
theorem Machine.Like.ofTaken {m : Machine} (hready : m.ready = m)
    (hR : ∀ t, m.heap.Keeps t → R t t) :
    Machine.Like R m.out.written m.takeWritten.2.ready m := by
  have hbehind : Output.Behind m.out.written { m.out with written := .empty } m.out :=
    ⟨ByteArray.append_empty.symm, rfl, rfl⟩
  have h : Machine.Like R m.out.written m.takeWritten.2.ready m.ready :=
    ⟨.refl hR, rfl, rfl, rfl, rfl, rfl, hbehind⟩
  rwa [hready] at h

theorem Fault.Like.message (hR : Faithful R) {f f' : Fault} (h : Fault.Like R f f') :
    f.message = f'.message := by
  rw [Fault.message, Fault.message, h.cause, hR.lexeme h.token]

/-- Runs of statements that end alike are concluded alike. -/
theorem Session.concluded_like (hR : Faithful R) {x y : EStateM.Result Halt Machine Flow}
    (h : Same R w (Flow.Like R) x y) :
    (concluded y).1.written = w ++ (concluded x).1.written ∧
      Result.Like R (concluded x).1.result (concluded y).1.result ∧
      Machine.Like R .empty (concluded x).2.machine (concluded y).2.machine := by
  cases h with
  | ok _ hm => exact ⟨hm.out.written, .done, hm.taken⟩
  | fault hf hm =>
    have hkind := congrArg FaultCause.kind hf.cause
    have hfault := Result.Like.faulted hkind (hf.message hR) (hR.lexeme hf.token) hf.token
    exact ⟨hm.out.written, hfault, hm.taken⟩
  | exhausted hm => exact ⟨hm.out.written, .exhausted, hm.taken⟩

end

/-- Running a program in two pieces is the same as running it whole. If `a` runs through and nothing
is wrong with `b`, then `a` and `b` on the lines behind it write as much together as one after the
other, end as `b` does, and leave machines that are alike. Where tokens differ, they are those of
`b` and stand further behind by just the lines, bytes and tokens that come before. -/
theorem Session.run_joined {s : Session} {n : Nat} {a b : String} {program : List Stmt}
    (ha : s.RunsThrough n a) (hb : parseSource b = .ok program) :
    let first := s.run n a
    let second := first.2.run n b
    let whole := s.run n (a ++ "\n" ++ b)
    whole.1.written = first.1.written ++ second.1.written ∧
      Result.Like (Origin first.2.machine.heap a b) second.1.result whole.1.result ∧
      Machine.Like (Origin first.2.machine.heap a b) .empty second.2.machine whole.2.machine := by
  intro first second whole
  obtain ⟨before, m, hparse, hrun⟩ := ha
  have hfirst : first = (⟨m.out.written, .done⟩, ⟨m.takeWritten.2⟩) := by
    rw [show first = s.run n a from rfl, run_of_parse hparse, hrun]
    rfl
  have hheap : first.2.machine.heap = m.heap := by rw [hfirst]; rfl
  obtain ⟨program', hwhole, hlike⟩ := parseSource_append (R := Origin first.2.machine.heap a b)
    hparse hb fun t ht => .moved ht
  have hR := Origin.faithful first.2.machine.heap a b
  -- `b` starts on the machine that `a` left, but for its output, and the whole goes on from it
  have hm := Machine.Like.ofTaken (R := Origin first.2.machine.heap a b)
    (Machine.ready_of_sequence hrun) fun t ht => .before (by rwa [hheap])
  have hsame := Simulates.sequence (Simulates.eval_exec hR n).2 hlike _ _ hm
  have hsecond : second = concluded (sequence (exec n) program m.takeWritten.2.ready) := by
    rw [show second = first.2.run n b from rfl, run_of_parse hb, hfirst]
  have hjoined : whole = concluded (sequence (exec n) program' m) := by
    rw [show whole = s.run n _ from rfl, run_of_parse hwhole, sequence_append hrun]
  rw [hsecond, hjoined, show first.1.written = m.out.written by rw [hfirst]]
  exact concluded_like hR hsame

/-- A fault of the second program shows on a later line. -/
theorem Session.run_joined_undefined :
    let s := Session.start (fun _ => 0) .unlimited
    s.RunsThrough 2 "var x;" ∧ (∃ program, parseSource "y;" = .ok program) ∧
      ∃ f, (s.run 2 ("var x;" ++ "\n" ++ "y;")).1.result = .failed [.runtime f] ∧
        f.message = "Undefined variable 'y'." ∧ f.token.line = 2 := by
  intro s
  let x : Token := ⟨.identifier, "x", 1, 4, 1, .nil⟩
  let y : Token := ⟨.identifier, "y", 1, 0, 0, .nil⟩
  have hscan : scan "var x;" = ([⟨.kwVar, "var", 1, 0, 0, .nil⟩, x,
      ⟨.semicolon, ";", 1, 5, 2, .nil⟩, ⟨.eof, "", 1, 6, 3, .nil⟩], []) := by cbv
  have hscan' : scan "y;" =
      ([y, ⟨.semicolon, ";", 1, 1, 1, .nil⟩, ⟨.eof, "", 1, 2, 2, .nil⟩], []) := by cbv
  have ha : parseSource "var x;" = .ok [.var x none] := by
    rw [parseSource_eq_ok, hscan]
    exact ⟨rfl, rfl⟩
  have hb : parseSource "y;" = .ok [.expression (.variable y)] := by
    rw [parseSource_eq_ok, hscan']
    exact ⟨rfl, rfl⟩
  have hrun : s.RunsThrough 2 "var x;" := ⟨_, _, ha, rfl⟩
  refine ⟨hrun, ⟨_, hb⟩, ?_⟩
  obtain ⟨-, hresult, -⟩ := Session.run_joined hrun hb
  have hfirst : (s.run 2 "var x;").2.machine.heap =
      ⟨#[⟨[], [("clock", .callable .clock), ("x", .nil)]⟩]⟩ := by
    rw [run_of_parse ha]
    rfl
  have hsecond : ((s.run 2 "var x;").2.run 2 "y;").1.result =
      .failed [.runtime ⟨.undefinedVariable, y⟩] := by
    rw [run_of_parse hb, run_of_parse ha]
    rfl
  rw [hsecond, hfirst] at hresult
  generalize (s.run 2 ("var x;" ++ "\n" ++ "y;")).1.result = r at hresult ⊢
  cases hresult with
  | @faulted _ f' _ hmessage _ horigin =>
    refine ⟨f', rfl, hmessage.symm, ?_⟩
    generalize f'.token = t at horigin ⊢
    cases horigin with
    | before h =>
      obtain ⟨frame, hframe, p, hp, ht⟩ := h
      obtain rfl := Array.mem_singleton.mp hframe
      simp only [List.mem_cons, List.not_mem_nil, or_false] at hp
      rcases hp with rfl | rfl <;> cases ht
    | moved h => decide

end Lox
