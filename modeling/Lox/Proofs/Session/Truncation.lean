import Lox.Proofs.Run.Truncation
import Lox.Proofs.Session.Joined

/-!
Sessions whose output comes to an end. Up to there they go like a session whose output has no limit,
and then they have one error more, at the `print` that found no room.
-/

namespace Lox.Session
open Run

/-- The session, with other output. -/
def writing (s : Session) (out : Output) : Session := ⟨{ s.machine with out }⟩

theorem concluded_written (x : EStateM.Result Halt Machine Flow) :
    (concluded x).1.written = (final x).out.written := by
  match x with
  | .ok _ _ | .error (.fault _) _ | .error .exhausted _ => rfl

theorem concluded_machine (x : EStateM.Result Halt Machine Flow) :
    (concluded x).2.machine = (final x).takeWritten.2 := by
  match x with
  | .ok _ _ | .error (.fault _) _ | .error .exhausted _ => rfl

/-- A limit that is kept to makes no difference. -/
theorem concluded_limit {n : Nat} {ρ : Refusal} {x : EStateM.Result Halt Machine Flow}
    (h : (final x).out.written.size ≤ n) :
    (concluded (Step.mapState (Machine.limit n ρ) x)).1 = (concluded x).1 := by
  have hwritten := Output.extract_of_size_le h
  match x, hwritten with
  | .ok _ _, hwritten | .error (.fault _) _, hwritten | .error .exhausted _, hwritten =>
    exact congrArg (Report.mk · _) hwritten

/-- With room for `n` bytes only, a run goes as it does without a limit. If that one writes no more,
both are the same. Otherwise the first `n` bytes are written, and the only error is that of the
`print` that would have gone beyond them; the machine is left as that `print` found it. -/
theorem run_truncated (s : Session) (src : String) (n k : Nat) (ρ : Refusal) :
    let free := s.writing .unlimited
    let whole := free.run k src
    let cut := (s.writing ⟨.empty, some n, ρ⟩).run k src
    (whole.1.written.size ≤ n →
      cut.1 = whole.1 ∧ ∃ out, cut.2.machine = { whole.2.machine with out }) ∧
    (n < whole.1.written.size → ∃ program f m, parseSource src = .ok program ∧
      Crosses (LeadsOn ⟨.execAll program, free.machine.ready, 0⟩) n f.token m
        { Output.unlimited with written := whole.1.written } ∧
      cut.1 = ⟨whole.1.written.extract 0 n, .failed [.runtime f]⟩ ∧
      f.cause.kind = .io ∧ f.message = "Failed to write output: " ++ ρ.message ++ "." ∧
      cut.2.machine =
        { m with scope := Heap.globals, depth := 0, out := ⟨.empty, some 0, ρ⟩ }) := by
  intro free whole cut
  cases hparse : parseSource src with
  | error errors =>
    have hrun : ∀ o, (s.writing o).run k src = (⟨.empty, .failed errors⟩, s.writing o) := by
      intro o
      rw [run, hparse]
    have hwhole : whole = _ := hrun _
    have hcut : cut = _ := hrun _
    rw [hwhole, hcut]
    exact ⟨fun _ => ⟨rfl, _, rfl⟩, fun h => absurd h (Nat.not_lt_zero _)⟩
  | ok program =>
    have hwhole : whole = concluded (sequence (exec k) program free.machine.ready) :=
      run_of_parse hparse free k
    have hlimit : Output.limit n ρ .unlimited = ⟨.empty, some n, ρ⟩ :=
      congrArg (Output.mk · (some n) ρ) (Output.extract_of_size_le (Nat.zero_le n))
    have hcut : cut = concluded (sequence (exec k) program (free.machine.ready.limit n ρ)) := by
      rw [show cut = (s.writing ⟨.empty, some n, ρ⟩).run k src from rfl, run_of_parse hparse,
        ← hlimit]
      rfl
    have htruncates := (truncation (LeadsOn ⟨.execAll program, free.machine.ready, 0⟩)
      .tail n ρ).execAll k program .refl rfl
    rw [hwhole, hcut]
    generalize sequence (exec k) program free.machine.ready = x, sequence (exec k) program
      (free.machine.ready.limit n ρ) = y at htruncates ⊢
    refine ⟨fun h => ?_, fun h => ?_⟩
    · rw [concluded_written] at h
      rw [htruncates.fits h]
      refine ⟨concluded_limit h, ?_⟩
      rw [concluded_machine, concluded_machine, final_mapState]
      exact ⟨_, rfl⟩
    · rw [concluded_written] at h ⊢
      obtain ⟨t, m, hcrosses, rfl⟩ := htruncates.crosses (Nat.zero_le _) h
      have hout : (final x).out.GoesOn
          { Output.unlimited with written := (final x).out.written } :=
        ⟨rfl, .empty, ByteArray.append_empty.symm⟩
      refine ⟨program, ⟨.output ρ, t⟩, m, rfl, hcrosses.goesOn hout, rfl, rfl, rfl, ?_⟩
      have hroom : n - (final x).out.written.size = 0 := Nat.sub_eq_zero_of_le (Nat.le_of_lt h)
      simp only [concluded, Machine.takeWritten, Output.limit, hroom]
      rfl

/-- The second of two lines has room for its first byte only. -/
theorem run_truncated_print :
    let s := Session.start (fun _ => 0) .unlimited
    let src := "print nil; print true;"
    ∃ f, ((s.writing ⟨.empty, some 5, .full⟩).run 2 src).1 =
        ⟨((s.writing .unlimited).run 2 src).1.written.extract 0 5, .failed [.runtime f]⟩ ∧
      f.message = "Failed to write output: disk full." := by
  intro s src
  let first : Token := ⟨.kwPrint, "print", 1, 0, 0, .nil⟩
  let second : Token := ⟨.kwPrint, "print", 1, 11, 3, .nil⟩
  have hscan : scan src = ([first, ⟨.kwNil, "nil", 1, 6, 1, .nil⟩, ⟨.semicolon, ";", 1, 9, 2, .nil⟩,
      second, ⟨.kwTrue, "true", 1, 17, 4, .bool true⟩, ⟨.semicolon, ";", 1, 21, 5, .nil⟩,
      ⟨.eof, "", 1, 22, 6, .nil⟩], []) := by cbv
  have hparse : parseSource src =
      .ok [.print first (.literal .nil), .print second (.literal (.bool true))] := by
    rw [parseSource_eq_ok, hscan]
    exact ⟨rfl, rfl⟩
  have hsize : ((s.writing .unlimited).run 2 src).1.written.size = 9 := by
    rw [run_of_parse hparse]
    rfl
  obtain ⟨-, hcut⟩ := run_truncated s src 5 2 .full
  obtain ⟨_, f, _, -, -, hresult, -, hmessage, -⟩ := hcut (by rw [hsize]; decide)
  exact ⟨f, hresult, hmessage⟩

end Lox.Session
