import Lox.Proofs.Run.Site
import Lox.Proofs.Session.Reached
import Lox.Shell.Command

/-!
Which errors a run has, and what it does all the same. A source that does not read well is not run
at all, and everything that is wrong with it is reported. A program that is run has one error at
most, and what it did before that stays done.
-/

namespace Lox
open Run

/-! ### What is wrong with a source -/

/-- The errors of a parser; it has none if it gives a program. -/
def Parser.errors (p : Parser) : List GrammarError :=
  match p.parse.1 with
  | .ok _ => []
  | .error errors => errors

/-- A parser that gives no program says why. -/
theorem Parser.errors_ne_nil {p : Parser} {errors : List GrammarError}
    (h : p.parse.1 = .error errors) : p.errors = errors ∧ errors ≠ [] := by
  refine ⟨by rw [Parser.errors, h], ?_⟩
  obtain ⟨s, -, ⟨_, -, hsome, rfl⟩ | ⟨q, -, -, rfl⟩⟩ := Parser.of_parse_error h
  · simpa using hsome
  · simp

/-- All that is wrong with a source: what scanning finds comes before what parsing finds in the
tokens that are left. -/
def staticErrors (src : String) : List Error :=
  (scan src).2.map .scan ++ (Parser.ofTokens (scan src).1).errors.map .grammar

theorem isStatic_of_mem {src : String} {e : Error} (he : e ∈ staticErrors src) :
    e.isStatic = true := by
  rcases List.mem_append.mp he with he | he <;> obtain ⟨_, -, rfl⟩ := List.mem_map.mp he <;> rfl

/-- Reading gives no program exactly if scanning or parsing finds an error. -/
theorem staticErrors_ne_nil {src : String} : staticErrors src ≠ [] ↔
    (scan src).2 ≠ [] ∨ ∃ errors, (Parser.ofTokens (scan src).1).parse.1 = .error errors := by
  rw [staticErrors, ne_eq, List.append_eq_nil_iff, List.map_eq_nil_iff, List.map_eq_nil_iff,
    not_and_or]
  refine or_congr_right ?_
  cases hparse : (Parser.ofTokens (scan src).1).parse.1 with
  | ok program => simp [Parser.errors, hparse]
  | error errors =>
    obtain ⟨heq, hne⟩ := Parser.errors_ne_nil hparse
    exact iff_of_true (heq ▸ hne) ⟨errors, rfl⟩

theorem parseSource_eq_error {src : String} {errors : List Error} :
    parseSource src = .error errors ↔ staticErrors src ≠ [] ∧ errors = staticErrors src := by
  rw [parseSource]
  cases hparse : (Parser.ofTokens (scan src).1).parse.1 with
  | error found =>
    obtain ⟨heq, hne⟩ := Parser.errors_ne_nil hparse
    simp only [staticErrors, hparse, heq]
    simpa [hne] using eq_comm
  | ok program =>
    by_cases hflaws : (scan src).2 = []
    · simp [staticErrors, Parser.errors, hparse, hflaws]
    · simpa [staticErrors, Parser.errors, hparse, hflaws] using eq_comm

theorem exitCode_static {errors : List Error} (hne : errors ≠ [])
    (h : ∀ e ∈ errors, e.isStatic = true) : exitCode errors = 65 := by
  obtain ⟨e, es, rfl⟩ := List.exists_cons_of_ne_nil hne
  simp [exitCode, h e List.mem_cons_self]

/-! ### Runs -/

/-- What the command leaves behind for a script that can be read, and whose text is `src`. -/
def Shell.Scripted (n : Nat) (s : Session) (src : String) (t : Transcript) : Prop :=
  ∀ files path stdin bytes, Folder.read files path = .ok bytes → Text.decode bytes = src →
    Shell.run n s files [path] stdin = t

theorem Shell.scripted {n : Nat} {s : Session} {src : String} :
    Scripted n s src ⟨exitCode (s.run n src).1.result.errors, (s.run n src).1.written,
      errorLines (s.run n src).1.result.errors⟩ := by
  rintro files path stdin bytes hread rfl
  rw [Shell.run, Command.ofArgs]
  simp only [hread]
  rfl

namespace Session

variable {s : Session} {n : Nat} {src : String}

/-- The one error of a program that was run, and where it arose: what had been written and bound
by then is what the run leaves behind. -/
structure Stops (s : Session) (n : Nat) (program : List Stmt) (src : String) (f : Fault)
    (q : Point) (σ : Store) : Prop where
  result : (s.run n src).1.result = .failed [.runtime f]
  comes : LeadsOn ⟨.execAll program, s.machine.ready, 0⟩ q
  faults : Faults q f σ
  written : (s.run n src).1.written = σ.out.written
  session : (s.run n src).2 = ⟨(σ.on s.machine.clock Heap.globals 0).takeWritten.2⟩

/-- A program that is run to its end ends well, or with a fault where it came to. -/
theorem run_stops {program : List Stmt} (hparse : parseSource src = .ok program)
    (hend : (s.run n src).1.result ≠ .exhausted) :
    (s.run n src).1.result = .done ∨ ∃ f q σ, s.Stops n program src f q σ := by
  have hrun := run_of_parse hparse s n
  cases hseq : sequence (exec n) program s.machine.ready with
  | ok flow m =>
    rw [hseq] at hrun
    exact .inl (by rw [hrun]; rfl)
  | error e m =>
    rw [hseq] at hrun
    cases e with
    | exhausted => exact absurd (by rw [hrun]; rfl) hend
    | fault f =>
      obtain ⟨q, hq, hfaults⟩ := sequence_site hseq 0
      obtain ⟨hrestored, -⟩ := sequence_outcome (r := .error f) hseq
      refine .inr ⟨f, q, m.store, ?_, hq, hfaults, ?_, ?_⟩
      · rw [hrun]
        rfl
      · rw [hrun]
        rfl
      · rw [hrun]
        exact congrArg (fun m => Session.mk m.takeWritten.2) hrestored.eq_on

/-- A run does all or nothing. If scanning or parsing finds anything wrong, the run has no effect,
and its errors are those of scanning and then those of parsing, all of them static. Otherwise it
ends well or with one error, a fault, and what was written and bound before the fault stays. A
script exits accordingly, and reports the errors one by one. -/
theorem all_or_nothing (s : Session) (n : Nat) (src : String) :
    (((scan src).2 ≠ [] ∨ ∃ errors, (Parser.ofTokens (scan src).1).parse.1 = .error errors) →
      let found := (scan src).2.map Error.scan ++
        (Parser.ofTokens (scan src).1).errors.map Error.grammar
      s.run n src = (⟨.empty, .failed found⟩, s) ∧ found ≠ [] ∧
        (∀ e ∈ found, e.isStatic = true ∧ e.exitCode = 65) ∧ exitCode found = 65 ∧
        Shell.Scripted n s src ⟨65, .empty, Shell.errorLines found⟩) ∧
    (∀ program, (scan src).2 = [] → (Parser.ofTokens (scan src).1).parse.1 = .ok program →
      (s.run n src).1.result ≠ .exhausted →
      ((s.run n src).1.result = .done ∧
        Shell.Scripted n s src ⟨0, (s.run n src).1.written, ""⟩) ∨
      ∃ f q σ, s.Stops n program src f q σ ∧ (Error.runtime f).isStatic = false ∧
        (Error.runtime f).exitCode = 70 ∧ exitCode [.runtime f] = 70 ∧
        Shell.Scripted n s src ⟨70, (s.run n src).1.written, Shell.errorLines [.runtime f]⟩) := by
  have hscripted : Shell.Scripted n s src _ := Shell.scripted
  refine ⟨fun hwrong => ?_, fun program hscan hparse hend => ?_⟩
  · have hfound := staticErrors_ne_nil.mpr hwrong
    have hrun : s.run n src = (⟨.empty, .failed (staticErrors src)⟩, s) := by
      rw [run, parseSource_eq_error.mpr ⟨hfound, rfl⟩]
    have hcode := exitCode_static hfound fun _ => isStatic_of_mem
    rw [hrun] at hscripted
    refine ⟨hrun, hfound, fun e he => ?_, hcode, fun files path stdin bytes hread htext => ?_⟩
    · have hstatic := isStatic_of_mem he
      exact ⟨hstatic, by rw [Error.exitCode, hstatic]; rfl⟩
    · rw [hscripted files path stdin bytes hread htext]
      exact congrArg (Shell.Transcript.mk · _ _) hcode
  · have hprogram := parseSource_eq_ok.mpr ⟨hscan, hparse⟩
    rcases run_stops hprogram hend with hdone | ⟨f, q, σ, hstops⟩
    · rw [hdone] at hscripted
      exact .inl ⟨hdone, hscripted⟩
    · rw [hstops.result] at hscripted
      exact .inr ⟨f, q, σ, hstops, rfl, rfl, rfl, hscripted⟩

/-- A character that starts nothing and a `print` of nothing are both reported; a fault after a
line has been written leaves the line. -/
theorem all_or_nothing_both :
    let s := Session.start (fun _ => 0) .unlimited
    (∃ flaw error, s.run 4 "@print;" = (⟨.empty, .failed [.scan flaw, .grammar error]⟩, s) ∧
      flaw.flaw = .stray '@' ∧ error.flaw = .noExpression) ∧
    ∃ program f q σ, s.Stops 4 program "print nil; x;" f q σ ∧
      σ.out.written = "nil\n".toUTF8 := by
  intro s
  constructor
  · let print : Token := ⟨.kwPrint, "print", 1, 1, 0, .nil⟩
    let semicolon : Token := ⟨.semicolon, ";", 1, 6, 1, .nil⟩
    have hscan : scan "@print;" =
        ([print, semicolon, ⟨.eof, "", 1, 7, 2, .nil⟩], [⟨.stray '@', 1⟩]) := by cbv
    have herrors : (Parser.ofTokens (scan "@print;").1).errors = [⟨.noExpression, semicolon⟩] := by
      rw [hscan]
      rfl
    obtain ⟨hrun, -⟩ := (all_or_nothing s 4 "@print;").1 (.inl (by simp [hscan]))
    rw [herrors, hscan] at hrun
    exact ⟨_, _, hrun, rfl, rfl⟩
  · let print : Token := ⟨.kwPrint, "print", 1, 0, 0, .nil⟩
    let x : Token := ⟨.identifier, "x", 1, 11, 3, .nil⟩
    have hscan : scan "print nil; x;" = ([print, ⟨.kwNil, "nil", 1, 6, 1, .nil⟩,
        ⟨.semicolon, ";", 1, 9, 2, .nil⟩, x, ⟨.semicolon, ";", 1, 12, 4, .nil⟩,
        ⟨.eof, "", 1, 13, 5, .nil⟩], []) := by cbv
    have hparse : (Parser.ofTokens (scan "print nil; x;").1).parse.1 =
        .ok [.print print (.literal .nil), .expression (.variable x)] := by
      rw [hscan]
      rfl
    have hrun : (s.run 4 "print nil; x;").1 =
        ⟨"nil\n".toUTF8, .failed [.runtime ⟨.undefinedVariable, x⟩]⟩ := by
      rw [run_of_parse (parseSource_eq_ok.mpr ⟨by rw [hscan], hparse⟩)]
      rfl
    rcases (all_or_nothing s 4 "print nil; x;").2 _ (by rw [hscan]) hparse (by simp [hrun])
      with ⟨hdone, -⟩ | ⟨f, q, σ, hstops, -⟩
    · rw [hrun] at hdone
      cases hdone
    · exact ⟨_, f, q, σ, hstops, by rw [← hstops.written, hrun]⟩

end Session
end Lox
