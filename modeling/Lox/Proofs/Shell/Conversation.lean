import Lox.Proofs.Session.Errors
import Lox.Proofs.Session.Reached

/-!
Conversations. The input is cut into lines, and each line is run in the session that the lines
before it have left, whether they went well or not. Only a line that is no text ends a conversation
before its input ends.
-/

namespace Lox

/-! ### Lines -/

namespace Text

/-- Bytes and the lines they are cut into. A line ends with its only newline; what is behind the
last newline is a line as well, unless it is empty. -/
inductive Cut : List UInt8 → List (List UInt8) → Prop where
  | nothing : Cut [] []
  | ended {l rest ls} : newline ∉ l → Cut rest ls →
      Cut (l ++ newline :: rest) ((l ++ [newline]) :: ls)
  | last {l} : l ≠ [] → newline ∉ l → Cut l [l]

variable {l rest : List UInt8} {ls : List (List UInt8)}

/-- A byte in front belongs to the first line, and a newline there is a line of its own. -/
theorem Cut.consByte (h : Cut rest ls) (b : UInt8) : Cut (b :: rest) (consByte b ls) := by
  by_cases hb : b = newline
  · subst hb
    cases h with
    | nothing => exact .ended (l := []) List.not_mem_nil .nothing
    | ended hl hrest => exact .ended (l := []) List.not_mem_nil (.ended hl hrest)
    | last hne hl => exact .ended (l := []) List.not_mem_nil (.last hne hl)
  · have hcons {l : List UInt8} (hl : newline ∉ l) : newline ∉ b :: l :=
      List.not_mem_cons_of_ne_of_not_mem (Ne.symm hb) hl
    cases h with
    | nothing => exact .last (List.cons_ne_nil _ _) (hcons List.not_mem_nil)
    | ended hl hrest =>
      rw [Text.consByte, if_neg hb]
      exact .ended (hcons hl) hrest
    | last _ hl =>
      rw [Text.consByte, if_neg hb]
      exact .last (List.cons_ne_nil _ _) (hcons hl)

theorem cut_lines : ∀ bytes : List UInt8, Cut bytes (lines bytes)
  | [] => .nothing
  | b :: bytes => (cut_lines bytes).consByte b

theorem lines_ended (hl : newline ∉ l) :
    lines (l ++ newline :: rest) = (l ++ [newline]) :: lines rest := by
  induction l with
  | nil =>
    rw [List.nil_append, lines, List.foldr_cons, ← lines]
    cases lines rest <;> rfl
  | cons b l ih =>
    obtain ⟨hb, hl⟩ := not_or.mp (mt List.mem_cons.mpr hl)
    rw [List.cons_append, lines, List.foldr_cons, ← lines, ih hl, consByte, if_neg (Ne.symm hb)]
    rfl

theorem lines_last (hne : l ≠ []) (hl : newline ∉ l) : lines l = [l] := by
  induction l with
  | nil => exact absurd rfl hne
  | cons b l ih =>
    obtain ⟨hb, hl⟩ := not_or.mp (mt List.mem_cons.mpr hl)
    rw [lines, List.foldr_cons, ← lines]
    by_cases hl' : l = []
    · subst hl'
      rfl
    · rw [ih hl' hl, consByte, if_neg (Ne.symm hb)]

/-- There is one way to cut bytes into lines. -/
theorem Cut.eq_lines {bytes : List UInt8} (h : Cut bytes ls) : ls = lines bytes := by
  induction h with
  | nothing => rfl
  | ended hl _ ih => rw [lines_ended hl, ih]
  | last hne hl => exact (lines_last hne hl).symm

end Text

/-! ### Runs one after the other -/

namespace Session
open Run

variable {s s' s₁ : Session} {n : Nat} {src : String} {srcs before after : List String}
  {r : Report} {rs : List Report}

/-- A source that does not read well gives its errors and leaves the session as it is. -/
theorem run_static (h : staticErrors src ≠ []) :
    s.run n src = (⟨.empty, .failed (staticErrors src)⟩, s) := by
  rw [run, parseSource_eq_error.mpr ⟨h, rfl⟩]

theorem gives_static (h : staticErrors src ≠ []) :
    s.Gives src ⟨.empty, .failed (staticErrors src)⟩ s :=
  ⟨by rintro ⟨⟩, 0, run_static h⟩

/-- Sources that are run one after the other, each to its end, and their reports. -/
inductive Runs : Session → List String → List Report → Session → Prop where
  | nil {s : Session} : Runs s [] [] s
  | cons {s s₁ s' : Session} {src : String} {srcs : List String} {r : Report} {rs : List Report} :
      s.Gives src r s₁ → Runs s₁ srcs rs s' → Runs s (src :: srcs) (r :: rs) s'

/-- A source that does not read well can as well be left out: the others report the same. -/
theorem Runs.without (hsrc : staticErrors src ≠ []) (h : Runs s (before ++ src :: after) rs s') :
    ∃ rs₁ rs₂, rs = rs₁ ++ ⟨.empty, .failed (staticErrors src)⟩ :: rs₂ ∧
      rs₁.length = before.length ∧ Runs s (before ++ after) (rs₁ ++ rs₂) s' := by
  induction before generalizing s rs with
  | nil =>
    cases h with
    | @cons _ _ _ _ _ r rs hgives hruns =>
      obtain ⟨rfl, rfl⟩ := hgives.unique (gives_static hsrc)
      exact ⟨[], rs, rfl, rfl, hruns⟩
  | cons first before ih =>
    cases h with
    | @cons _ _ _ _ _ r rs hgives hruns =>
      obtain ⟨rs₁, rs₂, rfl, hlength, hruns⟩ := ih hruns
      exact ⟨r :: rs₁, rs₂, rfl, congrArg (· + 1) hlength, .cons hgives hruns⟩

end Session

/-! ### Conversations -/

namespace Shell
open Session

/-- Lines and the texts they are, up to the first one that is none. Whether all are texts is noted
as well. -/
inductive Reads : List (List UInt8) → List String → Bool → Prop where
  | done : Reads [] [] true
  | stuck {l ls} : ¬ByteArray.IsValidUTF8 ⟨l.toArray⟩ → Reads (l :: ls) [] false
  | line {src ls srcs whole} : Reads ls srcs whole →
      Reads (src.toUTF8.data.toList :: ls) (src :: srcs) whole

theorem exists_reads : ∀ ls : List (List UInt8), ∃ srcs whole, Reads ls srcs whole
  | [] => ⟨_, _, .done⟩
  | l :: ls => by
    by_cases hl : ByteArray.IsValidUTF8 ⟨l.toArray⟩
    · obtain ⟨srcs, whole, h⟩ := exists_reads ls
      exact ⟨_, _, @Reads.line (String.fromUTF8 _ hl) _ _ _ h⟩
    · exact ⟨_, _, .stuck hl⟩

/-- What a conversation shows: a prompt before what each line writes, and one prompt more. -/
def shown : List Report → ByteArray
  | [] => prompt.toUTF8
  | r :: rs => prompt.toUTF8 ++ r.written ++ shown rs

/-- What is said of a line that is no text. -/
def undecodable : String := "stream did not contain valid UTF-8\n"

/-- The errors of some runs, one after the other. -/
def errorsOf (rs : List Report) : List Error := rs.flatMap (·.result.errors)

theorem errorLines_append (es es' : List Error) :
    errorLines (es ++ es') = errorLines es ++ errorLines es' := by
  simp [errorLines, String.join_append]

theorem answer_text (n : Nat) (s : Session) (src : String) :
    answer n s ⟨src.toUTF8.data.toList.toArray⟩ =
      ⟨(s.run n src).1.written, errorLines (s.run n src).1.result.errors,
        some (s.run n src).2⟩ := by
  have htext : String.fromUTF8? ⟨src.toUTF8.data.toList.toArray⟩ = some src :=
    dif_pos src.isValidUTF8
  rw [answer, htext]
  rfl

theorem answer_stuck {l : List UInt8} (n : Nat) (s : Session)
    (h : ¬ByteArray.IsValidUTF8 ⟨l.toArray⟩) :
    answer n s ⟨l.toArray⟩ = ⟨.empty, undecodable, none⟩ := by
  rw [answer, String.fromUTF8?, dif_neg h]
  rfl

variable {s s' : Session} {ls : List (List UInt8)} {srcs : List String} {rs : List Report}
  {whole : Bool}

/-- A conversation goes through the lines that are texts. -/
theorem converse_runs (hreads : Reads ls srcs whole) (hruns : Runs s srcs rs s') :
    ∃ N, ∀ n, N ≤ n → ∀ out err, converse n s ls out err =
      ⟨if whole then 0 else ioCode, out ++ shown rs,
        err ++ errorLines (errorsOf rs) ++ if whole then "" else undecodable⟩ := by
  induction hreads generalizing s rs with
  | done =>
    cases hruns
    refine ⟨0, fun n _ out err => ?_⟩
    simp [converse, shown, errorsOf, errorLines]
  | stuck hl =>
    cases hruns
    refine ⟨0, fun n _ out err => ?_⟩
    simp [converse, answer_stuck n _ hl, shown, errorsOf, errorLines]
  | line _ ih =>
    cases hruns with
    | cons hgives hruns =>
      obtain ⟨N, hN⟩ := hgives.stable
      obtain ⟨N', hN'⟩ := ih hruns
      refine ⟨max N N', fun n hn out err => ?_⟩
      rw [converse, answer_text, hN n (by omega)]
      simp only
      rw [hN' n (by omega)]
      simp [shown, errorsOf, errorLines_append, ByteArray.append_assoc, String.append_assoc]

/-- A conversation is a session over lines. Its input is cut into lines, and those before the first
one that is no text are run one after the other in one new session. If all their runs come to their
end, a prompt and then what is written is shown for each line, and a last prompt; all their errors
are listed in order. The command ends well if every line is a text; otherwise it says so and exits
with 74, and neither that line nor one behind it is run. A line that does not read well leaves
nothing behind: without it, the other lines have the reports they have with it. -/
theorem conversation (κ : Nat → Float) (files : Folder) (stdin : ByteArray) :
    (∃ ls srcs whole, Text.Cut stdin.data.toList ls ∧ Reads ls srcs whole) ∧
    (∀ ls srcs whole rs s, Text.Cut stdin.data.toList ls → Reads ls srcs whole →
      Runs (Session.start κ .unlimited) srcs rs s →
      (∃ N, ∀ n, N ≤ n → Shell.run n (Session.start κ .unlimited) files [] stdin =
        ⟨if whole then 0 else 74, shown rs,
          errorLines (errorsOf rs) ++ if whole then "" else undecodable⟩) ∧
      ∀ before src after, srcs = before ++ src :: after → staticErrors src ≠ [] →
        ∃ rs₁ rs₂, rs = rs₁ ++ ⟨.empty, .failed (staticErrors src)⟩ :: rs₂ ∧
          rs₁.length = before.length ∧
          Runs (Session.start κ .unlimited) (before ++ after) (rs₁ ++ rs₂) s) := by
  refine ⟨?_, fun ls srcs whole rs s hcut hreads hruns => ⟨?_, ?_⟩⟩
  · obtain ⟨srcs, whole, hreads⟩ := exists_reads (Text.lines stdin.data.toList)
    exact ⟨_, srcs, whole, Text.cut_lines _, hreads⟩
  · obtain ⟨N, hN⟩ := converse_runs hreads hruns
    refine ⟨N, fun n hn => ?_⟩
    rw [Shell.run, Command.ofArgs, ← hcut.eq_lines]
    simpa [ioCode] using hN n hn .empty ""
  · rintro before src after rfl hsrc
    exact hruns.without hsrc

/-- The first line starts with a character that starts nothing, the second one prints, and the last
one is a byte that is no text. -/
theorem conversation_broken :
    let s := Session.start (fun _ => 0) .unlimited
    ∃ N, ∀ n, N ≤ n → Shell.run n s ⟨[]⟩ [] ("@\nprint nil;\n".toUTF8.push 0xFF) =
      ⟨74, "> > nil\n> ".toUTF8, "at '@' on line 1: Unexpected character.\n" ++ undecodable⟩ := by
  intro s
  let print : Token := ⟨.kwPrint, "print", 1, 0, 0, .nil⟩
  have hscan : scan "@\n" = ([⟨.eof, "", 2, 2, 0, .nil⟩], [⟨.stray '@', 1⟩]) := by cbv
  have hscan' : scan "print nil;\n" = ([print, ⟨.kwNil, "nil", 1, 6, 1, .nil⟩,
      ⟨.semicolon, ";", 1, 9, 2, .nil⟩, ⟨.eof, "", 2, 11, 3, .nil⟩], []) := by cbv
  have hstatic : staticErrors "@\n" = [.scan ⟨.stray '@', 1⟩] := by
    rw [staticErrors, hscan]
    rfl
  have hparse : parseSource "print nil;\n" = .ok [.print print (.literal .nil)] := by
    rw [parseSource_eq_ok, hscan']
    exact ⟨rfl, rfl⟩
  have hgives : s.Gives "print nil;\n" ⟨"nil\n".toUTF8, .done⟩ s :=
    ⟨by rintro ⟨⟩, 2, by rw [run_of_parse hparse]; rfl⟩
  have hruns : Runs s ["@\n", "print nil;\n"] _ s :=
    .cons (gives_static (by rw [hstatic]; exact List.cons_ne_nil _ _)) (.cons hgives .nil)
  have hreads : Reads ["@\n".toUTF8.data.toList, "print nil;\n".toUTF8.data.toList, [0xFF]]
      ["@\n", "print nil;\n"] false := .line (.line (.stuck (by decide)))
  have hcut : Text.Cut ("@\nprint nil;\n".toUTF8.push 0xFF).data.toList
      ["@\n".toUTF8.data.toList, "print nil;\n".toUTF8.data.toList, [0xFF]] := Text.cut_lines _
  obtain ⟨⟨N, hN⟩, -⟩ := (conversation (fun _ => 0) ⟨[]⟩ _).2 _ _ _ _ _ hcut hreads hruns
  refine ⟨N, fun n hn => (hN n hn).trans ?_⟩
  rw [hstatic]
  rfl

end Shell
end Lox
