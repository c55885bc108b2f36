import Lox.Proofs.Session.Truncation
import Lox.Proofs.Source.Pieces

/-!
Literals that are printed. A string that stands in quotes is written as it is, and the text of a
number is a literal again, behind a minus sign if the number is negative. Printing such a literal
writes the text it was read from.
-/

namespace Lox
open Character Run

/-! ### The text of numbers -/

namespace Decimal

theorem isDigit_toDigits {n : Nat} : ∀ d ∈ Nat.toDigits 10 n, isDigit d = true :=
  fun _ => Nat.isDigit_of_mem_toDigits (by decide) (Nat.le_refl _)

theorem isDigit_zeros {n : Nat} : ∀ d ∈ List.replicate n '0', isDigit d = true := by
  intro d hd
  obtain rfl := List.eq_of_mem_replicate hd
  rfl

/-- A decimal is written with digits, perhaps with a point and more digits behind them. -/
theorem Scaled.lexeme_text (d : Scaled) (rest : List Char) : Lexeme .number d.text rest := by
  rw [Scaled.text]
  have hdigits := isDigit_toDigits (n := d.digits)
  have hne : Nat.toDigits 10 d.digits ≠ [] := Nat.toDigits_ne_nil
  generalize Nat.toDigits 10 d.digits = ds at hdigits hne
  split
  · exact .whole (by simp [hne]) (List.forall_mem_append.mpr ⟨hdigits, isDigit_zeros⟩)
  · split
    · refine .fraction ?_ ?_ (by rwa [List.take_append_drop])
      · rw [ne_eq, List.take_eq_nil_iff]
        simp only [hne, or_false]
        omega
      · rw [ne_eq, List.drop_eq_nil_iff]
        omega
    · refine @Lexeme.fraction ['0'] _ _ (List.cons_ne_nil _ _) (by simp [hne]) ?_
      rw [List.singleton_append, List.forall_mem_cons, List.forall_mem_append]
      exact ⟨rfl, isDigit_zeros, hdigits⟩

theorem lexeme_magnitude (b : Nat) (rest : List Char) : Lexeme .number (magnitude b) rest := by
  rw [magnitude]
  split
  · exact .whole (List.cons_ne_nil _ _) (List.forall_mem_singleton.mpr rfl)
  · exact Scaled.lexeme_text _ _

/-- Whether the sign bit of a double is set; that of `-0` is. -/
def negative (x : Float) : Bool := 0x8000000000000000 ≤ x.toBits.toNat

/-- The bits of a double below its sign bit. -/
def bitsBelow (x : Float) : Nat := x.toBits.toNat % 0x8000000000000000

/-- With all bits of its exponent set, a double is infinite or no number at all. -/
theorem bitsBelow_lt {x : Float} (h : x.isFinite = true) : bitsBelow x < 0x7FF0000000000000 := by
  by_contra hlt
  have hexponent : @Float.Model.UnpackedFloat.unpackExponent Float.Model.Format.binary64
      x.toModel.toBits.toBitVec = -1#11 := by
    apply BitVec.eq_of_toNat_eq
    rw [bitsBelow, Float.toBits] at hlt
    rw [Float.Model.UnpackedFloat.unpackExponent]
    simp [BitVec.extractLsb]
    omega
  change x.toModel.unpack.isFinite = true at h
  rw [Float.Model.unpack, Float.Model.UnpackedFloat.unpack] at h
  simp only [hexponent, if_true] at h
  split at h <;> cases h

/-- A finite double is written with digits, behind a minus sign if it is negative. -/
theorem text_finite (sp : Spelling) {x : Float} (h : x.isFinite = true) :
    text sp x = String.ofList
      (if negative x then '-' :: magnitude (bitsBelow x) else magnitude (bitsBelow x)) := by
  have hlt := bitsBelow_lt h
  rw [bitsBelow] at hlt
  rw [text]
  simp only [Nat.not_lt.mpr (Nat.le_of_lt hlt), Nat.ne_of_lt hlt, if_false]
  simp [negative, bitsBelow]

end Decimal

/-! ### Fragments -/

namespace Fragment

theorem all_print (cs : List Char) :
    all ("print ".toList ++ cs) = ⟨.word, "print".toList⟩ :: space :: all cs := by
  have h : shapeOf 'p' ("rint ".toList ++ cs) = (.word, 4) := rfl
  have happend : "print ".toList ++ cs = 'p' :: ("rint ".toList ++ cs) := rfl
  rw [happend, all_cons, h, ← all_space]
  rfl

theorem all_semicolon : all [';'] = [⟨.operator .semicolon, [';']⟩] := rfl

theorem all_minus (cs : List Char) :
    all ('-' :: cs) = ⟨.operator .minus, ['-']⟩ :: all cs := by
  have h : shapeOf '-' cs = (.operator .minus, 0) := rfl
  rw [all_cons, h]
  rfl

theorem all_string {body : List Char} (h : '"' ∉ body) :
    all ('"' :: (body ++ ['"', ';'])) =
      [⟨.string, '"' :: (body ++ ['"'])⟩, ⟨.operator .semicolon, [';']⟩] := by
  have hsplit : body ++ ['"', ';'] = (body ++ ['"']) ++ [';'] := by simp
  rw [all_cons, shapeOf_quote, stringTail_closed h, hsplit]
  simp only
  rw [List.take_left' (by simp), List.drop_left' (by simp), all_semicolon]

theorem numberTail_semicolon {c : Char} {cs rest : List Char} (h : Lexeme .number (c :: cs) rest) :
    isDigit c = true ∧ numberTail (cs ++ [';']) = cs.length := by
  generalize htext : c :: cs = text at h
  cases h with
  | whole _ hds =>
    obtain ⟨hc, hcs⟩ := List.forall_mem_cons.mp (htext ▸ hds)
    refine ⟨hc, ?_⟩
    rw [numberTail, run_eq hcs rfl, List.drop_left]
    rfl
  | @fraction ds ps _ hds hps hdigits =>
    obtain ⟨d, ds, rfl⟩ := List.exists_cons_of_ne_nil hds
    obtain ⟨p, ps, rfl⟩ := List.exists_cons_of_ne_nil hps
    obtain ⟨rfl, rfl⟩ : c = d ∧ cs = ds ++ '.' :: p :: ps := List.cons.inj htext
    obtain ⟨hds, hps⟩ := List.forall_mem_append.mp hdigits
    obtain ⟨hc, hds⟩ := List.forall_mem_cons.mp hds
    obtain ⟨hp, hps⟩ := List.forall_mem_cons.mp hps
    refine ⟨hc, ?_⟩
    rw [List.append_assoc, List.cons_append, List.cons_append, numberTail_fraction hds hp,
      run_eq hps rfl]
    simp only [List.length_append, List.length_cons]
    omega

theorem all_number {cs rest : List Char} (h : Lexeme .number cs rest) :
    all (cs ++ [';']) = [⟨.number, cs⟩, ⟨.operator .semicolon, [';']⟩] := by
  obtain ⟨c, cs, rfl⟩ := List.exists_cons_of_ne_nil h.ne_nil
  obtain ⟨hc, htail⟩ := numberTail_semicolon h
  rw [List.cons_append, all_cons, shapeOf_digit hc, htail, List.take_left, List.drop_left,
    all_semicolon]

end Fragment

/-! ### Reading -/

namespace Decimal

/-- The double that digits with an optional minus sign spell. -/
def readSigned : List Char → Float
  | '-' :: cs => -read cs
  | cs => read cs

/-- Digits have no sign. -/
theorem readSigned_number {cs rest : List Char} (h : Lexeme .number cs rest) :
    readSigned cs = read cs := by
  obtain ⟨c, cs, rfl⟩ := List.exists_cons_of_ne_nil h.ne_nil
  have hc : isDigit c = true := (Fragment.numberTail_semicolon h).1
  have hminus : c ≠ '-' := by
    rintro rfl
    cases hc
  unfold readSigned
  split
  · next heq => exact absurd (List.cons.inj heq).1 hminus
  · rfl

end Decimal

namespace Session
open Decimal

variable {t : String} {x : Float}

theorem scan_string (h : '"' ∉ t.toList) : ∃ line stop, scan ("print \"" ++ t ++ "\";") =
    ([⟨.kwPrint, "print", 1, 0, 0, .nil⟩, ⟨.string, quote t, line, 6, 1, .str t⟩,
      ⟨.semicolon, ";", line, stop, 2, .nil⟩, ⟨.eof, "", line, stop + 1, 3, .nil⟩], []) := by
  have hall : Fragment.all ("print \"" ++ t ++ "\";").toList = [⟨.word, "print".toList⟩,
      Fragment.space, ⟨.string, '"' :: (t.toList ++ ['"'])⟩, ⟨.operator .semicolon, [';']⟩] := by
    have hsrc : ("print \"" ++ t ++ "\";").toList =
        "print ".toList ++ '"' :: (t.toList ++ ['"', ';']) := by simp
    rw [hsrc, Fragment.all_print, Fragment.all_string h]
  let body := '"' :: (t.toList ++ ['"'])
  have hvalue : String.ofList body.tail.dropLast = t := by simp [body]
  have hscan : scan ("print \"" ++ t ++ "\";") =
      ([⟨.kwPrint, "print", 1, 0, 0, .nil⟩,
        ⟨.string, quote t, 1 + body.count '\n', 6, 1, .str (String.ofList body.tail.dropLast)⟩,
        ⟨.semicolon, ";", 1 + body.count '\n', 6 + bytesOf body, 2, .nil⟩,
        ⟨.eof, "", 1 + body.count '\n', 6 + bytesOf body + 1, 3, .nil⟩], []) := by
    rw [scan, Scan.ofSource, hall]
    rfl
  rw [hvalue] at hscan
  exact ⟨_, _, hscan⟩

variable {cs rest : List Char}

theorem scan_number (h : Lexeme .number cs rest) : ∃ line stop,
    scan ("print " ++ String.ofList cs ++ ";") =
      ([⟨.kwPrint, "print", 1, 0, 0, .nil⟩,
        ⟨.number, String.ofList cs, line, 6, 1, .num (read cs)⟩,
        ⟨.semicolon, ";", line, stop, 2, .nil⟩, ⟨.eof, "", line, stop + 1, 3, .nil⟩], []) := by
  have hall : Fragment.all ("print " ++ String.ofList cs ++ ";").toList =
      [⟨.word, "print".toList⟩, Fragment.space, ⟨.number, cs⟩, ⟨.operator .semicolon, [';']⟩] := by
    have hsrc : ("print " ++ String.ofList cs ++ ";").toList =
        "print ".toList ++ (cs ++ [';']) := by simp
    rw [hsrc, Fragment.all_print, Fragment.all_number h]
  refine ⟨1 + cs.count '\n', 6 + bytesOf cs, ?_⟩
  rw [scan, Scan.ofSource, hall]
  rfl

theorem scan_negative (h : Lexeme .number cs rest) : ∃ line stop,
    scan ("print " ++ String.ofList ('-' :: cs) ++ ";") =
      ([⟨.kwPrint, "print", 1, 0, 0, .nil⟩, ⟨.minus, "-", 1, 6, 1, .nil⟩,
        ⟨.number, String.ofList cs, line, 7, 2, .num (read cs)⟩,
        ⟨.semicolon, ";", line, stop, 3, .nil⟩, ⟨.eof, "", line, stop + 1, 4, .nil⟩], []) := by
  have hall : Fragment.all ("print " ++ String.ofList ('-' :: cs) ++ ";").toList =
      [⟨.word, "print".toList⟩, Fragment.space, ⟨.operator .minus, ['-']⟩, ⟨.number, cs⟩,
        ⟨.operator .semicolon, [';']⟩] := by
    have hsrc : ("print " ++ String.ofList ('-' :: cs) ++ ";").toList =
        "print ".toList ++ '-' :: (cs ++ [';']) := by simp
    rw [hsrc, Fragment.all_print, Fragment.all_minus, Fragment.all_number h]
  refine ⟨1 + cs.count '\n', 7 + bytesOf cs, ?_⟩
  rw [scan, Scan.ofSource, hall]
  rfl

/-! ### Printing -/

variable {s : Session} {out : Output} {src : String} {keyword : Token} {e : Expr} {v : Value}
  {n : Nat}

/-- What there is room for is written as it is. -/
theorem write_fits (hfits : ∀ k ∈ out.room, t.toUTF8.size ≤ k) :
    ∃ o, out.write t = (none, o) ∧ o.written = out.written ++ t.toUTF8 := by
  obtain ⟨written, room, ρ⟩ := out
  cases room with
  | none => exact ⟨_, rfl, rfl⟩
  | some k => exact ⟨_, if_pos (hfits k rfl), rfl⟩

/-- A program that prints a value does nothing else. -/
theorem run_print (hparse : parseSource src = .ok [.print keyword e])
    (heval : ∀ m, Run.eval n e m = .ok v m)
    (hfits : ∀ k ∈ out.room, (v.text ++ "\n").toUTF8.size ≤ k) :
    ((s.writing out).run (n + 1) src).1 = ⟨out.written ++ (v.text ++ "\n").toUTF8, .done⟩ := by
  obtain ⟨o, hwrite, hwritten⟩ := write_fits hfits
  let m := (s.writing out).machine.ready
  have hline : printLine keyword v.text m = .ok () { m with out := o } := by
    rw [printLine, show m.out = out from rfl, hwrite]
  have hexec : Run.exec (n + 1) (.print keyword e) m = .ok .next { m with out := o } := by
    rw [exec_succ, stmtStep, Step.bind_of_ok (heval m), Step.bind_of_ok hline]
    rfl
  have hrun : sequence (Run.exec (n + 1)) [.print keyword e] m = .ok .next { m with out := o } :=
    Step.bind_of_ok hexec _
  rw [run_of_parse hparse, hrun, ← hwritten]
  rfl

/-- In any session whose output has room for it, a source writes a text and a newline, and reports
no error. -/
def Prints (src t : String) : Prop :=
  ∀ (s : Session) (room : Option Nat) (ρ : Refusal) (n : Nat),
    (∀ k ∈ room, (t ++ "\n").toUTF8.size ≤ k) → 4 ≤ n →
    ((s.writing ⟨.empty, room, ρ⟩).run n src).1 = ⟨(t ++ "\n").toUTF8, .done⟩

theorem prints_of_parse (hparse : parseSource src = .ok [.print keyword e])
    (heval : ∀ n m, Run.eval (n + 3) e m = .ok v m) : Prints src v.text := by
  intro s room ρ n hfits hn
  obtain ⟨n, rfl⟩ := Nat.exists_eq_add_of_le' hn
  rw [run_print hparse (heval n) hfits]
  exact congrArg (Report.mk · _) (ByteArray.empty_append ..)

theorem prints_string (h : '"' ∉ t.toList) : Prints ("print \"" ++ t ++ "\";") t := by
  obtain ⟨line, stop, hscan⟩ := scan_string h
  have hparse : parseSource ("print \"" ++ t ++ "\";") =
      .ok [.print ⟨.kwPrint, "print", 1, 0, 0, .nil⟩ (.literal (.str t))] := by
    rw [parseSource_eq_ok, hscan]
    exact ⟨rfl, rfl⟩
  exact prints_of_parse (v := .str t) hparse fun n m => by rw [eval_succ]; rfl

theorem parse_number (h : Lexeme .number cs rest) :
    parseSource ("print " ++ String.ofList cs ++ ";") =
      .ok [.print ⟨.kwPrint, "print", 1, 0, 0, .nil⟩ (.literal (.num (read cs)))] := by
  obtain ⟨line, stop, hscan⟩ := scan_number h
  rw [parseSource_eq_ok, hscan]
  exact ⟨rfl, rfl⟩

theorem prints_number (h : Lexeme .number cs rest) :
    Prints ("print " ++ String.ofList cs ++ ";") (Value.num (read cs)).text :=
  prints_of_parse (parse_number h) fun n m => by rw [eval_succ]; rfl

theorem parse_negative (h : Lexeme .number cs rest) :
    parseSource ("print " ++ String.ofList ('-' :: cs) ++ ";") =
      .ok [.print ⟨.kwPrint, "print", 1, 0, 0, .nil⟩
        (.unary ⟨.minus, "-", 1, 6, 1, .nil⟩ (.literal (.num (read cs))))] := by
  obtain ⟨line, stop, hscan⟩ := scan_negative h
  rw [parseSource_eq_ok, hscan]
  exact ⟨rfl, rfl⟩

theorem prints_negative (h : Lexeme .number cs rest) :
    Prints ("print " ++ String.ofList ('-' :: cs) ++ ";") (Value.num (-read cs)).text := by
  refine prints_of_parse (parse_negative h) fun n m => ?_
  have hnumber : Run.eval (n + 2) (.literal (.num (read cs))) m = .ok (.num (read cs)) m := by
    rw [eval_succ]
    rfl
  rw [eval_succ, exprStep, Step.bind_of_ok hnumber]
  rfl

/-- Printed literals read back. A string without quotes is written as it stands between quotes. A
finite number is written with digits and perhaps a point among them. If that reads as the number,
then to print it is to print one number, behind a minus sign if the sign bit is set, and the same is
written again. -/
theorem literals_read_back :
    (∀ t : String, '"' ∉ t.toList → Prints ("print \"" ++ t ++ "\";") t) ∧
    (∀ x : Float, x.isFinite = true → readSigned (Value.num x).text.toList = x →
      let src := "print " ++ (Value.num x).text ++ ";"
      (scan src).2 = [] ∧
      (scan src).1.map (·.kind) = .kwPrint ::
        ((if negative x then [.minus] else []) ++ [.number, .semicolon, .eof]) ∧
      (∃ program, parseSource src = .ok program) ∧ Prints src (Value.num x).text) := by
  refine ⟨fun t => prints_string, fun x hx hread => ?_⟩
  have hlexeme := lexeme_magnitude (bitsBelow x) []
  have htext : (Value.num x).text = String.ofList
      (if negative x then '-' :: magnitude (bitsBelow x) else magnitude (bitsBelow x)) :=
    text_finite Value.spelling hx
  rw [htext, String.toList_ofList] at hread
  generalize magnitude (bitsBelow x) = cs at hlexeme htext hread
  by_cases hneg : negative x = true
  · simp only [hneg, if_true] at htext hread ⊢
    obtain ⟨line, stop, hscan⟩ := scan_negative hlexeme
    have hprints := prints_negative hlexeme
    rw [show -read cs = x from hread, htext] at hprints
    rw [htext, parse_negative hlexeme, hscan]
    exact ⟨rfl, rfl, ⟨_, rfl⟩, hprints⟩
  · simp only [hneg, Bool.false_eq_true, if_false] at htext hread ⊢
    obtain ⟨line, stop, hscan⟩ := scan_number hlexeme
    have hprints := prints_number hlexeme
    rw [← readSigned_number hlexeme, hread, htext] at hprints
    rw [htext, parse_number hlexeme, hscan]
    exact ⟨rfl, rfl, ⟨_, rfl⟩, hprints⟩

/-- A quote of a comment mark on two lines, and half of minus one. -/
theorem literals_read_back_half :
    Prints "print \"//\nA\";" "//\nA" ∧
    Prints ("print " ++ (Value.num (-0.5)).text ++ ";") (Value.num (-0.5)).text := by
  have hread : readSigned (Value.num (-0.5)).text.toList = -0.5 := by decide +kernel
  exact ⟨literals_read_back.1 "//\nA" (by decide),
    (literals_read_back.2 (-0.5) (by decide +kernel) hread).2.2.2⟩

end Session
end Lox
