import Lox.Proofs.Grammar.CursorCalls

/-!
What a parser looks at. A call looks at nothing but the tokens from the place on at which it starts
up to the first end marker. So a parser that has been called before goes on as a new one would from
there, tokens behind an end marker make no difference, and without an end marker parsing goes as it
would with one.
-/

namespace Lox

namespace Parser

variable {ts us vs : List Token} {e : Token}

theorem ofTokens_append (hus : ∀ t ∈ us, t.isEof = false) (he : e.isEof = true)
    (vs : List Token) :
    (ofTokens (us ++ e :: vs)).rest = us ∧ (ofTokens (us ++ e :: vs)).stop = e := by
  have hrest : (us ++ e :: vs).takeWhile (!·.isEof) = us := by
    rw [List.takeWhile_append_of_pos (by simpa using hus), List.takeWhile_cons]
    simp [he]
  have hstop : (us ++ e :: vs).find? (·.isEof) = some e :=
    List.find?_eq_some_iff_append.mpr ⟨he, us, vs, rfl, by simpa using hus⟩
  exact ⟨hrest, by rw [stop_ofTokens, hstop]; rfl⟩

/-- Parsers are the same for tokens that are the same up to the first end marker. -/
theorem ofTokens_eq_of_append {ws : List Token} (hus : ∀ t ∈ us, t.isEof = false)
    (he : e.isEof = true) : ofTokens (us ++ e :: vs) = ofTokens (us ++ e :: ws) := by
  obtain ⟨hrest, hstop⟩ := ofTokens_append hus he vs
  obtain ⟨hrest', hstop'⟩ := ofTokens_append hus he ws
  exact Parser.ext (hrest.trans hrest'.symm) (hstop.trans hstop'.symm)

/-- Without an end marker it is as if the stand-in for one stood at the end. -/
theorem ofTokens_of_forall (h : ∀ t ∈ ts, t.isEof = false) :
    ofTokens ts = ofTokens (ts ++ [Token.standIn ts]) := by
  have hrest : ts.takeWhile (!·.isEof) = ts := List.takeWhile_eq_self_iff.mpr (by simpa using h)
  have hstop : ts.find? (·.isEof) = none := List.find?_eq_none.mpr (by simpa using h)
  have hmarker : (Token.standIn ts).isEof = true := rfl
  obtain ⟨hrest', hstop'⟩ := ofTokens_append h hmarker []
  refine Parser.ext (hrest.trans hrest'.symm) (Eq.trans ?_ hstop'.symm)
  rw [stop_ofTokens, hstop]
  rfl

/-- The tokens before the first end marker, that marker, and all behind it. -/
theorem exists_split (h : ∃ t ∈ ts, t.isEof = true) :
    ∃ us e vs, ts = us ++ e :: vs ∧ (∀ t ∈ us, t.isEof = false) ∧ e.isEof = true := by
  obtain ⟨e, hfind⟩ := Option.isSome_iff_exists.mp (List.find?_isSome.mpr h)
  obtain ⟨he, us, vs, rfl, hus⟩ := List.find?_eq_some_iff_append.mp hfind
  exact ⟨us, e, vs, rfl, by simpa using hus, he⟩

/-- The first end marker comes no later than any other. -/
theorem findIdx_le_length (he : e.isEof = true) :
    (ts ++ e :: vs).findIdx Token.isEof ≤ ts.length := by
  rw [List.findIdx_append]
  split
  · next h => exact h.le
  · simp [List.findIdx_cons, he]

/-- Tokens behind an end marker are out of sight. -/
theorem ofTokens_append_right (h : ∃ t ∈ ts, t.isEof = true) :
    ofTokens (ts ++ vs) = ofTokens ts := by
  obtain ⟨us, e, ws, rfl, hus, he⟩ := exists_split h
  rw [List.append_assoc, List.cons_append]
  exact ofTokens_eq_of_append hus he

end Parser

namespace Cursor

variable {ts ts' : List Token} {c c' : Cursor} {n : Nat}

/-- What is left behind a cursor is what a new parser has when the tokens begin there. -/
theorem Idle.left_eq_ofTokens (h : c.Idle ts) (hend : ∃ t ∈ ts, t.isEof = true) :
    c.left ts = Parser.ofTokens (ts.drop c.current) := by
  obtain ⟨us, e, vs, rfl, hus, he⟩ := Parser.exists_split hend
  obtain ⟨hrest, hstop⟩ := Parser.ofTokens_append hus he vs
  have hinside : c.current ≤ us.length := by
    rw [← congrArg List.length hrest, Parser.length_rest]
    exact h.inside
  have hleft : ∀ t ∈ us.drop c.current, t.isEof = false :=
    fun t ht => hus t (List.mem_of_mem_drop ht)
  obtain ⟨hrest', hstop'⟩ := Parser.ofTokens_append hleft he vs
  rw [List.drop_append_of_le_length hinside]
  refine Parser.ext ?_ (hstop.trans hstop'.symm)
  rw [left_rest, hrest, hrest']

/-- Two parsers with the same tokens left, and the same end marker behind them, give the same
answers and go equally far. -/
theorem Idle.answer_same (h : c.Idle ts) (h' : c'.Idle ts') (hleft : c.left ts = c'.left ts')
    (hn : ts.findIdx Token.isEof + maxNesting < n) (hn' : ts'.findIdx Token.isEof + maxNesting < n)
    (m : Nat) :
    ∃ c₁ c₁', Walk.answer ts n m c = .ok ((c.left ts).answer m) c₁ ∧
      Walk.answer ts' n m c' = .ok ((c.left ts).answer m) c₁' ∧
      c₁.current + c'.current = c.current + c₁'.current := by
  obtain ⟨c₁, hanswer, hidle, hafter⟩ := h.answer hn m
  obtain ⟨c₁', hanswer', hidle', hafter'⟩ := h'.answer hn' m
  rw [← hleft] at hanswer' hafter'
  refine ⟨c₁, c₁', hanswer, hanswer', ?_⟩
  have hlen := h.length_left
  have hlen' := h'.length_left
  have hlen₁ := hidle.length_left
  have hlen₁' := hidle'.length_left
  rw [← hleft] at hlen'
  rw [hafter] at hlen₁
  rw [hafter'] at hlen₁'
  omega

/-- A parser that goes on is a new parser. Whatever the calls before have come to, no level is open
behind them and nothing is reported, and the next call, like all that follow it, gives what it would
if the tokens began at the place where it starts. -/
theorem goes_on_as_new (ts : List Token) (e : Token) (he : e.isEof = true) (n : Nat)
    (hn : ts.length + maxNesting < n) (m : Nat) :
    let all := ts ++ [e]
    ∃ c, Walk.calls all n m start = .ok () c ∧ c.current = Parser.start all m ∧
      c.current ≤ ts.length ∧ c.nesting = 0 ∧ c.reports = #[] ∧
      ∀ k, ∃ a c₁ c₂, Walk.answer all n k c = .ok a c₁ ∧
        Walk.answer (all.drop c.current) n k start = .ok a c₂ ∧
        c₁.current = c.current + c₂.current := by
  intro all
  have hend : ∃ t ∈ all, t.isEof = true := ⟨e, List.mem_concat_self, he⟩
  have hsight : all.findIdx Token.isEof ≤ ts.length := Parser.findIdx_le_length he
  obtain ⟨c, hcalls, hidle, hleft⟩ := (Idle.start all).calls (n := n) (by omega) m
  have hinside := hidle.inside
  have hlen := hidle.length_left
  refine ⟨c, hcalls, ?_, Nat.le_trans hinside hsight, hidle.nesting, hidle.reports, fun k => ?_⟩
  · rw [hleft, left_start] at hlen
    rw [Parser.start, Parser.length_rest]
    omega
  · have hnew : c.left all = left (all.drop c.current) start := hidle.left_eq_ofTokens hend
    have hsight' := congrArg (·.rest.length) hnew
    simp only [left_start, Parser.length_rest] at hsight'
    obtain ⟨c₁, c₂, hanswer, hanswer', hcurrent⟩ :=
      hidle.answer_same (Idle.start _) hnew (n := n) (by omega) (by omega) k
    exact ⟨_, c₁, c₂, hanswer, hanswer', hcurrent⟩

/-- After an operand is missed inside of two parentheses, parsing goes on as if they had never been
there. -/
theorem goes_on_as_new_nested :
    let paren : Token := ⟨.leftParen, "(", 1, 0, 0, .nil⟩
    let semi : Token := ⟨.semicolon, ";", 1, 2, 2, .nil⟩
    let nil : Token := ⟨.kwNil, "nil", 1, 4, 3, .nil⟩
    let e : Token := ⟨.eof, "", 1, 8, 5, .nil⟩
    let ts : List Token := [paren, paren, semi, nil, semi]
    let all := ts ++ [e]
    e.isEof = true ∧ ts.length + maxNesting < 2000 ∧
    (∃ c, Walk.answer all 2000 0 start = .ok (.error [⟨.noExpression, semi⟩]) c) ∧
    ∃ c c₁ c₂, Walk.calls all 2000 1 start = .ok () c ∧ c.current = 3 ∧
      Walk.answer all 2000 0 c = .ok (.ok [.expression (.literal .nil)]) c₁ ∧
      Walk.answer [nil, semi, e] 2000 0 start = .ok (.ok [.expression (.literal .nil)]) c₂ := by
  intro paren semi nil e ts all
  have hn : ts.length + maxNesting < 2000 := by decide
  obtain ⟨c₀, hfirst, -⟩ := (Idle.start all).answer (n := 2000) (by decide) 0
  obtain ⟨c, hcalls, hcurrent, -, -, -, hnext⟩ := goes_on_as_new ts e rfl 2000 hn 1
  obtain ⟨a, c₁, c₂, hanswer, hanswer', -⟩ := hnext 0
  have hthree : c.current = 3 := hcurrent
  rw [hthree] at hanswer'
  obtain ⟨c₃, hnew, -⟩ := (Idle.start [nil, semi, e]).answer (n := 2000) (by decide) 0
  obtain rfl : a = .ok [.expression (.literal .nil)] :=
    (EStateM.Result.ok.inj (hanswer'.symm.trans hnew)).1
  exact ⟨rfl, hn, ⟨c₀, hfirst⟩, c, c₁, c₂, hcalls, hthree, hanswer, hanswer'⟩

/-- The end is one and the same. Tokens without an end marker are parsed as with one that is on the
line of the last of them, and what stands behind an end marker makes no difference. -/
theorem end_uniform :
    (∀ ts : List Token, (∀ t ∈ ts, t.isEof = false) →
      let marked := ts ++ [⟨.eof, "", (ts.getLast?.map (·.line)).getD 1, 0, ts.length, .nil⟩]
      ∀ n, ts.length + maxNesting < n → ∀ m, ∃ a c c', Walk.answer ts n m start = .ok a c ∧
        Walk.answer marked n m start = .ok a c' ∧ c.current = c'.current) ∧
    ∀ (ts : List Token) (e : Token) (rest : List Token), e.isEof = true →
      ∀ n, ts.length + maxNesting < n → ∀ m, ∃ a c c',
        Walk.answer (ts ++ [e] ++ rest) n m start = .ok a c ∧
        Walk.answer (ts ++ [e]) n m start = .ok a c' ∧ c.current = c'.current := by
  have same (ts ts' : List Token) (n : Nat) (hleft : Parser.ofTokens ts = .ofTokens ts')
      (hn : ts.findIdx Token.isEof + maxNesting < n)
      (hn' : ts'.findIdx Token.isEof + maxNesting < n) (m : Nat) :
      ∃ a c c', Walk.answer ts n m start = .ok a c ∧ Walk.answer ts' n m start = .ok a c' ∧
        c.current = c'.current := by
    obtain ⟨c, c', hanswer, hanswer', hcurrent⟩ :=
      (Idle.start ts).answer_same (Idle.start ts') hleft hn hn' m
    exact ⟨_, c, c', hanswer, hanswer', by simpa [start] using hcurrent⟩
  constructor
  · intro ts hts marked n hn
    have hsight : ts.findIdx Token.isEof ≤ ts.length := List.findIdx_le_length
    have hsight' : marked.findIdx Token.isEof ≤ ts.length := Parser.findIdx_le_length rfl
    exact same ts marked n (Parser.ofTokens_of_forall hts) (by omega) (by omega)
  · intro ts e rest he n hn
    have hend : ∃ t ∈ ts ++ [e], t.isEof = true := ⟨e, List.mem_concat_self, he⟩
    have hsight : (ts ++ [e]).findIdx Token.isEof ≤ ts.length := Parser.findIdx_le_length he
    have hsight' : (ts ++ [e] ++ rest).findIdx Token.isEof ≤ ts.length := by
      rw [List.append_assoc]
      exact Parser.findIdx_le_length he
    exact same _ _ n (Parser.ofTokens_append_right hend) (by omega) (by omega)

/-- What is missed behind `print` shows at the end, with a marker or without one, and the tokens
behind a marker are never parsed. -/
theorem end_uniform_print :
    let print : Token := ⟨.kwPrint, "print", 3, 0, 0, .nil⟩
    let e : Token := ⟨.eof, "", 3, 0, 1, .nil⟩
    (∀ t ∈ [print], t.isEof = false) ∧ e.isEof = true ∧ [print].length + maxNesting < 2000 ∧
    (∃ c c', Walk.answer [print] 2000 0 start = .ok (.error [⟨.noExpression, e⟩]) c ∧
      Walk.answer [print, e] 2000 0 start = .ok (.error [⟨.noExpression, e⟩]) c') ∧
    ∃ c c', Walk.answer [print, e, print, e] 2000 1 start = .ok (.ok []) c ∧
      Walk.answer [print, e] 2000 1 start = .ok (.ok []) c' := by
  intro print e
  have hprint : ∀ t ∈ [print], t.isEof = false := by decide
  have hn : [print].length + maxNesting < 2000 := by decide
  have hknown (m : Nat) := (Idle.start [print, e]).answer (n := 2000) (by decide) m
  obtain ⟨a, c, c', hanswer, hmarked, -⟩ := end_uniform.1 [print] hprint 2000 hn 0
  obtain ⟨a', c₁, c₁', hanswer', hshort, -⟩ := end_uniform.2 [print] e [print, e] rfl 2000 hn 1
  obtain ⟨c₂, hfirst, -⟩ := hknown 0
  obtain ⟨c₃, hsecond, -⟩ := hknown 1
  obtain rfl : a = .error [⟨.noExpression, e⟩] :=
    (EStateM.Result.ok.inj (hmarked.symm.trans hfirst)).1
  obtain rfl : a' = .ok [] := (EStateM.Result.ok.inj (hshort.symm.trans hsecond)).1
  exact ⟨hprint, rfl, hn, ⟨c, c', hanswer, hmarked⟩, c₁, c₁', hanswer', hshort⟩

end Cursor
end Lox
