import Lox.Proofs.Grammar.Earliest
import Mathlib.Order.Bounds.Defs

/-!
Parsing that goes on after errors. A parser may be called again and again, and each call starts
where the one before it left the tokens. After a fatal error that is the next place where a
statement may start. It is always further on, unless no token is left, so the end is reached in the
end.
-/

namespace Lox

/-- The token at a place of a list; behind all of them, what stands for an end marker. -/
def tokenAt (ts : List Token) (k : Nat) : Token := ts[k]?.getD (.standIn ts)

/-- A place where parsing may go on: behind a semicolon, before a keyword that starts a statement,
or at the end. -/
def Boundary (ts : List Token) (k : Nat) : Prop :=
  (tokenAt ts (k - 1)).kind = .semicolon ∨ (tokenAt ts k).isEof = true ∨
    (tokenAt ts k).kind.startsStatement = true

/-- Where parsing goes on after a fatal error at `k`: at the next boundary, unless `k` is the
end. -/
def Resumes (ts : List Token) (k p : Nat) : Prop :=
  if (tokenAt ts k).isEof then p = k else IsLeast {p | k < p ∧ Boundary ts p} p

/-! ### The next boundary -/

/-- The token at a fatal error is dropped, if there is one. -/
theorem synchronize_length {ts : List Token} (h : ts ≠ []) :
    (synchronize ts).length < ts.length := by
  cases ts with
  | nil => exact absurd rfl h
  | cons t ts => exact Nat.lt_succ_of_le (skipToBoundary_suffix t ts).length_le

namespace Parser

section
variable {ts us vs : List Token} {t : Token}

theorem tokenAt_of_split (h : (ofTokens ts).rest = us ++ vs) :
    tokenAt ts us.length = vs.head?.getD (ofTokens ts).stop := (next_of_split h).symm

theorem not_isEof_of_split (h : (ofTokens ts).rest = us ++ t :: vs) : t.isEof = false := by
  cases heof : t.isEof with
  | false => rfl
  | true => exact absurd (end_of_isEof h heof) (List.cons_ne_nil t vs)

/-- Only at the end of all tokens is there an end marker. -/
theorem eq_length_of_isEof {k : Nat} (hk : k ≤ (ofTokens ts).rest.length)
    (heof : (tokenAt ts k).isEof = true) : k = (ofTokens ts).rest.length := by
  have hsplit := (List.take_append_drop k (ofTokens ts).rest).symm
  have htoken := tokenAt_of_split hsplit
  rw [List.length_take, Nat.min_eq_left hk] at htoken
  have hend := end_of_isEof hsplit (htoken ▸ heof)
  exact Nat.le_antisymm hk (List.drop_eq_nil_iff.mp hend)

/-- What is skipped behind the token `t` is what comes before the next boundary. -/
theorem isLeast_skipToBoundary (h : (ofTokens ts).rest = us ++ t :: vs) :
    ∃ p, IsLeast {p | us.length < p ∧ Boundary ts p} p ∧ p ≤ (ofTokens ts).rest.length ∧
      skipToBoundary t vs = (ofTokens ts).rest.drop p := by
  induction vs generalizing us t with
  | nil =>
    have hsplit : (ofTokens ts).rest = (us ++ [t]) ++ [] := by simpa using h
    have hstop := tokenAt_of_split hsplit
    have hnext : Boundary ts (us.length + 1) := by
      refine .inr (.inl ?_)
      rw [List.length_append, List.length_singleton] at hstop
      rw [hstop]
      exact (ofTokens ts).isEof_stop
    refine ⟨us.length + 1, ⟨⟨Nat.lt_succ_self _, hnext⟩, fun p hp => hp.1⟩, ?_, ?_⟩ <;>
      simp [h, skipToBoundary]
  | cons u vs ih =>
    have hsplit : (ofTokens ts).rest = (us ++ [t]) ++ u :: vs := by simpa using h
    have ht : tokenAt ts us.length = t := tokenAt_of_split h
    have hu : tokenAt ts (us.length + 1) = u := by
      simpa using tokenAt_of_split hsplit
    have hiff : Boundary ts (us.length + 1) ↔
        (t.kind == .semicolon || u.kind.startsStatement) = true := by
      simp [Boundary, ht, hu, not_isEof_of_split hsplit]
    rw [skipToBoundary]
    by_cases hb : (t.kind == .semicolon || u.kind.startsStatement) = true
    · rw [if_pos hb]
      refine ⟨us.length + 1, ⟨⟨Nat.lt_succ_self _, hiff.mpr hb⟩, fun p hp => hp.1⟩, ?_, ?_⟩ <;>
        simp [h]
    · rw [if_neg hb]
      obtain ⟨p, ⟨⟨hlt, hp⟩, hleast⟩, hle, hdrop⟩ := ih hsplit
      rw [List.length_append, List.length_singleton] at hlt hleast
      refine ⟨p, ⟨⟨Nat.lt_of_succ_lt hlt, hp⟩, fun q hq => ?_⟩, hle, hdrop⟩
      -- the place right behind `t` is no boundary
      have hne : q ≠ us.length + 1 := by
        rintro rfl
        exact hb (hiff.mp hq.2)
      exact hleast ⟨Nat.lt_of_le_of_ne hq.1 hne.symm, hq.2⟩

/-- After a fatal error with `vs` left, parsing goes on where `Resumes` says. -/
theorem resumes_synchronize (h : (ofTokens ts).rest = us ++ vs) :
    ∃ p, Resumes ts us.length p ∧ p ≤ (ofTokens ts).rest.length ∧
      synchronize vs = (ofTokens ts).rest.drop p := by
  have htoken := tokenAt_of_split h
  cases vs with
  | nil =>
    have heof : (tokenAt ts us.length).isEof = true := htoken ▸ (ofTokens ts).isEof_stop
    refine ⟨us.length, ?_, ?_, ?_⟩
    · rw [Resumes, if_pos heof]
    · simp [h]
    · simp [h, synchronize]
  | cons t vs =>
    have heof : (tokenAt ts us.length).isEof = false := htoken ▸ not_isEof_of_split h
    obtain ⟨p, hp, hle, hdrop⟩ := isLeast_skipToBoundary h
    refine ⟨p, ?_, hle, hdrop⟩
    rw [Resumes, if_neg (by simp [heof])]
    exact hp

end

/-! ### Calls -/

/-- A parser after `n` calls. -/
def after (p : Parser) : Nat → Parser
  | 0 => p
  | n + 1 => (p.after n).parse.2

/-- What the call after `n` others gives. -/
def answer (p : Parser) (n : Nat) : Except (List GrammarError) (List Stmt) := (p.after n).parse.1

/-- The place at which the call after `n` others starts. -/
def start (ts : List Token) (n : Nat) : Nat :=
  (ofTokens ts).rest.length - ((ofTokens ts).after n).rest.length

/-- The call after `n` others ends at the fatal error `e`, with the parser at the token at `k`. -/
def FailsAt (ts : List Token) (n k : Nat) (e : GrammarError) : Prop :=
  let p := (ofTokens ts).after n
  ∃ problem s, Parse.program p.rest.length ⟨p.rest, #[]⟩ = .error problem s ∧
    e = problem.toError p.stop ∧ k ≤ (ofTokens ts).rest.length ∧
    s.rest = (ofTokens ts).rest.drop k

/-- What is left after a call: nothing, or what is behind the next boundary. -/
theorem parse_cases (p : Parser) :
    (∃ ss r, Parse.program p.rest.length ⟨p.rest, #[]⟩ = .ok ss ⟨[], r⟩ ∧ p.parse.2.rest = []) ∨
      ∃ q s, Parse.program p.rest.length ⟨p.rest, #[]⟩ = .error q s ∧ s.rest <:+ p.rest ∧
        p.parse.2.rest = synchronize s.rest := by
  cases h : Parse.program p.rest.length ⟨p.rest, #[]⟩ with
  | ok ss s =>
    obtain ⟨r, -, rfl⟩ := Parse.program_eq_ok.mp h
    exact .inl ⟨ss, r, rfl, (parse_of_ok h).2⟩
  | error q s =>
    exact .inr ⟨q, s, rfl, (Parse.LeavesSuffix.program _).error h, (parse_of_error h).2⟩

theorem parse_suffix (p : Parser) : p.parse.2.rest <:+ p.rest := by
  rcases p.parse_cases with ⟨_, _, -, h⟩ | ⟨_, s, -, hs, h⟩ <;> rw [h]
  · exact List.nil_suffix
  · exact (synchronize_suffix s.rest).trans hs

/-- Where no token is left, there is nothing to complain about. -/
theorem parse_end {p : Parser} (h : p.rest = []) : p.parse = (.ok [], p) := by
  obtain ⟨rest, stop, hrest, hstop⟩ := p
  obtain rfl : rest = [] := h
  rfl

/-- A call that gives a program has taken all tokens. -/
theorem parse_ok_rest {p : Parser} {ss : List Stmt} (h : p.parse.1 = .ok ss) :
    p.parse.2.rest = [] := by
  rcases p.parse_cases with ⟨_, _, -, hrest⟩ | ⟨q, s, hrun, -, -⟩
  · exact hrest
  · rw [(parse_of_error hrun).1] at h
    cases h

/-- A call that fails leaves fewer tokens than it found. -/
theorem parse_error_lt {p : Parser} {es : List GrammarError} (h : p.parse.1 = .error es) :
    p.parse.2.rest.length < p.rest.length := by
  have hsome : p.rest ≠ [] := fun hnil => by
    rw [parse_end hnil] at h
    cases h
  rcases p.parse_cases with ⟨_, _, -, hrest⟩ | ⟨_, s, -, hs, hrest⟩ <;> rw [hrest]
  · exact List.length_pos_iff.mpr hsome
  · by_cases hend : s.rest = []
    · rw [hend]
      exact List.length_pos_iff.mpr hsome
    · exact Nat.lt_of_lt_of_le (synchronize_length hend) hs.length_le

section
variable (p : Parser) (ts : List Token)

theorem after_add (m n : Nat) : p.after (m + n) = (p.after m).after n := by
  induction n with
  | zero => rfl
  | succ n ih => rw [← Nat.add_assoc, after, ih, after]

/-- Calls after one call are calls of the parser that it leaves. -/
theorem after_succ (n : Nat) : p.after (n + 1) = p.parse.2.after n := by
  rw [Nat.add_comm, after_add]
  rfl

@[simp] theorem after_stop (n : Nat) : (p.after n).stop = p.stop := by
  induction n with
  | zero => rfl
  | succ n ih => rw [after, parse_stop, ih]

theorem after_suffix {m n : Nat} (h : m ≤ n) : (p.after n).rest <:+ (p.after m).rest := by
  induction h with
  | refl => exact List.suffix_rfl
  | step _ ih => exact (parse_suffix _).trans ih

/-- The parser never moves backwards. -/
theorem start_mono {m n : Nat} (h : m ≤ n) : start ts m ≤ start ts n :=
  Nat.sub_le_sub_left ((ofTokens ts).after_suffix h).length_le _

theorem start_of_drop {n k : Nat} (hk : k ≤ (ofTokens ts).rest.length)
    (h : ((ofTokens ts).after n).rest = (ofTokens ts).rest.drop k) : start ts n = k := by
  rw [start, h, List.length_drop]
  omega

end

/-! ### Failing calls -/

section
variable {ts : List Token} {m n k k' : Nat} {e e' : GrammarError}

namespace FailsAt

/-- A call fails at a place that it has come to, and the error is about the token there. -/
theorem place (h : FailsAt ts n k e) : start ts n ≤ k ∧ e.token = tokenAt ts k := by
  obtain ⟨problem, s, hrun, rfl, hk, hs⟩ := h
  obtain ⟨hspot, us, hsplit, -⟩ := (Parse.Viable.program _).error hrun
  have hsplit : ((ofTokens ts).after n).rest = us ++ s.rest := hsplit
  have hall := List.take_append_drop k (ofTokens ts).rest
  rw [← hs] at hall
  have htoken := tokenAt_of_split hall.symm
  rw [List.length_take, Nat.min_eq_left hk] at htoken
  constructor
  · have hlen := congrArg List.length hsplit
    rw [hs, List.length_append, List.length_drop] at hlen
    rw [start, hlen]
    omega
  · rw [htoken, Problem.toError, hspot, after_stop]

/-- The next call starts at the next boundary. -/
theorem resumes (h : FailsAt ts n k e) : Resumes ts k (start ts (n + 1)) := by
  obtain ⟨problem, s, hrun, -, hk, hs⟩ := h
  have hall := List.take_append_drop k (ofTokens ts).rest
  rw [← hs] at hall
  obtain ⟨p, hp, hle, hdrop⟩ := resumes_synchronize hall.symm
  rw [List.length_take, Nat.min_eq_left hk] at hp
  have hnext : ((ofTokens ts).after (n + 1)).rest = (ofTokens ts).rest.drop p := by
    rw [after, (parse_of_error hrun).2, hdrop]
  rw [start_of_drop ts hle hnext]
  exact hp

/-- Where no token is left, no call fails. -/
theorem start_lt (h : FailsAt ts n k e) : start ts n < (ofTokens ts).rest.length := by
  obtain ⟨problem, s, hrun, -⟩ := h
  have hsome : 0 < ((ofTokens ts).after n).rest.length := by
    refine List.length_pos_iff.mpr fun hnil => ?_
    rw [hnil] at hrun
    cases hrun
  have hle := ((ofTokens ts).after_suffix (Nat.zero_le n)).length_le
  exact Nat.sub_lt (Nat.lt_of_lt_of_le hsome hle) hsome

/-- Where a later call fails is further on. -/
theorem lt (h : FailsAt ts m k e) (h' : FailsAt ts n k' e') (hmn : m < n) : k < k' := by
  have hnext := h.resumes
  have hstart : start ts (m + 1) ≤ start ts n := start_mono ts hmn
  rw [Resumes] at hnext
  split at hnext
  · -- a call that failed at the end has left nothing for the later one
    obtain ⟨-, -, -, -, hk, -⟩ := h
    have hlast := eq_length_of_isEof hk ‹_›
    have hlt := h'.start_lt
    omega
  · exact Nat.lt_of_lt_of_le hnext.1.1 (Nat.le_trans hstart h'.place.1)

end FailsAt

theorem exists_failsAt {es : List GrammarError} (h : (ofTokens ts).answer n = .error es)
    (he : e ∈ es) (hfatal : e.flaw.fatal = true) : ∃ k, FailsAt ts n k e := by
  obtain ⟨problem, s, hrun, rfl⟩ := exists_problem h he hfatal
  obtain ⟨-, us, hsplit, -⟩ := (Parse.Viable.program _).error hrun
  have hsplit : ((ofTokens ts).after n).rest = us ++ s.rest := hsplit
  have hsuffix := (List.suffix_append us s.rest).trans
    (hsplit ▸ (ofTokens ts).after_suffix (Nat.zero_le n))
  exact ⟨_, problem, s, hrun, rfl, Nat.sub_le _ _, List.suffix_iff_eq_drop.mp hsuffix⟩

/-- Calls fail as long as they stop at errors, the next one takes all tokens, and then there is
nothing left. -/
theorem exists_first_ok (p : Parser) :
    ∃ m ≤ p.rest.length, (∀ n < m, ∃ es, p.answer n = .error es) ∧ (∃ ss, p.answer m = .ok ss) ∧
      ∀ n, m < n → p.answer n = .ok [] := by
  induction hlen : p.rest.length using Nat.strong_induction_on generalizing p with
  | h len ih =>
    cases h : p.parse.1 with
    | ok ss =>
      refine ⟨0, Nat.zero_le _, fun n hn => absurd hn (Nat.not_lt_zero n), ⟨ss, h⟩, fun n hn => ?_⟩
      have hend : (p.after n).rest = [] :=
        List.suffix_nil.mp (parse_ok_rest h ▸ p.after_suffix hn)
      rw [answer, parse_end hend]
    | error es =>
      have hlt := hlen ▸ parse_error_lt h
      obtain ⟨m, hm, hfail, hok, hend⟩ := ih _ hlt p.parse.2 rfl
      have hanswer (n : Nat) : p.answer (n + 1) = p.parse.2.answer n := by
        rw [answer, after_succ, answer]
      refine ⟨m + 1, by omega, fun n hn => ?_, by rwa [hanswer], fun n hn => ?_⟩
      · cases n with
        | zero => exact ⟨es, h⟩
        | succ n =>
          rw [hanswer]
          exact hfail n (Nat.lt_of_succ_lt_succ hn)
      · obtain ⟨n, rfl⟩ := Nat.exists_eq_add_of_le' (Nat.le_trans (Nat.le_add_left 1 m) hn.le)
        rw [hanswer]
        exact hend n (Nat.lt_of_succ_lt_succ hn)

end

/-- Recovery stops at the right place and always makes progress. A call that ends in a fatal error
does so at a token that it has come to, and the next call starts at the next boundary behind it.
Each fatal error is further on than those before it, the parser never moves backwards, and there are
no more failing calls than tokens: behind them comes one call that takes all that is left, and no
call behind that one has anything to take. -/
theorem recovers (ts : List Token) :
    (∀ n es e, (ofTokens ts).answer n = .error es → e ∈ es → e.flaw.fatal = true →
      ∃ k, FailsAt ts n k e ∧ start ts n ≤ k ∧ e.token = tokenAt ts k ∧
        Resumes ts k (start ts (n + 1))) ∧
    (∀ m n k k' e e', FailsAt ts m k e → FailsAt ts n k' e' → m < n → k < k') ∧
    (∀ m n, m ≤ n → start ts m ≤ start ts n) ∧
    ∃ m ≤ ts.length, (∀ n < m, ∃ es, (ofTokens ts).answer n = .error es) ∧
      (∃ ss, (ofTokens ts).answer m = .ok ss) ∧ ∀ n, m < n → (ofTokens ts).answer n = .ok [] := by
  refine ⟨fun n es e h he hfatal => ?_, fun _ _ _ _ _ _ h h' => h.lt h', fun _ _ => start_mono ts,
    ?_⟩
  · obtain ⟨k, hk⟩ := exists_failsAt h he hfatal
    exact ⟨k, hk, hk.place.1, hk.place.2, hk.resumes⟩
  · obtain ⟨m, hm, hrest⟩ := (ofTokens ts).exists_first_ok
    exact ⟨m, Nat.le_trans hm (List.takeWhile_sublist _).length_le, hrest⟩

/-- After `a a` the parser goes on behind the semicolon. -/
theorem recovers_semicolon :
    let a : Token := ⟨.identifier, "a", 1, 2, 1, .nil⟩
    let print : Token := ⟨.kwPrint, "print", 1, 5, 3, .nil⟩
    let ts : List Token := [⟨.identifier, "a", 1, 0, 0, .nil⟩, a, ⟨.semicolon, ";", 1, 3, 2, .nil⟩,
      print, a, ⟨.semicolon, ";", 1, 12, 5, .nil⟩]
    let e : GrammarError := ⟨.missing .expressionEnd, a⟩
    (ofTokens ts).answer 0 = .error [e] ∧ e ∈ [e] ∧ e.flaw.fatal = true ∧
    (∃ k, FailsAt ts 0 k e ∧ start ts 0 ≤ k ∧ e.token = tokenAt ts k ∧
      Resumes ts k (start ts 1)) ∧
    start ts 1 = 3 ∧ (ofTokens ts).answer 1 = .ok [.print print (.variable a)] ∧
    (ofTokens ts).answer 2 = .ok [] := by
  intro a print ts e
  have h : (ofTokens ts).answer 0 = .error [e] := rfl
  have he : e ∈ [e] := List.mem_singleton.mpr rfl
  exact ⟨h, he, rfl, (recovers ts).1 0 [e] e h he rfl, rfl, rfl, rfl⟩

end Parser
end Lox
