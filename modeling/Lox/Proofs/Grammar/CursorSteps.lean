import Lox.Proofs.Grammar.CompleteStatement
import Lox.Proofs.Grammar.Cursor
import Mathlib.Data.List.Basic
import Mathlib.Data.List.TakeWhile

/-!
Steps of a parser with a cursor, beside the same steps over the tokens that are left. A cursor
agrees with the tokens that are left if it stands where they begin. Steps keep this, and what is put
together from them does: as many levels are open at the end as at the beginning, the cursor has not
gone back, and reports have only been added.
-/

namespace Lox

/-! ### The tokens in sight -/

namespace Parser

variable (ts : List Token)

theorem ofTokens_rest : (ofTokens ts).rest = ts.take (ts.findIdx Token.isEof) := by
  simp [ofTokens, List.takeWhile_eq_take_findIdx_not]

theorem ofTokens_stop :
    (ofTokens ts).stop = ts[ts.findIdx Token.isEof]?.getD (Token.standIn ts) := by
  rw [stop_ofTokens, List.find?_eq_getElem?_findIdx]

variable {ts}

theorem getElem?_rest {i : Nat} (h : i < ts.findIdx Token.isEof) :
    (ofTokens ts).rest[i]? = ts[i]? := by
  rw [ofTokens_rest, List.getElem?_take_of_lt h]

theorem length_rest : (ofTokens ts).rest.length = ts.findIdx Token.isEof := by
  rw [ofTokens_rest, List.length_take, Nat.min_eq_left List.findIdx_le_length]

end Parser

namespace Walk
open Parse Step

/-! ### A cursor and the tokens that are left -/

/-- The cursor of `c` is where `s` has come to. All reports of `c` beyond `before` are those of `s`,
`k` levels are open, and never more than `top` have been. -/
structure Agrees (ts : List Token) (before : Array GrammarError) (top k : Nat) (c : Cursor)
    (s : Progress) : Prop where
  current : c.current ≤ ts.findIdx Token.isEof
  rest : s.rest = (Parser.ofTokens ts).rest.drop c.current
  nesting : c.nesting = k
  peak : c.peak ≤ top
  reports : c.reports = before ++ s.reports.map (·.toError (Parser.ofTokens ts).stop)

/-- The cursor, one token further. -/
def step (c : Cursor) : Cursor := { c with current := c.current + 1 }

section
variable {ts : List Token} {before : Array GrammarError} {top k : Nat} {c : Cursor} {s : Progress}
  {t : Token} {us : List Token} {kind : Kind} {kinds : List Kind}

namespace Agrees

theorem length_rest (h : Agrees ts before top k c s) :
    c.current + s.rest.length = ts.findIdx Token.isEof := by
  rw [h.rest, List.length_drop, Parser.length_rest]
  have := h.current
  omega

theorem head (h : Agrees ts before top k c s) :
    s.rest.head? = (Parser.ofTokens ts).rest[c.current]? := by
  rw [h.rest, List.head?_drop]

theorem getElem? (h : Agrees ts before top k c s) (hs : s.rest = t :: us) :
    ts[c.current]? = some t := by
  have hlen := h.length_rest
  rw [hs, List.length_cons] at hlen
  rw [← Parser.getElem?_rest (by omega), ← h.head, hs]
  rfl

theorem isEof (h : Agrees ts before top k c s) (hs : s.rest = t :: us) : t.isEof = false :=
  (Parser.ofTokens ts).isEof_rest t (List.mem_of_mem_drop (h.rest ▸ hs ▸ List.mem_cons_self ..))

theorem step (h : Agrees ts before top k c s) (hs : s.rest = t :: us) :
    Agrees ts before top k (step c) ⟨us, s.reports⟩ where
  current := by
    have hlen := h.length_rest
    rw [hs, List.length_cons] at hlen
    exact hlen ▸ by simp only [Walk.step]; omega
  rest := by
    have htail := congrArg List.tail h.rest
    rwa [hs, List.tail_drop] at htail
  nesting := h.nesting
  peak := h.peak
  reports := h.reports

end Agrees

/-! ### Looking at tokens -/

theorem peek_eq (h : Agrees ts before top k c s) :
    peek ts c = .ok (s.rest.head?.getD (Parser.ofTokens ts).stop) c := by
  rw [peek]
  cases hs : s.rest with
  | cons t us => rw [h.getElem? hs]; rfl
  | nil =>
    have hlen := h.length_rest
    rw [hs, List.length_nil, Nat.add_zero] at hlen
    rw [hlen, ← Parser.ofTokens_stop]
    rfl

theorem isAtEnd_eq (h : Agrees ts before top k c s) : isAtEnd ts c = .ok s.rest.isEmpty c := by
  rw [isAtEnd, bind_of_ok (peek_eq h)]
  cases hs : s.rest with
  | cons t us => simp [h.isEof hs, pure, EStateM.pure]
  | nil => simp [Parser.isEof_stop, pure, EStateM.pure]

theorem check_eq (h : Agrees ts before top k c s) :
    check ts kind c = .ok (s.rest.head?.any (·.kind == kind)) c := by
  rw [check, bind_of_ok (isAtEnd_eq h)]
  cases hs : s.rest with
  | cons t us =>
    simp only [List.isEmpty_cons, Bool.false_eq_true, if_false]
    rw [bind_of_ok (peek_eq h), hs]
    rfl
  | nil => rfl

theorem previous_step (h : Agrees ts before top k c s) (hs : s.rest = t :: us) :
    previous ts (step c) = .ok t (step c) := by
  simp [previous, step, h.getElem? hs]

theorem advance_eq (h : Agrees ts before top k c s) (hs : s.rest = t :: us) :
    advance ts c = .ok t (step c) := by
  rw [advance, bind_of_ok (isAtEnd_eq h), hs]
  exact previous_step h hs

theorem matchOne_cons (h : Agrees ts before top k c s) (hs : s.rest = t :: us)
    (hk : t.kind = kind) : matchOne ts kind c = .ok true (step c) := by
  rw [matchOne, bind_of_ok (check_eq h), hs, List.head?_cons, Option.any_some, beq_iff_eq.mpr hk,
    if_pos rfl, bind_of_ok (advance_eq h hs)]
  rfl

theorem check_stops (h : Agrees ts before top k c s) (hstops : Stops (· == kind) s.rest) :
    check ts kind c = .ok false c := by
  rw [check_eq h]
  cases hs : s.rest with
  | cons t us =>
    have hk : (t.kind == kind) = false := hstops t (by simp [hs])
    rw [List.head?_cons, Option.any_some, hk]
  | nil => rfl

theorem matchOne_stops (h : Agrees ts before top k c s) (hstops : Stops (· == kind) s.rest) :
    matchOne ts kind c = .ok false c := by
  rw [matchOne, bind_of_ok (check_stops h hstops)]
  rfl

theorem matchEither_cons (h : Agrees ts before top k c s) (hs : s.rest = t :: us)
    (hk : t.kind ∈ kinds) : matchEither ts kinds c = .ok true (step c) := by
  induction kinds with
  | nil => cases hk
  | cons kind kinds ih =>
    rw [matchEither]
    by_cases heq : t.kind = kind
    · rw [bind_of_ok (matchOne_cons h hs heq)]
      rfl
    · have hstops : Stops (· == kind) s.rest := by
        rw [hs]
        exact .cons (p := (· == kind)) (beq_eq_false_iff_ne.mpr heq) us
      rw [bind_of_ok (matchOne_stops h hstops)]
      exact ih ((List.mem_cons.mp hk).resolve_left heq)

theorem matchEither_stops (h : Agrees ts before top k c s)
    (hstops : Stops (kinds.contains ·) s.rest) : matchEither ts kinds c = .ok false c := by
  induction kinds with
  | nil => rfl
  | cons kind kinds ih =>
    have hone : Stops (· == kind) s.rest := hstops.mono fun _ hk => by simp [beq_iff_eq.mp hk]
    have hothers : Stops (kinds.contains ·) s.rest := hstops.mono fun _ hk => by simp_all
    rw [matchEither, bind_of_ok (matchOne_stops h hone)]
    exact ih hothers

/-- Where no token is left, none is taken. -/
theorem matchOne_none (h : Agrees ts before top k c s) (hs : s.rest = []) :
    matchOne ts kind c = .ok false c :=
  matchOne_stops h (hs ▸ Stops.nil _)

theorem matchEither_none (h : Agrees ts before top k c s) (hs : s.rest = []) :
    matchEither ts kinds c = .ok false c :=
  matchEither_stops h (hs ▸ Stops.nil _)

section
variable {β : Type}

/-- What comes behind a test for the next token goes on with the token taken, or not. -/
theorem matchOne_bind (h : Agrees ts before top k c s) (hs : s.rest = t :: us)
    (f : Bool → Walk β) : (matchOne ts kind >>= f) c =
      if t.kind = kind then f true (step c) else f false c := by
  split
  · next hk => exact bind_of_ok (matchOne_cons h hs hk) f
  · next hk =>
    have hstops : Stops (· == kind) s.rest := by
      rw [hs]
      exact .cons (p := (· == kind)) (beq_eq_false_iff_ne.mpr hk) us
    exact bind_of_ok (matchOne_stops h hstops) f

theorem matchEither_bind (h : Agrees ts before top k c s) (hs : s.rest = t :: us)
    (f : Bool → Walk β) : (matchEither ts kinds >>= f) c =
      if t.kind ∈ kinds then f true (step c) else f false c := by
  split
  · next hk => exact bind_of_ok (matchEither_cons h hs hk) f
  · next hk =>
    have hstops : Stops (kinds.contains ·) s.rest := by
      rw [hs]
      exact .cons (p := (kinds.contains ·)) (by simpa using hk) us
    exact bind_of_ok (matchEither_stops h hstops) f

variable {q : Kind → Bool}

theorem matchOne_bind_stops (h : Agrees ts before top k c s) (hstops : Stops q s.rest)
    (f : Bool → Walk β) (hq : q kind = true) : (matchOne ts kind >>= f) c = f false c :=
  bind_of_ok (matchOne_stops h (hstops.mono fun _ hk => by rwa [beq_iff_eq.mp hk])) f

theorem matchEither_bind_stops (h : Agrees ts before top k c s) (hstops : Stops q s.rest)
    (f : Bool → Walk β) (hq : ∀ kind ∈ kinds, q kind = true) :
    (matchEither ts kinds >>= f) c = f false c :=
  bind_of_ok (matchEither_stops h (hstops.mono fun kind hk => hq kind (by simpa using hk))) f

end

end

/-! ### Walks that do what a parser does -/

section
variable (ts : List Token) (before : Array GrammarError) (top : Nat) {α β : Type}

/-- A walk and a parser come to the same end, with `k` levels open and the cursor at `stopped` or
behind it; if they succeed it is at `done` or behind it. -/
inductive Ends (k stopped done : Nat) : EStateM.Result Cursor.Halt Cursor α →
    EStateM.Result Problem Progress α → Prop where
  | ok {x c s} : Agrees ts before top k c s → done ≤ c.current →
      Ends k stopped done (.ok x c) (.ok x s)
  | error {e c s} : Agrees ts before top k c s → stopped ≤ c.current →
      Ends k stopped done (.error (.error (e.toError (Parser.ofTokens ts).stop)) c) (.error e s)

/-- While `k` levels are open and at most `size` tokens are left, a walk does what a parser does. If
it succeeds it takes `took` tokens or more. -/
def Keeps (size k took : Nat) (w : Walk α) (p : Parse α) : Prop :=
  ∀ c s, Agrees ts before top k c s → s.rest.length ≤ size →
    Ends ts before top k c.current (c.current + took) (w c) (p s)

end

section
variable {ts : List Token} {before : Array GrammarError} {top : Nat} {α β : Type}
  {size k took took' : Nat} {w : Walk α} {p : Parse α}

theorem Ends.mono {stopped done stopped' done' : Nat} {x : EStateM.Result Cursor.Halt Cursor α}
    {y : EStateM.Result Problem Progress α} (h : Ends ts before top k stopped done x y)
    (hstopped : stopped' ≤ stopped) (hdone : done' ≤ done) :
    Ends ts before top k stopped' done' x y := by
  cases h with
  | ok h hle => exact .ok h (Nat.le_trans hdone hle)
  | error h hle => exact .error h (Nat.le_trans hstopped hle)

namespace Keeps

theorem mono (h : Keeps ts before top size k took w p) {size' : Nat} (hsize : size' ≤ size)
    (htook : took' ≤ took) : Keeps ts before top size' k took' w p := by
  intro c s hA hlen
  exact (h c s hA (Nat.le_trans hlen hsize)).mono (Nat.le_refl _) (by omega)

/-! ### Steps -/

theorem pure (x : α) : Keeps ts before top size k 0 (Pure.pure x) (Pure.pure x) :=
  fun _ _ hA _ => .ok hA (Nat.le_refl _)

theorem weaken (h : Keeps ts before top size k took w p) : Keeps ts before top size k 0 w p :=
  h.mono (Nat.le_refl _) (Nat.zero_le _)

/-- After a step that takes some tokens, fewer are left. -/
theorem bind_after {f : α → Walk β} {g : α → Parse β} (h : Keeps ts before top size k took w p)
    (hf : ∀ x, took ≤ size → Keeps ts before top (size - took) k took' (f x) (g x)) :
    Keeps ts before top size k (took + took') (w >>= f) (p >>= g) := by
  intro c s hA hlen
  have hends := h c s hA hlen
  generalize hw : w c = x at hends
  generalize hp : p s = y at hends
  cases hends with
  | ok hA' hle =>
    rw [bind_of_ok hw, bind_of_ok hp]
    have hrest := hA.length_rest
    have hrest' := hA'.length_rest
    exact (hf _ (by omega) _ _ hA' (by omega)).mono (by omega) (by omega)
  | error hA' hle =>
    rw [bind_of_error hw, bind_of_error hp]
    exact .error hA' hle

theorem bind {f : α → Walk β} {g : α → Parse β} (h : Keeps ts before top size k took w p)
    (hf : ∀ x, Keeps ts before top size k took' (f x) (g x)) :
    Keeps ts before top size k (took + took') (w >>= f) (p >>= g) :=
  h.bind_after fun x _ => (hf x).mono (Nat.sub_le ..) (Nat.le_refl _)

theorem fail (flaw : Flaw) :
    Keeps ts before top size k took (fail ts flaw : Walk α) (Parse.fail flaw) := by
  intro c s hA _
  rw [Walk.fail, bind_of_ok (peek_eq hA)]
  exact .error (e := ⟨flaw, s.rest.head?⟩) hA (Nat.le_refl _)

theorem reportAt (flaw : Flaw) (t : Token) :
    Keeps ts before top size k 0 (report ⟨flaw, t⟩) (Parse.reportAt flaw (some t)) := by
  intro c s hA _
  refine .ok ⟨hA.current, hA.rest, hA.nesting, hA.peak, ?_⟩ (Nat.le_refl _)
  simp [hA.reports, Problem.toError]

theorem report (flaw : Flaw) : Keeps ts before top size k 0
    (do report ⟨flaw, ← peek ts⟩) (Parse.report flaw) := by
  intro c s hA _
  rw [bind_of_ok (peek_eq hA)]
  refine .ok ⟨hA.current, hA.rest, hA.nesting, hA.peak, ?_⟩ (Nat.le_refl _)
  simp [hA.reports, Problem.toError]

/-- Whether the next token is of a kind decides how it goes on. -/
theorem check_bind {kind : Kind} {f : Bool → Walk β} {g : Bool → Parse β}
    (hf : ∀ b, Keeps ts before top size k took (f b) (g b)) :
    Keeps ts before top size k took (check ts kind >>= f) (nextIs kind >>= g) := by
  intro c s hA hlen
  have hnext : nextIs kind s = .ok (s.rest.head?.any (·.kind == kind)) s := by
    rw [nextIs]
    cases s.rest <;> rfl
  rw [bind_of_ok (check_eq hA), bind_of_ok hnext]
  exact hf _ c s hA hlen

theorem isAtEnd_bind {f : Bool → Walk β} {g : Bool → Parse β}
    (hf : ∀ b, Keeps ts before top size k took (f b) (g b)) :
    Keeps ts before top size k took (isAtEnd ts >>= f) (Parse.atEnd >>= g) := by
  intro c s hA hlen
  have hnext : Parse.atEnd s = .ok s.rest.isEmpty s := rfl
  rw [bind_of_ok (isAtEnd_eq hA), bind_of_ok hnext]
  exact hf _ c s hA hlen

theorem consume (slot : Slot) :
    Keeps ts before top size k 1 (consume ts slot) (Parse.expect slot) := by
  intro c s hA hlen
  rw [Walk.consume, Parse.expect]
  rcases takeIf_bind_eq (· == slot.kind) _ s with ⟨t, us, hs, hk, heq⟩ | ⟨hstops, heq⟩
  · rw [heq, bind_of_ok (check_eq hA), hs, List.head?_cons, Option.any_some, hk, if_pos rfl,
      advance_eq hA hs]
    exact .ok (hA.step hs) (Nat.le_refl _)
  · rw [heq, bind_of_ok (check_stops hA hstops)]
    exact fail _ c s hA hlen

/-- The token that ends a part. -/
theorem consume_pure (slot : Slot) (x : α) : Keeps ts before top size k 1
    (do let _ ← Walk.consume ts slot; return x) (do let _ ← Parse.expect slot; return x) :=
  (consume slot).bind fun _ => pure x

/-- A part that is there unless a token of some kind comes next. -/
theorem optionalUntil_bind {stop : Kind} {w w' : Walk β} {part : Parse α} {g : Option α → Parse β}
    (hthere : Keeps ts before top size k took w (part >>= fun x => g (some x)))
    (hnone : Keeps ts before top size k took w' (g none)) :
    Keeps ts before top size k took (do if !(← check ts stop) then w else w')
      (optionalUntil stop part >>= g) := by
  rw [optionalUntil, bind_assoc]
  refine check_bind fun b => ?_
  cases b with
  | true => simpa using hnone
  | false => simpa using hthere

/-- A walk that looks at the next token several times where the parser looks once. -/
theorem takeIf_bind {q : Kind → Bool} {w : Walk β} {g : Option Token → Parse β}
    (hsome : ∀ c s t us, Agrees ts before top k c s → s.rest = t :: us → q t.kind = true →
      1 ≤ size → ∃ w', w c = w' (step c) ∧
        Keeps ts before top (size - 1) k (took - 1) w' (g (some t)))
    (hnone : ∀ c s, Agrees ts before top k c s → Stops q s.rest →
      ∃ w', w c = w' c ∧ Keeps ts before top size k took w' (g none)) :
    Keeps ts before top size k took w (takeIf q >>= g) := by
  intro c s hA hlen
  rcases takeIf_bind_eq q g s with ⟨t, us, hs, hk, heq⟩ | ⟨hstops, heq⟩
  · rw [hs, List.length_cons] at hlen
    obtain ⟨w', hw, hw'⟩ := hsome c s t us hA hs hk (by omega)
    rw [heq, hw]
    exact (hw' _ _ (hA.step hs) (by simp only; omega)).mono (Nat.le_succ _)
      (by simp only [Walk.step]; omega)
  · obtain ⟨w', hw, hw'⟩ := hnone c s hA hstops
    rw [heq, hw]
    exact hw' c s hA hlen

/-- A walk that goes on with the token that it took, or without one. -/
theorem matchEither_previous {kinds : List Kind} {q : Kind → Bool}
    (hq : ∀ kind, q kind = kinds.contains kind) {f : Token → Walk β} {w : Walk β}
    {g : Option Token → Parse β}
    (hsome : ∀ t, 1 ≤ size → Keeps ts before top (size - 1) k (took - 1) (f t) (g (some t)))
    (hnone : Keeps ts before top size k took w (g none)) :
    Keeps ts before top size k took
      (do if ← matchEither ts kinds then f (← previous ts) else w) (takeIf q >>= g) := by
  refine takeIf_bind (fun c s t us hA hs hk hsize => ⟨f t, ?_, hsome t hsize⟩)
    fun c s hA hstops => ⟨w, ?_, hnone⟩
  · have hmem : t.kind ∈ kinds := by simpa [hq] using hk
    rw [bind_of_ok (matchEither_cons hA hs hmem), if_pos rfl, bind_of_ok (previous_step hA hs)]
  · have hstops : Stops (kinds.contains ·) s.rest := hstops.mono fun kind hk => (hq kind).trans hk
    rw [bind_of_ok (matchEither_stops hA hstops)]
    rfl

theorem matchOne_previous {kind : Kind} {f : Token → Walk β} {w : Walk β}
    {g : Option Token → Parse β}
    (hsome : ∀ t, 1 ≤ size → Keeps ts before top (size - 1) k (took - 1) (f t) (g (some t)))
    (hnone : Keeps ts before top size k took w (g none)) :
    Keeps ts before top size k took
      (do if ← matchOne ts kind then f (← previous ts) else w) (takeIf (· == kind) >>= g) := by
  refine takeIf_bind (fun c s t us hA hs hk hsize => ⟨f t, ?_, hsome t hsize⟩)
    fun c s hA hstops => ⟨w, ?_, hnone⟩
  · rw [bind_of_ok (matchOne_cons hA hs (beq_iff_eq.mp hk)), if_pos rfl,
      bind_of_ok (previous_step hA hs)]
  · rw [bind_of_ok (matchOne_stops hA hstops)]
    rfl

theorem skipIf_bind {kind : Kind} {f : Bool → Walk β} {g : Bool → Parse β}
    (htrue : 1 ≤ size → Keeps ts before top (size - 1) k (took - 1) (f true) (g true))
    (hfalse : Keeps ts before top size k took (f false) (g false)) :
    Keeps ts before top size k took (matchOne ts kind >>= f) (skipIf kind >>= g) := by
  intro c s hA hlen
  rw [skipIf, bind_assoc]
  rcases takeIf_bind_eq (· == kind) (fun o => Pure.pure o.isSome >>= g) s with
    ⟨t, us, hs, hk, heq⟩ | ⟨hstops, heq⟩
  · rw [heq, bind_of_ok (matchOne_cons hA hs (beq_iff_eq.mp hk))]
    rw [hs, List.length_cons] at hlen
    exact (htrue (by omega) _ _ (hA.step hs) (by simp only; omega)).mono
      (Nat.le_succ _) (by simp only [Walk.step]; omega)
  · rw [heq, bind_of_ok (matchOne_stops hA hstops)]
    exact hfalse c s hA hlen

/-- Where no token is left, it is known what a step finds. -/
theorem bind_at_end {act : Walk α} {x : α} {f : α → Walk β} {p : Parse β}
    (hact : ∀ c s, Agrees ts before top k c s → s.rest = [] → act c = .ok x c)
    (h : Keeps ts before top 0 k took (f x) p) : Keeps ts before top 0 k took (act >>= f) p := by
  intro c s hA hlen
  have hs : s.rest = [] := List.eq_nil_of_length_eq_zero (Nat.le_zero.mp hlen)
  rw [bind_of_ok (hact c s hA hs)]
  exact h c s hA hlen

/-! ### Nesting -/

/-- A level that may be opened is closed again. -/
theorem nested (hk : k < maxNesting) (htop : maxNesting ≤ top)
    (h : Keeps ts before top size (k + 1) took w p) :
    Keeps ts before top size k took (nested ts w) p := by
  intro c s hA hlen
  have hopen : ¬maxNesting ≤ c.nesting := hA.nesting ▸ Nat.not_le.mpr hk
  have hpeak : max c.peak (c.nesting + 1) ≤ top :=
    Nat.max_le.mpr ⟨hA.peak, Nat.le_trans (hA.nesting ▸ hk) htop⟩
  have hends := h { c with nesting := c.nesting + 1, peak := max c.peak (c.nesting + 1) } s
    ⟨hA.current, hA.rest, congrArg (· + 1) hA.nesting, hpeak, hA.reports⟩ hlen
  rw [Walk.nested, if_neg hopen]
  simp only
  generalize w _ = x at hends ⊢
  generalize p s = y at hends ⊢
  cases hends with
  | ok hA' hle =>
    refine .ok ⟨hA'.current, hA'.rest, ?_, hA'.peak, hA'.reports⟩ hle
    simp [hA'.nesting]
  | error hA' hle =>
    refine .error ⟨hA'.current, hA'.rest, ?_, hA'.peak, hA'.reports⟩ hle
    simp [hA'.nesting]

theorem nested_full (hk : maxNesting ≤ k) :
    Keeps ts before top size k took (Walk.nested ts w) (Parse.fail .tooMuchNesting) := by
  intro c s hA hlen
  rw [Walk.nested, if_pos (hA.nesting ▸ hk)]
  exact fail _ c s hA hlen

/-- A part that is parsed in as many levels as may still be opened. -/
theorem nested_room {p q : Nat → Parse α} (hfull : p 0 = Parse.fail .tooMuchNesting)
    (hroom : ∀ room, p (room + 1) = q room) (htop : maxNesting ≤ top)
    (h : k < maxNesting → Keeps ts before top size (k + 1) took w (q (maxNesting - (k + 1)))) :
    Keeps ts before top size k took (Walk.nested ts w) (p (maxNesting - k)) := by
  rcases Nat.lt_or_ge k maxNesting with hk | hk
  · have hlevels : maxNesting - k = maxNesting - (k + 1) + 1 := by omega
    rw [hlevels, hroom]
    exact nested hk htop (h hk)
  · rw [Nat.sub_eq_zero_of_le hk, hfull]
    exact nested_full hk

/-! ### Items -/

section
variable {n m limit : Nat} {flaw : Flaw} {item : Walk α} {item' : Parse α}

/-- Behind the first item there are as many rounds as tokens that are left. -/
theorem itemsFrom (h : Keeps ts before top size k took item item') (acc : Array α) (hn : size < n)
    (hm : size ≤ m) : Keeps ts before top size k took (itemsFrom ts limit flaw item n acc) (do
      (if limit ≤ acc.size then Parse.report flaw else Pure.pure ())
      let x ← item'
      moreItems limit flaw item' m (acc.push x)) := by
  induction n generalizing size m acc with
  | zero => exact absurd hn (Nat.not_lt_zero _)
  | succ n ih =>
    have hafter : ∀ x, Keeps ts before top size k 0 (do
        if ← matchOne ts .comma then Walk.itemsFrom ts limit flaw item n (acc.push x)
        else return acc.push x) (moreItems limit flaw item' m (acc.push x)) := by
      intro x
      cases m with
      | zero =>
        obtain rfl := Nat.le_zero.mp hm
        exact bind_at_end (fun _ _ => matchOne_none) (pure _)
      | succ m =>
        rw [moreItems_succ]
        refine skipIf_bind (fun hsize => ?_) (pure _)
        exact (ih (h.mono (Nat.sub_le ..) (Nat.le_refl _)) _ (by omega) (by omega)).weaken
    have hitem : Keeps ts before top size k took _ _ := h.bind hafter
    rw [Walk.itemsFrom]
    by_cases hlimit : limit ≤ acc.size
    · have hreport := (report flaw).bind fun _ => hitem
      simpa only [if_pos hlimit, bind_assoc, Nat.zero_add] using hreport
    · simpa only [if_neg hlimit, pure_bind] using hitem

theorem items (h : Keeps ts before top size k took item item') (hn : size < n) (hm : size ≤ m)
    (hlimit : 0 < limit) :
    Keeps ts before top size k 0 (items ts n limit flaw item) (Parse.items m limit flaw item') := by
  refine check_bind fun b => ?_
  cases b with
  | true => exact pure _
  | false =>
    have hitems : Keeps ts before top size k took (Walk.itemsFrom ts limit flaw item n #[]) _ :=
      h.itemsFrom #[] hn hm
    simp only [Array.size_empty, if_neg (Nat.not_le.mpr hlimit), pure_bind] at hitems
    have hlist := (hitems.bind fun xs => pure xs.toList).weaken
    simpa [bind_assoc] using hlist

end

end Keeps

end

end Walk
end Lox
