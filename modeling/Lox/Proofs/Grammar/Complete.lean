import Lox.Proofs.Grammar.Sound

/-!
Parsing takes every phrase whole, unless the next token goes on with it. One lemma for each parser,
under the assumption that the parsers of its parts are complete. A loop is entered with a round for
each token that is left, so it never runs out of rounds.
-/

namespace Lox

/-- With enough rounds, and when no token that satisfies `more` comes next, `p` takes every phrase
of `P` and nothing else. -/
def Complete {α : Type} (size : Nat) (more : Kind → Bool) (p : Parse α) (P : Reading α) : Prop :=
  ∀ ts x fl, P ts x fl → ∀ rest r, (ts ++ rest).length ≤ size → Stops more rest →
    p ⟨ts ++ rest, r⟩ = .ok x ⟨rest, r ++ fl⟩

theorem Stops.mono {p q : Kind → Bool} {ts : List Token} (h : Stops q ts)
    (hpq : ∀ k, p k = true → q k = true) : Stops p ts := by
  intro t ht
  cases hp : p t.kind with
  | false => rfl
  | true => exact absurd (hpq _ hp) (by simp [h t ht])

theorem Stops.nil (p : Kind → Bool) : Stops p [] := by simp [Stops]

theorem Stops.cons {p : Kind → Bool} {t : Token} (h : p t.kind = false) (ts : List Token) :
    Stops p (t :: ts) := by
  rintro u ⟨⟩
  exact h

namespace Parse
open Reading Step

variable {α : Type} {size : Nat} {t : Token} {ts : List Token} {r : Array Problem}

/-! ### Single steps -/

theorem takeIf_cons {p : Kind → Bool} (h : p t.kind = true) :
    takeIf p ⟨t :: ts, r⟩ = .ok (some t) ⟨ts, r⟩ := by simp [takeIf, h]

theorem takeIf_stops {p : Kind → Bool} (h : Stops p ts) :
    takeIf p ⟨ts, r⟩ = .ok none ⟨ts, r⟩ := by
  cases ts with
  | nil => rfl
  | cons t ts => simp [takeIf, h t rfl]

/-- What comes behind a token that may be taken goes on with it or without it. -/
theorem takeIf_bind_eq {β : Type} (p : Kind → Bool) (f : Option Token → Parse β) (s : Progress) :
    (∃ t ts, s.rest = t :: ts ∧ p t.kind = true ∧
      (takeIf p >>= f) s = f (some t) ⟨ts, s.reports⟩) ∨
    (Stops p s.rest ∧ (takeIf p >>= f) s = f none s) := by
  obtain ⟨ts, r⟩ := s
  by_cases hstops : Stops p ts
  · exact .inr ⟨hstops, bind_of_ok (takeIf_stops hstops) f⟩
  · obtain ⟨t, ht, hp⟩ : ∃ t ∈ ts.head?, p t.kind = true := by simpa [Stops] using hstops
    obtain ⟨ts, rfl⟩ := List.head?_eq_some_iff.mp ht
    exact .inl ⟨t, ts, rfl, hp, bind_of_ok (takeIf_cons hp) f⟩

theorem expect_cons {slot : Slot} (h : t.kind = slot.kind) :
    expect slot ⟨t :: ts, r⟩ = .ok t ⟨ts, r⟩ := by
  rw [expect, bind_of_ok (takeIf_cons (by simp [h]))]
  rfl

theorem skipIf_cons {k : Kind} (h : t.kind = k) :
    skipIf k ⟨t :: ts, r⟩ = .ok true ⟨ts, r⟩ := by
  rw [skipIf, bind_of_ok (takeIf_cons (by simp [h]))]
  rfl

theorem skipIf_stops {k : Kind} (h : Stops (· == k) ts) :
    skipIf k ⟨ts, r⟩ = .ok false ⟨ts, r⟩ := by
  rw [skipIf, bind_of_ok (takeIf_stops h)]
  rfl

theorem nextIs_cons (k : Kind) : nextIs k ⟨t :: ts, r⟩ = .ok (t.kind == k) ⟨t :: ts, r⟩ := rfl

/-- A kind at which `q` holds is none at which it does not. -/
theorem beq_false_of_starts {q : Kind → Bool} {k k' : Kind} (h : q k = true) (h' : q k' = false) :
    (k == k') = false := by
  cases hk : k == k' with
  | false => rfl
  | true => rw [beq_iff_eq.mp hk, h'] at h; exact absurd h (by simp)

/-! ### Items -/

theorem overflow_cons (limit n : Nat) (flaw : Flaw) :
    (if limit ≤ n then report flaw else pure ()) ⟨t :: ts, r⟩ =
      .ok () ⟨t :: ts, r ++ overflow limit flaw n t⟩ := by
  by_cases hn : limit ≤ n
  · simp [if_pos hn, overflow, report, reportAt]
  · simp [if_neg hn, overflow, pure, EStateM.pure]

section
variable {more q : Kind → Bool} {item : Parse α} {P : Reading α} {limit : Nat} {flaw : Flaw}

/-- Once the items of a list have been read, the loop is where they end. -/
theorem listed_complete (hp : Complete size more item P) (hcomma : more .comma = false) {us xs fl}
    (h : Listed limit flaw P us xs fl) : ∀ rest r, (us ++ rest).length ≤ size → Stops more rest →
      ∃ m acc, rest.length ≤ m ∧ acc.toList = xs ∧
        (item >>= fun x => moreItems limit flaw item size #[x]) ⟨us ++ rest, r⟩ =
          moreItems limit flaw item m acc ⟨rest, r ++ fl⟩ := by
  induction h with
  | @one us x fl hx =>
    intro rest r hlen hstop
    refine ⟨size, #[x], ?_, rfl, bind_of_ok (hp us x fl hx rest r hlen hstop) _⟩
    simp only [List.length_append] at hlen
    omega
  | @more us xs fl vs x fl' comma t _ hk hx ih =>
    intro rest r hlen hstop
    have hsplit : us ++ comma :: t :: vs ++ rest = us ++ comma :: (t :: vs ++ rest) := by simp
    rw [hsplit] at hlen ⊢
    obtain ⟨m, acc, hm, rfl, heq⟩ := ih _ r hlen (.cons (by rw [hk]; exact hcomma) _)
    obtain ⟨m, rfl⟩ : ∃ m', m = m' + 1 := Nat.exists_eq_add_one.mpr (by simp at hm; omega)
    simp only [List.length_append, List.length_cons] at hlen hm
    have hitem := hp _ x fl' hx rest (r ++ fl ++ overflow limit flaw acc.size t)
      (by simp only [List.length_append, List.length_cons]; omega) hstop
    refine ⟨m, acc.push x, by omega, by simp, ?_⟩
    rw [heq, moreItems_succ, bind_of_ok (skipIf_cons hk), if_pos rfl, List.cons_append,
      bind_of_ok (overflow_cons limit acc.size flaw), ← List.cons_append, bind_of_ok hitem]
    simp [Array.append_assoc]

/-- Items up to the parenthesis that closes them. -/
theorem items_complete (hp : Complete size more item P) (hcomma : more .comma = false)
    (hparen : more .rightParen = false) (hP : Starts q P) (hq : q .rightParen = false) {us xs fl}
    (h : Items limit flaw P us xs fl) {t : Token} (ht : t.kind = .rightParen) (rest r)
    (hlen : (us ++ t :: rest).length ≤ size) :
    items size limit flaw item ⟨us ++ t :: rest, r⟩ = .ok xs ⟨t :: rest, r ++ fl⟩ := by
  cases h with
  | none =>
    rw [items, List.nil_append, bind_of_ok (nextIs_cons _)]
    simp [ht, pure, EStateM.pure]
  | some h =>
    obtain ⟨m, acc, hm, rfl, heq⟩ :=
      listed_complete hp hcomma h (t :: rest) r hlen (.cons (by rw [ht]; exact hparen) _)
    obtain ⟨m, rfl⟩ : ∃ m', m = m' + 1 := Nat.exists_eq_add_one.mpr (by simp at hm; omega)
    have hend : moreItems limit flaw item (m + 1) acc ⟨t :: rest, r ++ fl⟩ =
        .ok acc ⟨t :: rest, r ++ fl⟩ := by
      rw [moreItems_succ, bind_of_ok (skipIf_stops (.cons (by simp [ht]) _))]
      rfl
    obtain ⟨u, us, rfl, hu⟩ := hP.listed _ _ _ h
    have hu : (u.kind == .rightParen) = false := beq_false_of_starts hu hq
    rw [items, List.cons_append, bind_of_ok (nextIs_cons _), hu, if_neg (by simp), ← bind_assoc,
      ← List.cons_append, bind_of_ok (heq.trans hend)]
    rfl

/-- A part up to the token of kind `stop` that comes behind it. -/
theorem optionalUntil_complete {stop : Kind} (hp : Complete size more item P)
    (hstop : more stop = false) (hP : Starts q P) (hq : q stop = false) {us x fl}
    (h : Optional P us x fl) {t : Token} (ht : t.kind = stop) (rest r)
    (hlen : (us ++ t :: rest).length ≤ size) :
    optionalUntil stop item ⟨us ++ t :: rest, r⟩ = .ok x ⟨t :: rest, r ++ fl⟩ := by
  cases h with
  | none =>
    rw [optionalUntil, List.nil_append, bind_of_ok (nextIs_cons _)]
    simp [ht, pure, EStateM.pure]
  | @some _ x _ h =>
    have hitem := hp _ _ _ h (t :: rest) r hlen (.cons (by rw [ht]; exact hstop) _)
    obtain ⟨u, us, rfl, hu⟩ := hP _ _ _ h
    have hu : (u.kind == stop) = false := beq_false_of_starts hu hq
    rw [optionalUntil, List.cons_append, bind_of_ok (nextIs_cons _), hu, if_neg (by simp),
      ← List.cons_append, bind_of_ok hitem]
    rfl

end

/-! ### Expressions -/

section
variable {e o : Parse Expr} {E O : Reading Expr}

/-- What goes on with an expression: arguments, an operator, or an equals sign. -/
def continues : Kind → Bool
  | .leftParen | .equal => true
  | .slash | .star | .plus | .minus => true
  | .greater | .greaterEqual | .less | .lessEqual | .bangEqual | .equalEqual => true
  | .kwAnd | .kwOr => true
  | _ => false

theorem primary_complete (he : Complete size continues e E) :
    Complete size (fun _ => false) (primary e) (Primary E) := by
  intro ts x fl h rest r hlen _
  cases h with
  | @literal v t hv =>
    have hkind : startsPrimary t.kind = true := by
      revert hv
      cases hk : t.kind <;> simp [Token.literal?, hk, startsPrimary]
    rw [primary, List.cons_append, bind_of_ok (takeIf_cons hkind)]
    revert hv
    cases hk : t.kind <;> simp [Token.literal?, hk, pure, EStateM.pure]
  | name t ht =>
    rw [primary, List.cons_append, bind_of_ok (takeIf_cons (by rw [ht]; rfl))]
    simp [ht, pure, EStateM.pure]
  | @group ts e fl l u hl h hu =>
    have hsplit : l :: (ts ++ [u]) ++ rest = l :: (ts ++ u :: rest) := by simp
    rw [hsplit] at hlen ⊢
    have hinner := he _ _ _ h (u :: rest) r (by simp at hlen ⊢; omega) (.cons (by rw [hu]; rfl) _)
    rw [primary, bind_of_ok (takeIf_cons (by rw [hl]; rfl))]
    simp only [hl]
    rw [bind_of_ok hinner, bind_of_ok (expect_cons hu)]
    rfl

/-- Once some calls have been read, the loop is where they end. -/
theorem called_complete (he : Complete size continues e E) (hE : Starts startsExpression E)
    {us f fl} (h : Called E us f fl) : ∀ rest r, (us ++ rest).length ≤ size →
      ∃ m, rest.length ≤ m ∧ callLevel size e ⟨us ++ rest, r⟩ =
        callsFrom size e m f ⟨rest, r ++ fl⟩ := by
  induction h with
  | @primary us f fl hf =>
    intro rest r hlen
    refine ⟨size, by simp at hlen; omega, ?_⟩
    rw [callLevel, bind_of_ok (primary_complete he _ _ _ hf rest r hlen (fun _ _ => rfl))]
  | @call us f fl vs args fl' l u _ hl ha hu ih =>
    intro rest r hlen
    have hsplit : us ++ l :: (vs ++ [u]) ++ rest = us ++ l :: (vs ++ u :: rest) := by simp
    rw [hsplit] at hlen ⊢
    obtain ⟨m, hm, heq⟩ := ih _ r hlen
    obtain ⟨m, rfl⟩ : ∃ m', m = m' + 1 := Nat.exists_eq_add_one.mpr (by simp at hm; omega)
    simp only [List.length_append, List.length_cons] at hlen hm
    have hargs := items_complete he rfl rfl hE rfl ha hu rest (r ++ fl)
      (by simp only [List.length_append, List.length_cons]; omega)
    refine ⟨m, by omega, ?_⟩
    rw [heq, callsFrom, bind_of_ok (skipIf_cons hl), if_pos rfl, bind_of_ok hargs,
      bind_of_ok (expect_cons hu), Array.append_assoc]

theorem callLevel_complete (he : Complete size continues e E) (hE : Starts startsExpression E) :
    Complete size (· == .leftParen) (callLevel size e) (Called E) := by
  intro ts x fl h rest r hlen hstop
  obtain ⟨m, -, heq⟩ := called_complete he hE h rest r hlen
  rw [heq]
  cases m with
  | zero => rfl
  | succ m =>
    rw [callsFrom, bind_of_ok (skipIf_stops hstop)]
    rfl

theorem unaryLevel_complete (he : Complete size continues e E)
    (ho : Complete size (· == .leftParen) o O) (hE : Starts startsExpression E) :
    Complete size (· == .leftParen) (unaryLevel size e o) (Unary E O) := by
  intro ts x fl h rest r hlen hstop
  cases h with
  | @operator ts _ _ op hop h =>
    rw [unaryLevel, List.cons_append, bind_of_ok (takeIf_cons hop)]
    simp only
    rw [bind_of_ok (ho _ _ _ h rest r (by simp at hlen ⊢; omega) hstop)]
    rfl
  | call h =>
    obtain ⟨t, us, rfl, ht⟩ := called_starts E _ _ _ h
    have hnot : isPrefixOp t.kind = false := by
      revert ht
      cases t.kind <;> simp [startsPrimary, isPrefixOp]
    rw [unaryLevel, List.cons_append, bind_of_ok (takeIf_stops (.cons hnot _))]
    exact callLevel_complete he hE _ _ _ h rest r hlen hstop

/-- Once some operands have been read, the loop is where they end. -/
theorem chained_complete {more ops : Kind → Bool} {node : Expr → Token → Expr → Expr}
    {p : Parse Expr} {P : Reading Expr} (hp : Complete size more p P)
    (hops : ∀ k, ops k = true → more k = false) {us l fl} (h : Chained ops node P us l fl) :
    ∀ rest r, (us ++ rest).length ≤ size → Stops more rest → ∃ m, rest.length ≤ m ∧
      chain size ops node p ⟨us ++ rest, r⟩ = chainFrom ops node p m l ⟨rest, r ++ fl⟩ := by
  induction h with
  | @one us l fl hl =>
    intro rest r hlen hstop
    refine ⟨size, by simp at hlen; omega, ?_⟩
    rw [chain, bind_of_ok (hp _ _ _ hl rest r hlen hstop)]
  | @more us l fl vs u fl' op _ hop hu ih =>
    intro rest r hlen hstop
    have hsplit : us ++ op :: vs ++ rest = us ++ op :: (vs ++ rest) := by simp
    rw [hsplit] at hlen ⊢
    obtain ⟨m, hm, heq⟩ := ih _ r hlen (.cons (hops _ hop) _)
    obtain ⟨m, rfl⟩ : ∃ m', m = m' + 1 := Nat.exists_eq_add_one.mpr (by simp at hm; omega)
    simp only [List.length_append, List.length_cons] at hlen hm
    have hright := hp _ _ _ hu rest (r ++ fl) (by simp only [List.length_append]; omega) hstop
    refine ⟨m, by omega, ?_⟩
    rw [heq, chainFrom, bind_of_ok (takeIf_cons hop)]
    simp only
    rw [bind_of_ok hright, Array.append_assoc]

theorem chain_complete {more ops : Kind → Bool} {node : Expr → Token → Expr → Expr}
    {p : Parse Expr} {P : Reading Expr} (hp : Complete size more p P)
    (hops : ∀ k, ops k = true → more k = false) :
    Complete size (fun k => ops k || more k) (chain size ops node p) (Chained ops node P) := by
  intro ts x fl h rest r hlen hstop
  have hmore : Stops more rest := hstop.mono fun k hk => by simp [hk]
  have hend : Stops ops rest := hstop.mono fun k hk => by simp [hk]
  obtain ⟨m, -, heq⟩ := chained_complete hp hops h rest r hlen hmore
  rw [heq]
  cases m with
  | zero => rfl
  | succ m =>
    rw [chainFrom, bind_of_ok (takeIf_stops hend)]
    rfl

theorem disjunction_complete (he : Complete size continues e E)
    (ho : Complete size (· == .leftParen) o O) (hE : Starts startsExpression E) {ts x fl}
    (h : Disjunction E O ts x fl) (rest r) (hlen : (ts ++ rest).length ≤ size)
    (hstop : Stops (fun k => continues k && k != .equal) rest) :
    disjunction size e o ⟨ts ++ rest, r⟩ = .ok x ⟨rest, r ++ fl⟩ := by
  -- an operator of one level never goes on with an operand of the next
  have factor : Complete size _ (factor size e o) (Factor E O) :=
    chain_complete (unaryLevel_complete he ho hE) (by intro k; cases k <;> simp [isFactorOp])
  have term : Complete size _ (term size e o) (Term E O) :=
    chain_complete factor (by intro k; cases k <;> simp [isTermOp, isFactorOp])
  have comparison : Complete size _ (comparison size e o) (Comparison E O) :=
    chain_complete term (by intro k; cases k <;> simp [isComparisonOp, isTermOp, isFactorOp])
  have equality : Complete size _ (equality size e o) (Equality E O) :=
    chain_complete comparison
      (by intro k; cases k <;> simp [isEqualityOp, isComparisonOp, isTermOp, isFactorOp])
  have conjunction : Complete size _ (conjunction size e o) (Conjunction E O) :=
    chain_complete equality
      (by intro k; cases k <;> simp [isEqualityOp, isComparisonOp, isTermOp, isFactorOp])
  have disjunction : Complete size _ (disjunction size e o) (Disjunction E O) :=
    chain_complete conjunction
      (by intro k; cases k <;> simp [isEqualityOp, isComparisonOp, isTermOp, isFactorOp])
  refine disjunction _ _ _ h rest r hlen (hstop.mono ?_)
  intro k
  cases k <;> simp [isEqualityOp, isComparisonOp, isTermOp, isFactorOp, continues]

theorem assignment_complete (he : Complete size continues e E)
    (ho : Complete size (· == .leftParen) o O) (hE : Starts startsExpression E) :
    Complete size continues (assignment size e o) (Assignment E O) := by
  intro ts x fl h rest r hlen hstop
  have left {us l fl} (h : Disjunction E O us l fl) := disjunction_complete he ho hE h
  cases h with
  | plain h =>
    have hnone : Stops (· == .equal) rest := hstop.mono fun k hk => by
      rw [beq_iff_eq.mp hk]; rfl
    rw [assignment, bind_of_ok (left h rest r hlen (hstop.mono (by simp +contextual))),
      bind_of_ok (takeIf_stops hnone)]
    rfl
  | @assign us fl vs v fl' name eq h heq hv =>
    have hsplit : us ++ eq :: vs ++ rest = us ++ eq :: (vs ++ rest) := by simp
    rw [hsplit] at hlen ⊢
    have hvalue := he _ _ _ hv rest (r ++ fl) (by simp at hlen ⊢; omega) hstop
    rw [assignment, bind_of_ok (left h _ r hlen (.cons (by simp [heq]) _)),
      bind_of_ok (takeIf_cons (by simp [heq]))]
    simp only
    rw [bind_of_ok hvalue, Array.append_assoc]
    rfl
  | @invalid us l fl vs v fl' eq h hname heq hv =>
    have hsplit : us ++ eq :: vs ++ rest = us ++ eq :: (vs ++ rest) := by simp
    rw [hsplit] at hlen ⊢
    have hvalue := he _ _ _ hv rest (r ++ fl) (by simp at hlen ⊢; omega) hstop
    rw [assignment, bind_of_ok (left h _ r hlen (.cons (by simp [heq]) _)),
      bind_of_ok (takeIf_cons (by simp [heq]))]
    simp only
    rw [bind_of_ok hvalue]
    cases x with
    | «variable» name => exact absurd rfl (hname name)
    | _ => simp [bind, EStateM.bind, reportAt, pure, EStateM.pure, Array.append_assoc]

end

/-- Expressions and operands are complete, if there is room for their nesting. -/
theorem expression_operand_complete (size n : Nat) :
    Complete size continues (expression size n) (Expression n) ∧
      Complete size (· == .leftParen) (operand size n) (Operand n) := by
  induction n with
  | zero => exact ⟨fun _ _ _ h => h.elim, fun _ _ _ h => h.elim⟩
  | succ n ih =>
    exact ⟨assignment_complete ih.1 ih.2 (expression_starts n),
      unaryLevel_complete ih.1 ih.2 (expression_starts n)⟩

end Parse
end Lox
