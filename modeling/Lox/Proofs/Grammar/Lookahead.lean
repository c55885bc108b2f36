import Lox.Proofs.Grammar.CompleteStatement

/-!
Parsing looks one token ahead and no further. Of the tokens behind those that are taken, only the
first one matters: with others behind it, and with more rounds and more levels of nesting, a parser
goes on in lockstep up to there.
-/

namespace Lox

/-- What may come behind the tokens `us`: the next token of `vs` and of `vs'` is the same, and there
are rounds enough for both. -/
structure Alike (n n' : Nat) (us vs vs' : List Token) : Prop where
  next : vs.head? = vs'.head?
  rounds : (us ++ vs).length ≤ n
  rounds' : (us ++ vs').length ≤ n'

namespace Alike

variable {n n' m m' : Nat} {us us' vs vs' : List Token} {t : Token}

/-- The next token is the same from the beginning on. -/
theorem head (h : Alike n n' us vs vs') : (us ++ vs).head? = (us ++ vs').head? := by
  cases us with
  | nil => exact h.next
  | cons t us => rfl

theorem front (h : Alike n n' (us ++ us') vs vs') : Alike n n' us (us' ++ vs) (us' ++ vs') where
  next := by cases us' <;> simp [h.next]
  rounds := by simpa using h.rounds
  rounds' := by simpa using h.rounds'

/-- Behind `c` tokens or more that were taken, `c` rounds less are enough. -/
theorem back {c : Nat} (h : Alike n n' (us ++ us') vs vs') (hc : c ≤ us.length) :
    Alike (n - c) (n' - c) us' vs vs' := by
  have hrounds := h.rounds
  have hrounds' := h.rounds'
  simp only [List.length_append] at hrounds hrounds'
  exact ⟨h.next, by simp only [List.length_append]; omega, by simp only [List.length_append]; omega⟩

theorem tail (h : Alike n n' (t :: us) vs vs') : Alike (n - 1) (n' - 1) us vs vs' := by
  rw [← List.singleton_append] at h
  exact h.back (Nat.le_refl 1)

theorem mono (h : Alike n n' us vs vs') (hn : n ≤ m) (hn' : n' ≤ m') : Alike m m' us vs vs' where
  next := h.next
  rounds := Nat.le_trans h.rounds hn
  rounds' := Nat.le_trans h.rounds' hn'

/-- Without rounds there are no tokens. -/
theorem end_of_zero (h : Alike 0 n' us vs vs') : us = [] ∧ vs = [] ∧ vs' = [] := by
  obtain ⟨rfl, rfl⟩ : us = [] ∧ vs = [] := by simpa using h.rounds
  exact ⟨rfl, rfl, by simpa using h.next.symm⟩

end Alike

namespace Parse
open Step

variable {α β : Type} {n n' m m' : Nat}

/-- `p'` goes on in lockstep with `p`: it gives the same or stops at the same flaw, when the tokens
taken and the next one are the same. -/
structure Follows (n n' : Nat) (p p' : Parse α) : Prop where
  leaves : LeavesSuffix p
  ok {us vs vs' r x r'} : Alike n n' us vs vs' → p ⟨us ++ vs, r⟩ = .ok x ⟨vs, r'⟩ →
    p' ⟨us ++ vs', r⟩ = .ok x ⟨vs', r'⟩
  error {us vs vs' r e r'} : Alike n n' us vs vs' → p ⟨us ++ vs, r⟩ = .error e ⟨vs, r'⟩ →
    e.flaw ≠ .tooMuchNesting → p' ⟨us ++ vs', r⟩ = .error e ⟨vs', r'⟩

/-- `p` takes a token or more when it succeeds. -/
def Advances (p : Parse α) : Prop := ∀ s x s', p s = .ok x s' → s'.rest.length + 1 ≤ s.rest.length

theorem advances_of_sound {p : Parse α} {P : Reading α} (h : Sound p P) {q : Kind → Bool}
    (hP : Reading.Starts q P) : Advances p := by
  intro s x s' hp
  obtain ⟨ts, fl, ht, hx⟩ := h s x s' hp
  obtain ⟨t, us, rfl, -⟩ := hP _ _ _ hx
  rw [ht.rest, List.cons_append, List.length_cons, List.length_append]
  omega

/-- What a step leaves is between what it found and what the next step leaves. -/
theorem exists_between {us vs ws : List Token} (h : ws <:+ us ++ vs) (h' : vs <:+ ws) :
    ∃ us₁ us₂, us = us₁ ++ us₂ ∧ ws = us₂ ++ vs := by
  obtain ⟨us₁, h⟩ := h
  obtain ⟨us₂, rfl⟩ := h'
  rw [← List.append_assoc] at h
  exact ⟨us₁, us₂, (List.append_cancel_right h).symm, rfl⟩

theorem exists_taken {us vs ts : List Token} {t : Token} (h : us ++ vs = t :: ts)
    (h' : vs <:+ ts) : ∃ us', us = t :: us' ∧ ts = us' ++ vs := by
  cases us with
  | nil =>
    obtain rfl : vs = t :: ts := h
    exact absurd h'.length_le (Nat.not_succ_le_self ts.length)
  | cons u us =>
    obtain ⟨rfl, rfl⟩ := List.cons.inj h
    exact ⟨us, rfl, rfl⟩

namespace Follows

/-! ### Steps -/

theorem mono {p p' : Parse α} (h : Follows m m' p p') (hn : n ≤ m) (hn' : n' ≤ m') :
    Follows n n' p p' where
  leaves := h.leaves
  ok ha := h.ok (ha.mono hn hn')
  error ha := h.error (ha.mono hn hn')

/-- A step that takes nothing and looks at the next token alone. -/
theorem peek {p : Parse α} (g : Option Token → α) (f : Option Token → Array Problem → Array Problem)
    (h : ∀ ts r, p ⟨ts, r⟩ = .ok (g ts.head?) ⟨ts, f ts.head? r⟩) : Follows n n' p p where
  leaves := .of_ok fun s => ⟨_, _, h s.rest s.reports, List.suffix_rfl⟩
  ok {us vs vs' _ _ _} ha hp := by
    rw [h] at hp
    obtain ⟨rfl, hs⟩ := EStateM.Result.ok.inj hp
    obtain ⟨hus, rfl⟩ := Progress.mk.inj hs
    obtain rfl : us = [] := by simpa using hus
    rw [List.nil_append, List.nil_append, h, ha.next]
  error _ hp := by
    rw [h] at hp
    cases hp

theorem pure (x : α) : Follows n n' (Pure.pure x : Parse α) (Pure.pure x) :=
  peek (fun _ => x) (fun _ r => r) fun _ _ => rfl

theorem reportAt (flaw : Flaw) (spot : Option Token) :
    Follows n n' (Parse.reportAt flaw spot) (Parse.reportAt flaw spot) :=
  peek (fun _ => ()) (fun _ r => r.push ⟨flaw, spot⟩) fun _ _ => rfl

theorem report (flaw : Flaw) : Follows n n' (Parse.report flaw) (Parse.report flaw) :=
  peek (fun _ => ()) (fun t r => r.push ⟨flaw, t⟩) fun _ _ => rfl

theorem nextIs (k : Kind) : Follows n n' (Parse.nextIs k) (Parse.nextIs k) :=
  peek (fun t => t.elim false (·.kind == k)) (fun _ r => r) fun ts _ => by cases ts <;> rfl

theorem atEnd : Follows n n' Parse.atEnd Parse.atEnd :=
  peek Option.isNone (fun _ r => r) fun ts _ => by cases ts <;> rfl

theorem fail (flaw : Flaw) : Follows n n' (Parse.fail flaw : Parse α) (Parse.fail flaw) where
  leaves := .fail _
  ok _ h := by cases h
  error {us vs vs' _ _ _} ha h _ := by
    obtain ⟨rfl, hs⟩ := EStateM.Result.error.inj h
    obtain ⟨hus, rfl⟩ := Progress.mk.inj hs
    obtain rfl : us = [] := by simpa using hus
    rw [List.nil_append, List.nil_append, Parse.fail, ha.next]

/-- Where no level may be opened, there is nothing to follow. -/
theorem tooMuchNesting (p : Parse α) : Follows n n' (Parse.fail .tooMuchNesting) p where
  leaves := .fail _
  ok _ h := by cases h
  error _ h hflaw := absurd (EStateM.Result.error.inj h).1 fun he => hflaw (he ▸ rfl)

/-- When the first step takes `c` tokens or more, the second one needs `c` rounds less. -/
theorem bind_after {p p' : Parse α} {f f' : α → Parse β} (c : Nat) (hp : Follows n n' p p')
    (hc : ∀ {s x s'}, p s = .ok x s' → s'.rest.length + c ≤ s.rest.length)
    (hf : ∀ x, Follows (n - c) (n' - c) (f x) (f' x)) : Follows n n' (p >>= f) (p' >>= f') where
  leaves := hp.leaves.bind fun x => (hf x).leaves
  ok ha h := by
    obtain ⟨x, ⟨ws, r₁⟩, hx, h⟩ := bind_eq_ok.mp h
    obtain ⟨us₁, us₂, rfl, rfl⟩ := exists_between (hp.leaves.ok hx) ((hf x).leaves.ok h)
    have hlen := hc hx
    simp only [List.length_append] at hlen
    rw [List.append_assoc] at hx ⊢
    exact bind_eq_ok.mpr ⟨x, _, hp.ok ha.front hx, (hf x).ok (ha.back (by omega)) h⟩
  error ha h hflaw := by
    rcases bind_eq_error.mp h with h | ⟨x, ⟨ws, r₁⟩, hx, h⟩
    · exact bind_eq_error.mpr (.inl (hp.error ha h hflaw))
    · obtain ⟨us₁, us₂, rfl, rfl⟩ := exists_between (hp.leaves.ok hx) ((hf x).leaves.error h)
      have hlen := hc hx
      simp only [List.length_append] at hlen
      rw [List.append_assoc] at hx ⊢
      exact bind_eq_error.mpr
        (.inr ⟨x, _, hp.ok ha.front hx, (hf x).error (ha.back (by omega)) h hflaw⟩)

theorem bind {p p' : Parse α} {f f' : α → Parse β} (hp : Follows n n' p p')
    (hf : ∀ x, Follows n n' (f x) (f' x)) : Follows n n' (p >>= f) (p' >>= f') :=
  hp.bind_after 0 (fun hx => (hp.leaves.ok hx).length_le) hf

theorem map {p p' : Parse α} (f : α → β) (hp : Follows n n' p p') :
    Follows n n' (f <$> p) (f <$> p') := by
  rw [map_eq_pure_bind, map_eq_pure_bind]
  exact hp.bind fun _ => pure _

theorem ite {c : Prop} [Decidable c] {p p' q q' : Parse α} (hp : Follows n n' p p')
    (hq : Follows n n' q q') : Follows n n' (if c then p else q) (if c then p' else q') := by
  split
  · exact hp
  · exact hq

/-- Nothing is left where there are no more rounds. -/
theorem done {x : α} {p : Parse α} (h : ∀ r, p ⟨[], r⟩ = .ok x ⟨[], r⟩) :
    Follows 0 n' (Pure.pure x) p where
  leaves := .pure x
  ok ha hp := by
    obtain ⟨rfl, rfl, rfl⟩ := ha.end_of_zero
    obtain ⟨rfl, hs⟩ := pure_eq_ok.mp hp
    exact hs ▸ h _
  error _ hp := by cases hp

/-- Whether the next token is taken decides how it goes on, in the same way for both. -/
theorem takeIf_bind {p : Kind → Bool} {f f' : Option Token → Parse β}
    (hnone : Follows n n' (f none) (f' none))
    (hsome : ∀ t, p t.kind = true → Follows (n - 1) (n' - 1) (f (some t)) (f' (some t))) :
    Follows n n' (takeIf p >>= f) (takeIf p >>= f') where
  leaves := by
    constructor <;> intro s _ _ h <;>
      rcases takeIf_bind_eq p f s with ⟨t, ts, hs, ht, heq⟩ | ⟨-, heq⟩ <;> rw [heq] at h
    · exact hs ▸ ((hsome t ht).leaves.ok h).trans (List.suffix_cons t ts)
    · exact hnone.leaves.ok h
    · exact hs ▸ ((hsome t ht).leaves.error h).trans (List.suffix_cons t ts)
    · exact hnone.leaves.error h
  ok {us vs vs' r _ _} ha h := by
    rcases takeIf_bind_eq p f ⟨us ++ vs, r⟩ with ⟨t, ts, hs, ht, heq⟩ | ⟨hstops, heq⟩ <;>
      rw [heq] at h
    · obtain ⟨us, rfl, rfl⟩ := exists_taken hs ((hsome t ht).leaves.ok h)
      exact (bind_of_ok (takeIf_cons ht) f').trans ((hsome t ht).ok ha.tail h)
    · rw [Stops, ha.head] at hstops
      exact (bind_of_ok (takeIf_stops hstops) f').trans (hnone.ok ha h)
  error {us vs vs' r _ _} ha h hflaw := by
    rcases takeIf_bind_eq p f ⟨us ++ vs, r⟩ with ⟨t, ts, hs, ht, heq⟩ | ⟨hstops, heq⟩ <;>
      rw [heq] at h
    · obtain ⟨us, rfl, rfl⟩ := exists_taken hs ((hsome t ht).leaves.error h)
      exact (bind_of_ok (takeIf_cons ht) f').trans ((hsome t ht).error ha.tail h hflaw)
    · rw [Stops, ha.head] at hstops
      exact (bind_of_ok (takeIf_stops hstops) f').trans (hnone.error ha h hflaw)

theorem takeIf (p : Kind → Bool) : Follows n n' (Parse.takeIf p) (Parse.takeIf p) := by
  rw [← bind_pure (Parse.takeIf p)]
  exact takeIf_bind (pure none) fun t _ => pure (some t)

theorem skipIf_bind {k : Kind} {f f' : Bool → Parse β} (hfalse : Follows n n' (f false) (f' false))
    (htrue : Follows (n - 1) (n' - 1) (f true) (f' true)) :
    Follows n n' (skipIf k >>= f) (skipIf k >>= f') := by
  rw [skipIf, bind_assoc, bind_assoc]
  simp only [pure_bind]
  exact takeIf_bind hfalse fun _ _ => htrue

theorem skipIf (k : Kind) : Follows n n' (Parse.skipIf k) (Parse.skipIf k) :=
  (takeIf _).bind fun _ => pure _

theorem expect (slot : Slot) : Follows n n' (Parse.expect slot) (Parse.expect slot) := by
  refine (takeIf _).bind fun t => ?_
  cases t with
  | none => exact fail _
  | some t => exact pure t

theorem optionalUntil (stop : Kind) {p p' : Parse α} (hp : Follows n n' p p') :
    Follows n n' (Parse.optionalUntil stop p) (Parse.optionalUntil stop p') :=
  (nextIs stop).bind fun _ => ite (pure _) (hp.bind fun _ => pure _)

/-! ### Loops -/

section
variable {limit : Nat} {flaw : Flaw} {item item' : Parse α}

theorem moreItems_end (n : Nat) (acc : Array α) (r : Array Problem) :
    Parse.moreItems limit flaw item n acc ⟨[], r⟩ = .ok acc ⟨[], r⟩ := by
  cases n <;> rfl

/-- A loop that has a round for each token that is left ends where the tokens do. -/
theorem moreItems (h : Follows m m' item item') (acc : Array α) (hn : n ≤ n') (hm : n ≤ m)
    (hm' : n' ≤ m') : Follows n n' (Parse.moreItems limit flaw item n acc)
      (Parse.moreItems limit flaw item' n' acc) := by
  induction n generalizing n' acc with
  | zero => exact done (moreItems_end n' acc)
  | succ n ih =>
    obtain ⟨n', rfl⟩ := Nat.exists_eq_add_of_le' (Nat.le_trans (Nat.le_add_left 1 n) hn)
    have hover : Follows n n' (if limit ≤ acc.size then Parse.report flaw else Pure.pure ())
        (if limit ≤ acc.size then Parse.report flaw else Pure.pure ()) :=
      ite (report flaw) (pure ())
    rw [moreItems_succ, moreItems_succ]
    refine skipIf_bind (pure acc) (hover.bind fun _ => ?_)
    exact (h.mono (by omega) (by omega)).bind fun x => ih _ (by omega) (by omega) (by omega)

theorem items (h : Follows n n' item item') (hn : n ≤ n') :
    Follows n n' (Parse.items n limit flaw item) (Parse.items n' limit flaw item') :=
  (nextIs _).bind fun _ => ite (pure _) (h.bind fun _ =>
    (moreItems h _ hn (Nat.le_refl n) (Nat.le_refl n')).bind fun _ => pure _)

end

/-! ### Expressions -/

section
variable {e e' o o' : Parse Expr}

theorem primary (he : Follows n n' e e') : Follows n n' (Parse.primary e) (Parse.primary e') := by
  refine (takeIf _).bind fun t => ?_
  cases t with
  | none => exact fail _
  | some t =>
    cases hk : t.kind with
    | kwTrue | kwFalse | kwNil | number | string | identifier =>
      simp only [hk]
      exact pure _
    | _ =>
      simp only [hk]
      exact he.bind fun _ => (expect _).bind fun _ => pure _

theorem callsFrom (he : Follows m m' e e') (f : Expr) (hm : m ≤ m') (hn : n ≤ n') (hnm : n ≤ m)
    (hnm' : n' ≤ m') :
    Follows n n' (Parse.callsFrom m e n f) (Parse.callsFrom m' e' n' f) := by
  induction n generalizing n' f with
  | zero => exact done fun r => by cases n' <;> rfl
  | succ n ih =>
    obtain ⟨n', rfl⟩ := Nat.exists_eq_add_of_le' (Nat.le_trans (Nat.le_add_left 1 n) hn)
    refine skipIf_bind (pure f) (((items he hm).mono (by omega) (by omega)).bind fun _ =>
      (expect _).bind fun _ => ih _ (by omega) (by omega) (by omega))

theorem callLevel (he : Follows n n' e e') (hn : n ≤ n') :
    Follows n n' (Parse.callLevel n e) (Parse.callLevel n' e') :=
  (primary he).bind fun _ => callsFrom he _ hn hn (Nat.le_refl n) (Nat.le_refl n')

theorem unaryLevel (he : Follows n n' e e') (ho : Follows n n' o o') (hn : n ≤ n') :
    Follows n n' (Parse.unaryLevel n e o) (Parse.unaryLevel n' e' o') := by
  refine (takeIf _).bind fun t => ?_
  cases t with
  | none => exact callLevel he hn
  | some t => exact ho.bind fun _ => pure _

theorem chainFrom {ops : Kind → Bool} {node : Expr → Token → Expr → Expr} (ho : Follows m m' o o')
    (l : Expr) (hn : n ≤ n') (hm : n ≤ m) (hm' : n' ≤ m') :
    Follows n n' (Parse.chainFrom ops node o n l) (Parse.chainFrom ops node o' n' l) := by
  induction n generalizing n' l with
  | zero => exact done fun r => by cases n' <;> rfl
  | succ n ih =>
    obtain ⟨n', rfl⟩ := Nat.exists_eq_add_of_le' (Nat.le_trans (Nat.le_add_left 1 n) hn)
    refine takeIf_bind (pure l) fun t _ => ?_
    exact (ho.mono (by omega) (by omega)).bind fun _ => ih _ (by omega) (by omega) (by omega)

theorem chain {ops : Kind → Bool} {node : Expr → Token → Expr → Expr} (ho : Follows n n' o o')
    (hn : n ≤ n') : Follows n n' (Parse.chain n ops node o) (Parse.chain n' ops node o') :=
  ho.bind fun _ => chainFrom ho _ hn (Nat.le_refl n) (Nat.le_refl n')

theorem assignment (he : Follows n n' e e') (ho : Follows n n' o o') (hn : n ≤ n') :
    Follows n n' (Parse.assignment n e o) (Parse.assignment n' e' o') := by
  have hunary := unaryLevel he ho hn
  refine (chain (chain (chain (chain (chain (chain hunary hn) hn) hn) hn) hn) hn).bind fun l => ?_
  refine (takeIf _).bind fun t => ?_
  cases t with
  | none => exact pure l
  | some t =>
    refine he.bind fun v => ?_
    cases l with
    | «variable» name => exact pure _
    | _ => exact (reportAt _ _).bind fun _ => pure _

end

/-- More rounds and more levels change nothing. -/
theorem expression_operand (hm : m ≤ m') (hn : n ≤ n') :
    Follows m m' (expression m n) (expression m' n') ∧
      Follows m m' (operand m n) (operand m' n') := by
  induction n generalizing n' with
  | zero => exact ⟨tooMuchNesting _, tooMuchNesting _⟩
  | succ n ih =>
    obtain ⟨n', rfl⟩ := Nat.exists_eq_add_of_le' (Nat.le_trans (Nat.le_add_left 1 n) hn)
    obtain ⟨he, ho⟩ := ih (Nat.le_of_succ_le_succ hn)
    exact ⟨assignment he ho hm, unaryLevel he ho hm⟩

/-! ### Statements -/

section
variable {e e' : Parse Expr} {d d' st st' : Parse Stmt}

theorem declarations (hd : Follows m m' d d') (htakes : Advances d) (acc : Array Stmt) (hn : n ≤ n')
    (hm : n ≤ m) (hm' : n' ≤ m') :
    Follows n n' (Parse.declarations d n acc) (Parse.declarations d' n' acc) := by
  induction n generalizing n' acc with
  | zero => exact done fun r => by cases n' <;> rfl
  | succ n ih =>
    obtain ⟨n', rfl⟩ := Nat.exists_eq_add_of_le' (Nat.le_trans (Nat.le_add_left 1 n) hn)
    refine (nextIs _).bind fun _ => atEnd.bind fun _ => ite (pure _) ?_
    refine (hd.mono hm hm').bind_after 1 (htakes _ _ _) fun _ => ?_
    exact ih _ (by omega) (by omega) (by omega)

theorem programFrom (hd : Follows m m' d d') (htakes : Advances d) (acc : Array Stmt) (hn : n ≤ n')
    (hm : n ≤ m) (hm' : n' ≤ m') :
    Follows n n' (Parse.programFrom d n acc) (Parse.programFrom d' n' acc) := by
  induction n generalizing n' acc with
  | zero => exact done fun r => by cases n' <;> rfl
  | succ n ih =>
    obtain ⟨n', rfl⟩ := Nat.exists_eq_add_of_le' (Nat.le_trans (Nat.le_add_left 1 n) hn)
    refine atEnd.bind fun _ => ite (pure _) ?_
    refine (hd.mono hm hm').bind_after 1 (htakes _ _ _) fun _ => ?_
    exact ih _ (by omega) (by omega) (by omega)

theorem blockBody (hd : Follows n n' d d') (htakes : Advances d) (hn : n ≤ n') :
    Follows n n' (Parse.blockBody n d) (Parse.blockBody n' d') :=
  (declarations hd htakes _ hn (Nat.le_refl n) (Nat.le_refl n')).bind fun _ =>
    (expect _).bind fun _ => pure _

theorem functionRest (hd : Follows n n' d d') (htakes : Advances d) (hn : n ≤ n') :
    Follows n n' (Parse.functionRest n d) (Parse.functionRest n' d') :=
  (expect _).bind fun _ => (expect _).bind fun _ => (items (expect _) hn).bind fun _ =>
    (expect _).bind fun _ => (expect _).bind fun _ => (blockBody hd htakes hn).bind fun _ => pure _

theorem variableRest (he : Follows n n' e e') :
    Follows n n' (Parse.variableRest e) (Parse.variableRest e') :=
  (expect _).bind fun _ => (skipIf _).bind fun _ =>
    ite ((he.map _).bind fun _ => (expect _).bind fun _ => pure _)
      ((pure _).bind fun _ => (expect _).bind fun _ => pure _)

theorem expressionStatement (he : Follows n n' e e') :
    Follows n n' (Parse.expressionStatement e) (Parse.expressionStatement e') :=
  he.bind fun _ => (expect _).bind fun _ => pure _

theorem ifRest (he : Follows n n' e e') (hst : Follows n n' st st') :
    Follows n n' (Parse.ifRest e st) (Parse.ifRest e' st') :=
  (expect _).bind fun _ => he.bind fun _ => (expect _).bind fun _ => hst.bind fun _ =>
    (skipIf _).bind fun _ => ite ((hst.map _).bind fun _ => pure _) ((pure _).bind fun _ => pure _)

theorem whileRest (he : Follows n n' e e') (hst : Follows n n' st st') :
    Follows n n' (Parse.whileRest e st) (Parse.whileRest e' st') :=
  (expect _).bind fun _ => he.bind fun _ => (expect _).bind fun _ => hst.bind fun _ => pure _

theorem forInit (he : Follows n n' e e') : Follows n n' (Parse.forInit e) (Parse.forInit e') :=
  (skipIf _).bind fun _ => ite (pure _) ((skipIf _).bind fun _ =>
    ite ((variableRest he).bind fun _ => pure _) ((expressionStatement he).bind fun _ => pure _))

theorem forRest (he : Follows n n' e e') (hst : Follows n n' st st') :
    Follows n n' (Parse.forRest e st) (Parse.forRest e' st') :=
  (expect _).bind fun _ => (forInit he).bind fun _ => (optionalUntil _ he).bind fun _ =>
    (expect _).bind fun _ => (optionalUntil _ he).bind fun _ => (expect _).bind fun _ =>
      hst.bind fun _ => pure _

theorem statementLevel (he : Follows n n' e e') (hd : Follows n n' d d')
    (htakes : Advances d) (hst : Follows n n' st st') (hn : n ≤ n') :
    Follows n n' (Parse.statementLevel n e d st) (Parse.statementLevel n' e' d' st') := by
  refine (takeIf _).bind fun t => ?_
  cases t with
  | none => exact expressionStatement he
  | some t =>
    cases hk : t.kind with
    | kwIf => simpa only [hk] using ifRest he hst
    | kwPrint =>
      simp only [hk]
      exact he.bind fun _ => (expect _).bind fun _ => pure _
    | kwReturn =>
      simp only [hk]
      exact (optionalUntil _ he).bind fun _ => (expect _).bind fun _ => pure _
    | kwWhile => simpa only [hk] using whileRest he hst
    | kwFor => simpa only [hk] using forRest he hst
    | _ =>
      simp only [hk]
      exact (blockBody hd htakes hn).bind fun _ => pure _

theorem declarationLevel (he : Follows n n' e e') (hd : Follows n n' d d')
    (htakes : Advances d) (hst : Follows n n' st st') (hn : n ≤ n') :
    Follows n n' (Parse.declarationLevel n e d st) (Parse.declarationLevel n' e' d' st') := by
  refine (takeIf _).bind fun t => ?_
  cases t with
  | none => exact hst
  | some t =>
    cases hk : t.kind with
    | kwFun => simpa only [hk] using functionRest hd htakes hn
    | _ => simpa only [hk] using variableRest he

end

/-- More rounds and more levels change nothing. -/
theorem declaration_statement (hm : m ≤ m') (hn : n ≤ n') :
    Follows m m' (declaration m n) (declaration m' n') ∧
      Follows m m' (statement m n) (statement m' n') := by
  induction n generalizing n' with
  | zero => exact ⟨tooMuchNesting _, tooMuchNesting _⟩
  | succ n ih =>
    obtain ⟨n', rfl⟩ := Nat.exists_eq_add_of_le' (Nat.le_trans (Nat.le_add_left 1 n) hn)
    have hn := Nat.le_of_succ_le_succ hn
    have he := (expression_operand hm hn).1
    obtain ⟨hd, hst⟩ := ih hn
    have htakes : Advances (declaration m n) :=
      advances_of_sound (declaration_statement_sound m n).1 (Reading.declaration_starts n)
    exact ⟨declarationLevel he hd htakes hst hm, statementLevel he hd htakes hst hm⟩

/-- A program is read in lockstep with another one up to where the other tokens differ. -/
theorem program (hm : m ≤ m') (hn : maxNesting ≤ n') :
    Follows m m' (program m) (Parse.programFrom (declaration m' n') m' #[]) :=
  programFrom (declaration_statement hm hn).1
    (advances_of_sound (declaration_statement_sound m maxNesting).1
      (Reading.declaration_starts maxNesting)) #[] hm (Nat.le_refl m) (Nat.le_refl m')

end Follows
end Parse
end Lox
