import Lox.Proofs.Grammar.Reading
import Lox.Proofs.Step

/-!
What parsing gives is a reading of the tokens it takes. One lemma for each parser, under the
assumption that the parsers of its parts are sound.
-/

namespace Lox

/-- A step from `s` to `s'` took the tokens `ts` and noted the flaws `fl`. -/
structure Took (s : Progress) (ts : List Token) (fl : Array Problem) (s' : Progress) : Prop where
  rest : s.rest = ts ++ s'.rest
  reports : s'.reports = s.reports ++ fl

theorem Took.refl (s : Progress) : Took s [] #[] s := ⟨rfl, by simp⟩

theorem Took.trans {s s₁ s₂ : Progress} {ts us : List Token} {fl fl' : Array Problem}
    (h : Took s ts fl s₁) (h' : Took s₁ us fl' s₂) : Took s (ts ++ us) (fl ++ fl') s₂ :=
  ⟨by rw [h.rest, h'.rest, List.append_assoc],
    by rw [h'.reports, h.reports, Array.append_assoc]⟩

/-- Taking a single token. -/
theorem Took.cons {s s₁ s₂ : Progress} {t : Token} {us : List Token} {fl : Array Problem}
    (h : Took s [t] #[] s₁) (h' : Took s₁ us fl s₂) : Took s (t :: us) fl s₂ := by
  simpa using h.trans h'

/-- No token that satisfies `p` comes next. -/
def Stops (p : Kind → Bool) (ts : List Token) : Prop := ∀ t ∈ ts.head?, p t.kind = false

/-- Whatever `p` gives is a reading of `P`. -/
def Sound {α : Type} (p : Parse α) (P : Reading α) : Prop :=
  ∀ s x s', p s = .ok x s' → ∃ ts fl, Took s ts fl s' ∧ P ts x fl

namespace Parse
open Reading Step

variable {α : Type} {s s' : Progress}

/-! ### Single steps -/

theorem takeIf_some {p : Kind → Bool} {t : Token} (h : takeIf p s = .ok (some t) s') :
    Took s [t] #[] s' ∧ p t.kind = true := by
  obtain ⟨ts, fl⟩ := s
  cases ts with
  | nil => simp [takeIf] at h
  | cons u ts =>
    by_cases hu : p u.kind = true
    · simp only [takeIf, hu, if_true, EStateM.Result.ok.injEq, Option.some.injEq] at h
      obtain ⟨rfl, rfl⟩ := h
      exact ⟨⟨rfl, by simp⟩, hu⟩
    · simp [takeIf, hu] at h

theorem takeIf_none {p : Kind → Bool} (h : takeIf p s = .ok none s') :
    s' = s ∧ Stops p s.rest := by
  obtain ⟨ts, fl⟩ := s
  cases ts with
  | nil =>
    simp only [takeIf, EStateM.Result.ok.injEq, true_and] at h
    exact ⟨h.symm, by simp [Stops]⟩
  | cons u ts =>
    by_cases hu : p u.kind = true
    · simp [takeIf, hu] at h
    · simp only [takeIf, hu, Bool.false_eq_true, if_false, EStateM.Result.ok.injEq, true_and] at h
      exact ⟨h.symm, by simpa [Stops] using hu⟩

theorem expect_ok {slot : Slot} {t : Token} (h : expect slot s = .ok t s') :
    Took s [t] #[] s' ∧ t.kind = slot.kind := by
  obtain ⟨o, s₁, ho, h⟩ := bind_eq_ok.mp h
  cases o with
  | none => simp [fail] at h
  | some u =>
    obtain ⟨rfl, rfl⟩ := pure_eq_ok.mp h
    exact (takeIf_some ho).imp_right (by simp)

theorem skipIf_true {k : Kind} (h : skipIf k s = .ok true s') :
    ∃ t, Took s [t] #[] s' ∧ t.kind = k := by
  obtain ⟨o, s₁, ho, h⟩ := bind_eq_ok.mp h
  obtain ⟨hs, rfl⟩ := pure_eq_ok.mp h
  obtain ⟨t, rfl⟩ := Option.isSome_iff_exists.mp hs
  exact ⟨t, (takeIf_some ho).imp_right (by simp)⟩

theorem skipIf_false {k : Kind} (h : skipIf k s = .ok false s') :
    s' = s ∧ Stops (· == k) s.rest := by
  obtain ⟨o, s₁, ho, h⟩ := bind_eq_ok.mp h
  obtain ⟨hs, rfl⟩ := pure_eq_ok.mp h
  obtain rfl : o = none := by simpa using hs
  exact takeIf_none ho

theorem nextIs_ok {k : Kind} {b : Bool} (h : nextIs k s = .ok b s') : s' = s := by
  obtain ⟨ts, fl⟩ := s
  cases ts <;> simp only [nextIs, EStateM.Result.ok.injEq] at h <;> exact h.2.symm

theorem atEnd_ok {b : Bool} (h : atEnd s = .ok b s') : s' = s ∧ b = s.rest.isEmpty := by
  simp only [atEnd, EStateM.Result.ok.injEq] at h
  exact ⟨h.2.symm, h.1.symm⟩

theorem reportAt_ok {flaw : Flaw} {spot : Option Token} {u : Unit}
    (h : reportAt flaw spot s = .ok u s') : Took s [] #[⟨flaw, spot⟩] s' := by
  simp only [reportAt, EStateM.Result.ok.injEq, true_and] at h
  subst h
  exact ⟨rfl, by simp⟩

/-! ### Items -/

/-- Going over a comma: the next item is reported if it is one too many. -/
theorem moreItems_succ (limit : Nat) (flaw : Flaw) (item : Parse α) (n : Nat) (acc : Array α) :
    moreItems limit flaw item (n + 1) acc = do
      if ← skipIf .comma then
        (if limit ≤ acc.size then report flaw else pure ())
        let x ← item
        moreItems limit flaw item n (acc.push x)
      else return acc := by
  rw [moreItems]
  congr
  funext more
  by_cases hn : limit ≤ acc.size <;> cases more <;> simp [hn]

/-- An item beyond the limit is reported where it starts. -/
theorem overflow_ok {limit n : Nat} {flaw : Flaw} {u : Unit}
    (h : (if limit ≤ n then report flaw else pure ()) s = .ok u s') :
    s'.rest = s.rest ∧ ∀ t ts, s.rest = t :: ts → Took s [] (overflow limit flaw n t) s' := by
  by_cases hn : limit ≤ n
  · rw [if_pos hn] at h
    have ht := reportAt_ok h
    refine ⟨by simpa using ht.rest.symm, fun t ts hs => ?_⟩
    rw [overflow, if_pos hn]
    simpa [hs] using ht
  · rw [if_neg hn] at h
    obtain ⟨-, rfl⟩ := pure_eq_ok.mp h
    refine ⟨rfl, fun t ts _ => ?_⟩
    rw [overflow, if_neg hn]
    exact .refl _

theorem moreItems_sound {limit : Nat} {flaw : Flaw} {item : Parse α} {P : Reading α}
    (hitem : Sound item P) {q : Kind → Bool} (hP : Starts q P) {s₀ : Progress} (n : Nat) :
    ∀ {us xs fl s acc s'}, Took s₀ us fl s → Listed limit flaw P us acc.toList fl →
      moreItems limit flaw item n acc s = .ok xs s' →
      ∃ ts fl', Took s₀ ts fl' s' ∧ Listed limit flaw P ts xs.toList fl' := by
  induction n with
  | zero =>
    intro us xs fl s acc s' ht hl h
    obtain ⟨rfl, rfl⟩ := pure_eq_ok.mp h
    exact ⟨us, fl, ht, hl⟩
  | succ n ih =>
    intro us xs fl s acc s' ht hl h
    rw [moreItems_succ, bind_eq_ok] at h
    obtain ⟨more, s₁, hc, h⟩ := h
    cases more with
    | false =>
      obtain ⟨rfl, -⟩ := skipIf_false hc
      obtain ⟨rfl, rfl⟩ := pure_eq_ok.mp h
      exact ⟨us, fl, ht, hl⟩
    | true =>
      obtain ⟨comma, htc, hkc⟩ := skipIf_true hc
      simp only [if_true, bind_eq_ok] at h
      obtain ⟨u, s₂, hr, x, s₃, hx, h⟩ := h
      obtain ⟨vs, fl', htx, hPx⟩ := hitem _ _ _ hx
      obtain ⟨t, vs, rfl, -⟩ := hP _ _ _ hPx
      obtain ⟨hrest, hover⟩ := overflow_ok hr
      have hover := hover t (vs ++ s₃.rest) (by rw [← hrest, htx.rest]; rfl)
      have htook := ht.trans (htc.cons (hover.trans htx))
      rw [← Array.append_assoc] at htook
      exact ih htook (by simpa using hl.more comma t hkc hPx) h

/-- Items need not be counted with more rounds than there are tokens. -/
theorem items_sound {size limit : Nat} {flaw : Flaw} {item : Parse α} {P : Reading α}
    (hitem : Sound item P) {q : Kind → Bool} (hP : Starts q P) :
    Sound (items size limit flaw item) (Items limit flaw P) := by
  intro s xs s' h
  rw [items, bind_eq_ok] at h
  obtain ⟨b, s₁, hb, h⟩ := h
  obtain rfl := nextIs_ok hb
  cases b with
  | true =>
    obtain ⟨rfl, rfl⟩ := pure_eq_ok.mp h
    exact ⟨[], #[], .refl _, .none⟩
  | false =>
    simp only [Bool.false_eq_true, if_false, bind_eq_ok, pure_eq_ok] at h
    obtain ⟨x, s₂, hx, ys, s₃, hm, rfl, rfl⟩ := h
    obtain ⟨ts, fl, ht, hp⟩ := hitem _ _ _ hx
    obtain ⟨us, fl', ht', hl⟩ := moreItems_sound hitem hP size ht (.one hp) hm
    exact ⟨us, fl', ht', .some hl⟩

theorem optionalUntil_sound {stop : Kind} {part : Parse α} {P : Reading α} (hp : Sound part P) :
    Sound (optionalUntil stop part) (Optional P) := by
  intro s o s' h
  rw [optionalUntil, bind_eq_ok] at h
  obtain ⟨b, s₁, hb, h⟩ := h
  obtain rfl := nextIs_ok hb
  cases b with
  | true =>
    obtain ⟨rfl, rfl⟩ := pure_eq_ok.mp h
    exact ⟨[], #[], .refl _, .none⟩
  | false =>
    simp only [Bool.false_eq_true, if_false, bind_eq_ok, pure_eq_ok] at h
    obtain ⟨x, s₂, hx, rfl, rfl⟩ := h
    obtain ⟨ts, fl, ht, hx⟩ := hp _ _ _ hx
    exact ⟨ts, fl, ht, .some hx⟩

/-! ### Expressions -/

section
variable {size : Nat} {e : Parse Expr} {o : Parse Expr} {E O : Reading Expr}

theorem primary_sound (he : Sound e E) : Sound (primary e) (Primary E) := by
  intro s x s' h
  rw [primary, bind_eq_ok] at h
  obtain ⟨t?, s₁, ht, h⟩ := h
  cases t? with
  | none => simp [fail] at h
  | some t =>
    obtain ⟨ht, hk⟩ := takeIf_some ht
    have literal {v} (hv : t.literal? = some v)
        (h : (pure (.literal v) : Parse Expr) s₁ = .ok x s') :
        ∃ ts fl, Took s ts fl s' ∧ Primary E ts x fl := by
      obtain ⟨rfl, rfl⟩ := pure_eq_ok.mp h
      exact ⟨[t], #[], ht, .literal t hv⟩
    cases hkind : t.kind with
    | kwTrue | kwFalse | kwNil | number | string =>
      simp only [hkind] at h
      exact literal (by simp [Token.literal?, hkind]) h
    | identifier =>
      simp only [hkind] at h
      obtain ⟨rfl, rfl⟩ := pure_eq_ok.mp h
      exact ⟨[t], #[], ht, .name t hkind⟩
    | leftParen =>
      simp only [hkind, bind_eq_ok, pure_eq_ok] at h
      obtain ⟨inner, s₂, hi, r, s₃, hr, rfl, rfl⟩ := h
      obtain ⟨ts, fl, hti, hi⟩ := he _ _ _ hi
      obtain ⟨htr, hr⟩ := expect_ok hr
      exact ⟨_, _, ht.cons (hti.trans htr), .group t r hkind hi hr⟩
    | _ => simp [startsPrimary, hkind] at hk

theorem callsFrom_sound (he : Sound e E) (hE : Starts startsExpression E) {s₀ : Progress}
    (n : Nat) : ∀ {us f fl s x s'}, Took s₀ us fl s → Called E us f fl →
      callsFrom size e n f s = .ok x s' → ∃ ts fl', Took s₀ ts fl' s' ∧ Called E ts x fl' := by
  induction n with
  | zero =>
    intro us f fl s x s' ht hf h
    obtain ⟨rfl, rfl⟩ := pure_eq_ok.mp h
    exact ⟨us, fl, ht, hf⟩
  | succ n ih =>
    intro us f fl s x s' ht hf h
    rw [callsFrom, bind_eq_ok] at h
    obtain ⟨more, s₁, hl, h⟩ := h
    cases more with
    | false =>
      obtain ⟨rfl, -⟩ := skipIf_false hl
      obtain ⟨rfl, rfl⟩ := pure_eq_ok.mp h
      exact ⟨us, fl, ht, hf⟩
    | true =>
      obtain ⟨l, htl, hl⟩ := skipIf_true hl
      simp only [if_true, bind_eq_ok] at h
      obtain ⟨args, s₂, ha, r, s₃, hr, h⟩ := h
      obtain ⟨vs, fl', hta, ha⟩ := items_sound he hE _ _ _ ha
      obtain ⟨htr, hr⟩ := expect_ok hr
      exact ih (ht.trans (htl.cons (hta.trans htr))) (.call l r hf hl ha hr) h

theorem callLevel_sound (he : Sound e E) (hE : Starts startsExpression E) :
    Sound (callLevel size e) (Called E) := by
  intro s x s' h
  rw [callLevel, bind_eq_ok] at h
  obtain ⟨f, s₁, hf, h⟩ := h
  obtain ⟨ts, fl, ht, hf⟩ := primary_sound he _ _ _ hf
  exact callsFrom_sound he hE size ht (.primary hf) h

theorem unaryLevel_sound (he : Sound e E) (ho : Sound o O)
    (hE : Starts startsExpression E) : Sound (unaryLevel size e o) (Unary E O) := by
  intro s x s' h
  rw [unaryLevel, bind_eq_ok] at h
  obtain ⟨op?, s₁, hop, h⟩ := h
  cases op? with
  | none =>
    obtain ⟨rfl, -⟩ := takeIf_none hop
    obtain ⟨ts, fl, ht, hc⟩ := callLevel_sound he hE _ _ _ h
    exact ⟨ts, fl, ht, .call hc⟩
  | some op =>
    obtain ⟨htop, hop⟩ := takeIf_some hop
    simp only [bind_eq_ok, pure_eq_ok] at h
    obtain ⟨r, s₂, hr, rfl, rfl⟩ := h
    obtain ⟨ts, fl, ht, hr⟩ := ho _ _ _ hr
    exact ⟨_, fl, htop.cons ht, .operator op hop hr⟩

theorem chainFrom_sound {ops : Kind → Bool} {node : Expr → Token → Expr → Expr} {p : Parse Expr}
    {P : Reading Expr} (hp : Sound p P) {s₀ : Progress} (n : Nat) :
    ∀ {us l fl s x s'}, Took s₀ us fl s → Chained ops node P us l fl →
      chainFrom ops node p n l s = .ok x s' →
      ∃ ts fl', Took s₀ ts fl' s' ∧ Chained ops node P ts x fl' := by
  induction n with
  | zero =>
    intro us l fl s x s' ht hl h
    obtain ⟨rfl, rfl⟩ := pure_eq_ok.mp h
    exact ⟨us, fl, ht, hl⟩
  | succ n ih =>
    intro us l fl s x s' ht hl h
    rw [chainFrom, bind_eq_ok] at h
    obtain ⟨op?, s₁, hop, h⟩ := h
    cases op? with
    | none =>
      obtain ⟨rfl, -⟩ := takeIf_none hop
      obtain ⟨rfl, rfl⟩ := pure_eq_ok.mp h
      exact ⟨us, fl, ht, hl⟩
    | some op =>
      obtain ⟨htop, hop⟩ := takeIf_some hop
      simp only [bind_eq_ok] at h
      obtain ⟨r, s₂, hr, h⟩ := h
      obtain ⟨vs, fl', htr, hr⟩ := hp _ _ _ hr
      exact ih (ht.trans (htop.cons htr)) (hl.more op hop hr) h

theorem chain_sound {ops : Kind → Bool} {node : Expr → Token → Expr → Expr} {p : Parse Expr}
    {P : Reading Expr} (hp : Sound p P) : Sound (chain size ops node p) (Chained ops node P) := by
  intro s x s' h
  rw [chain, bind_eq_ok] at h
  obtain ⟨l, s₁, hl, h⟩ := h
  obtain ⟨ts, fl, ht, hl⟩ := hp _ _ _ hl
  exact chainFrom_sound hp size ht (.one hl) h

theorem disjunction_sound (he : Sound e E) (ho : Sound o O) (hE : Starts startsExpression E) :
    Sound (disjunction size e o) (Disjunction E O) :=
  have unary := unaryLevel_sound he ho hE
  have factor : Sound (factor size e o) (Factor E O) := chain_sound unary
  have term : Sound (term size e o) (Term E O) := chain_sound factor
  have comparison : Sound (comparison size e o) (Comparison E O) := chain_sound term
  have equality : Sound (equality size e o) (Equality E O) := chain_sound comparison
  have conjunction : Sound (conjunction size e o) (Conjunction E O) := chain_sound equality
  chain_sound conjunction

theorem assignment_sound (he : Sound e E) (ho : Sound o O) (hE : Starts startsExpression E) :
    Sound (assignment size e o) (Assignment E O) := by
  intro s x s' h
  rw [assignment, bind_eq_ok] at h
  obtain ⟨l, s₁, hl, h⟩ := h
  obtain ⟨us, fl, htl, hL⟩ := disjunction_sound he ho hE _ _ _ hl
  rw [bind_eq_ok] at h
  obtain ⟨eq?, s₂, heq, h⟩ := h
  cases eq? with
  | none =>
    obtain ⟨rfl, -⟩ := takeIf_none heq
    obtain ⟨rfl, rfl⟩ := pure_eq_ok.mp h
    exact ⟨us, fl, htl, .plain hL⟩
  | some eq =>
    obtain ⟨hteq, hkeq⟩ := takeIf_some heq
    have hkeq : eq.kind = .equal := by simpa using hkeq
    simp only [bind_eq_ok] at h
    obtain ⟨v, s₃, hv, h⟩ := h
    obtain ⟨vs, fl', htv, hV⟩ := he _ _ _ hv
    have htook := htl.trans (hteq.cons htv)
    cases l with
    | «variable» name =>
      obtain ⟨rfl, rfl⟩ := pure_eq_ok.mp h
      exact ⟨_, _, htook, .assign name eq hL hkeq hV⟩
    | _ =>
      simp only [bind_eq_ok, pure_eq_ok] at h
      obtain ⟨_, _, hr, rfl, rfl⟩ := h
      exact ⟨_, _, by simpa using htook.trans (reportAt_ok hr), .invalid eq hL (by simp) hkeq hV⟩

end

/-- Expressions and operands are sound, whatever room there is. -/
theorem expression_operand_sound (size n : Nat) :
    Sound (expression size n) (Expression n) ∧ Sound (operand size n) (Operand n) := by
  induction n with
  | zero => exact ⟨fun _ _ _ h => by simp [expression, fail] at h,
      fun _ _ _ h => by simp [operand, fail] at h⟩
  | succ n ih =>
    exact ⟨assignment_sound ih.1 ih.2 (expression_starts n),
      unaryLevel_sound ih.1 ih.2 (expression_starts n)⟩

end Parse
end Lox
