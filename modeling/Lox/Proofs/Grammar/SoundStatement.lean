import Lox.Proofs.Grammar.Sound

/-!
Soundness of parsing for declarations, statements and programs. A statement that still could take an
`else` is only given back when no `else` comes next, so an `else` goes to the nearest `if`.
-/

namespace Lox

/-- Statements are read soundly, and no `else` comes after one that could take it. -/
def SoundTail (p : Parse Stmt) (S : Tail → Reading Stmt) : Prop :=
  ∀ s x s', p s = .ok x s' →
    ∃ t ts fl, Took s ts fl s' ∧ S t ts x fl ∧ (t = .dangling → Stops (· == .kwElse) s'.rest)

namespace Parse
open Reading Step

variable {size : Nat} {e : Parse Expr} {d st : Parse Stmt}
variable {E : Reading Expr} {D : Reading Stmt} {S : Tail → Reading Stmt}

/-! ### Lists of declarations -/

theorem declarations_sound (hd : Sound d D) {s₀ : Progress} (n : Nat) :
    ∀ {us fl s acc xs s'}, Took s₀ us fl s → Declarations D us acc.toList fl →
      declarations d n acc s = .ok xs s' →
      ∃ ts fl', Took s₀ ts fl' s' ∧ Declarations D ts xs fl' := by
  induction n with
  | zero =>
    intro us fl s acc xs s' ht hD h
    obtain ⟨rfl, rfl⟩ := pure_eq_ok.mp h
    exact ⟨us, fl, ht, hD⟩
  | succ n ih =>
    intro us fl s acc xs s' ht hD h
    simp only [declarations, bind_eq_ok] at h
    obtain ⟨b, s₁, hb, c, s₂, hc, h⟩ := h
    obtain rfl := nextIs_ok hb
    obtain ⟨rfl, -⟩ := atEnd_ok hc
    by_cases hbc : (b || c) = true
    · rw [if_pos hbc] at h
      obtain ⟨rfl, rfl⟩ := pure_eq_ok.mp h
      exact ⟨us, fl, ht, hD⟩
    · rw [if_neg hbc, bind_eq_ok] at h
      obtain ⟨x, s₃, hx, h⟩ := h
      obtain ⟨vs, fl', htx, hX⟩ := hd _ _ _ hx
      exact ih (ht.trans htx) (by simpa using hD.concat hX) h

theorem blockBody_sound (hd : Sound d D) : Sound (blockBody size d) (Block D) := by
  intro s x s' h
  simp only [blockBody, bind_eq_ok, pure_eq_ok] at h
  obtain ⟨xs, s₁, hxs, r, s₂, hr, rfl, rfl⟩ := h
  obtain ⟨ts, fl, ht, hD⟩ := declarations_sound hd size (.refl s) .nil hxs
  obtain ⟨htr, hkr⟩ := expect_ok hr
  exact ⟨_, _, ht.trans htr, .mk r hD hkr⟩

/-! ### After the keyword -/

theorem parameter_sound : Sound (expect .parameterName) Name := by
  intro s x s' h
  obtain ⟨ht, hk⟩ := expect_ok h
  exact ⟨_, _, ht, .mk x hk⟩

theorem functionRest_sound (hd : Sound d D) : Sound (functionRest size d) (Function D) := by
  intro s x s' h
  simp only [functionRest, bind_eq_ok, pure_eq_ok] at h
  obtain ⟨name, s₁, hn, l, s₂, hl, ps, s₃, hps, r, s₄, hr, b, s₅, hb, body, s₆, hB, rfl, rfl⟩ := h
  obtain ⟨htn, hkn⟩ := expect_ok hn
  obtain ⟨htl, hkl⟩ := expect_ok hl
  obtain ⟨us, fl, htp, hP⟩ := items_sound parameter_sound name_starts _ _ _ hps
  obtain ⟨htr, hkr⟩ := expect_ok hr
  obtain ⟨htb, hkb⟩ := expect_ok hb
  obtain ⟨ts, fl', htB, hB⟩ := blockBody_sound hd _ _ _ hB
  exact ⟨_, _, htn.cons (htl.cons (htp.trans (htr.cons (htb.cons htB)))),
    .mk name l r b hkn hkl hP hkr hkb hB⟩

theorem variableRest_sound (he : Sound e E) : Sound (variableRest e) (Variable E) := by
  intro s x s' h
  simp only [variableRest, bind_eq_ok] at h
  obtain ⟨name, s₁, hn, more, s₂, hm, h⟩ := h
  obtain ⟨htn, hkn⟩ := expect_ok hn
  cases more with
  | false =>
    obtain ⟨rfl, -⟩ := skipIf_false hm
    simp only [Bool.false_eq_true, if_false, bind_eq_ok, pure_eq_ok] at h
    obtain ⟨_, _, ⟨rfl, rfl⟩, semi, s₃, hs, rfl, rfl⟩ := h
    obtain ⟨hts, hks⟩ := expect_ok hs
    exact ⟨_, _, htn.cons hts, .bare name semi hkn hks⟩
  | true =>
    obtain ⟨eq, hteq, hkeq⟩ := skipIf_true hm
    simp only [if_true, bind_eq_ok, pure_eq_ok, map_eq_ok] at h
    obtain ⟨_, s₃, ⟨v, hv, rfl⟩, semi, s₄, hs, rfl, rfl⟩ := h
    obtain ⟨ts, fl, htv, hV⟩ := he _ _ _ hv
    obtain ⟨hts, hks⟩ := expect_ok hs
    exact ⟨_, _, htn.cons (hteq.cons (htv.trans hts)), .init name eq semi hkn hkeq hV hks⟩

theorem expressionStatement_sound (he : Sound e E) :
    Sound (expressionStatement e) (Effect E) := by
  intro s x s' h
  simp only [expressionStatement, bind_eq_ok, pure_eq_ok] at h
  obtain ⟨v, s₁, hv, semi, s₂, hs, rfl, rfl⟩ := h
  obtain ⟨ts, fl, htv, hV⟩ := he _ _ _ hv
  obtain ⟨hts, hks⟩ := expect_ok hs
  exact ⟨_, _, htv.trans hts, .mk semi hV hks⟩

theorem forInit_sound (he : Sound e E) : Sound (forInit e) (Init E) := by
  intro s x s' h
  rw [forInit, bind_eq_ok] at h
  obtain ⟨semi?, s₁, hs, h⟩ := h
  cases semi? with
  | true =>
    obtain ⟨semi, hts, hks⟩ := skipIf_true hs
    obtain ⟨rfl, rfl⟩ := pure_eq_ok.mp h
    exact ⟨_, _, hts, .none semi hks⟩
  | false =>
    obtain ⟨rfl, -⟩ := skipIf_false hs
    simp only [Bool.false_eq_true, if_false, bind_eq_ok] at h
    obtain ⟨var?, s₂, hv, h⟩ := h
    cases var? with
    | true =>
      obtain ⟨k, htk, hkk⟩ := skipIf_true hv
      simp only [if_true, bind_eq_ok, pure_eq_ok] at h
      obtain ⟨v, s₃, hx, rfl, rfl⟩ := h
      obtain ⟨ts, fl, htx, hX⟩ := variableRest_sound he _ _ _ hx
      exact ⟨_, _, htk.cons htx, .var k hkk hX⟩
    | false =>
      obtain ⟨rfl, -⟩ := skipIf_false hv
      simp only [Bool.false_eq_true, if_false, bind_eq_ok, pure_eq_ok] at h
      obtain ⟨v, s₃, hx, rfl, rfl⟩ := h
      obtain ⟨ts, fl, htx, hX⟩ := expressionStatement_sound he _ _ _ hx
      exact ⟨_, _, htx, .effect hX⟩

theorem printRest_sound {k : Token} (he : Sound e E) : Sound (printRest k e) (Print k E) := by
  intro s x s' h
  simp only [printRest, bind_eq_ok, pure_eq_ok] at h
  obtain ⟨v, s₁, hv, semi, s₂, hs, rfl, rfl⟩ := h
  obtain ⟨ts, fl, htv, hV⟩ := he _ _ _ hv
  obtain ⟨hts, hks⟩ := expect_ok hs
  exact ⟨_, _, htv.trans hts, .mk semi hV hks⟩

theorem returnRest_sound {k : Token} (he : Sound e E) : Sound (returnRest k e) (Return k E) := by
  intro s x s' h
  simp only [returnRest, bind_eq_ok, pure_eq_ok] at h
  obtain ⟨v, s₁, hv, semi, s₂, hs, rfl, rfl⟩ := h
  obtain ⟨ts, fl, htv, hV⟩ := optionalUntil_sound he _ _ _ hv
  obtain ⟨hts, hks⟩ := expect_ok hs
  exact ⟨_, _, htv.trans hts, .mk semi hV hks⟩

theorem whileRest_sound (he : Sound e E) (hst : SoundTail st S) :
    SoundTail (whileRest e st) (While E S) := by
  intro s x s' h
  simp only [whileRest, bind_eq_ok, pure_eq_ok] at h
  obtain ⟨l, s₁, hl, c, s₂, hc, r, s₃, hr, body, s₄, hb, rfl, rfl⟩ := h
  obtain ⟨htl, hkl⟩ := expect_ok hl
  obtain ⟨ts, fl, htc, hC⟩ := he _ _ _ hc
  obtain ⟨htr, hkr⟩ := expect_ok hr
  obtain ⟨t, us, fl', htb, hB, hrest⟩ := hst _ _ _ hb
  exact ⟨_, _, _, htl.cons (htc.trans (htr.cons htb)), .mk l r hkl hC hkr hB, hrest⟩

theorem forRest_sound (he : Sound e E) (hst : SoundTail st S) :
    SoundTail (forRest e st) (For E S) := by
  intro s x s' h
  simp only [forRest, bind_eq_ok, pure_eq_ok] at h
  obtain ⟨l, s₁, hl, i, s₂, hi, c, s₃, hc, semi, s₄, hs, n, s₅, hn, r, s₆, hr, body, s₇, hb,
    rfl, rfl⟩ := h
  obtain ⟨htl, hkl⟩ := expect_ok hl
  obtain ⟨is, fl, hti, hI⟩ := forInit_sound he _ _ _ hi
  obtain ⟨cs, fl₁, htc, hC⟩ := optionalUntil_sound he _ _ _ hc
  obtain ⟨hts, hks⟩ := expect_ok hs
  obtain ⟨ns, fl₂, htn, hN⟩ := optionalUntil_sound he _ _ _ hn
  obtain ⟨htr, hkr⟩ := expect_ok hr
  obtain ⟨t, us, fl₃, htb, hB, hrest⟩ := hst _ _ _ hb
  exact ⟨_, _, _, htl.cons (hti.trans (htc.trans (hts.cons (htn.trans (htr.cons htb))))),
    .mk l semi r hkl hI hC hks hN hkr hB, hrest⟩

theorem ifRest_sound (he : Sound e E) (hst : SoundTail st S) :
    SoundTail (ifRest e st) (If E S) := by
  intro s x s' h
  simp only [ifRest, bind_eq_ok] at h
  obtain ⟨l, s₁, hl, c, s₂, hc, r, s₃, hr, yes, s₄, hy, more, s₅, hm, h⟩ := h
  obtain ⟨htl, hkl⟩ := expect_ok hl
  obtain ⟨ts, fl, htc, hC⟩ := he _ _ _ hc
  obtain ⟨htr, hkr⟩ := expect_ok hr
  obtain ⟨t, us, fl₁, hty, hY, hrest⟩ := hst _ _ _ hy
  cases more with
  | false =>
    obtain ⟨rfl, hstop⟩ := skipIf_false hm
    simp only [Bool.false_eq_true, if_false, bind_eq_ok, pure_eq_ok] at h
    obtain ⟨_, _, ⟨rfl, rfl⟩, rfl, rfl⟩ := h
    exact ⟨_, _, _, htl.cons (htc.trans (htr.cons hty)), .lone l r hkl hC hkr hY, fun _ => hstop⟩
  | true =>
    obtain ⟨els, htels, hkels⟩ := skipIf_true hm
    -- the `else` is there, so the branch before it cannot have left one to be taken
    obtain rfl : t = .closed := by
      cases t with
      | closed => rfl
      | dangling =>
        have hnot := hrest rfl els (by rw [htels.rest]; rfl)
        simp [hkels] at hnot
    simp only [if_true, bind_eq_ok, pure_eq_ok, map_eq_ok] at h
    obtain ⟨_, s₆, ⟨no, hno, rfl⟩, rfl, rfl⟩ := h
    obtain ⟨t, vs, fl₂, htno, hNo, hrest⟩ := hst _ _ _ hno
    exact ⟨_, _, _, htl.cons (htc.trans (htr.cons (hty.trans (htels.cons htno)))),
      .both l r els hkl hC hkr hY hkels hNo, hrest⟩

/-! ### Which statement -/

theorem statementLevel_sound (he : Sound e E) (hd : Sound d D) (hst : SoundTail st S) :
    SoundTail (statementLevel size e d st) (Body E D S) := by
  intro s x s' h
  rw [statementLevel, bind_eq_ok] at h
  obtain ⟨k?, s₁, hk, h⟩ := h
  cases k? with
  | none =>
    obtain ⟨rfl, -⟩ := takeIf_none hk
    obtain ⟨ts, fl, ht, hE⟩ := expressionStatement_sound he _ _ _ h
    exact ⟨_, ts, fl, ht, .effect hE, by simp⟩
  | some k =>
    obtain ⟨htk, hk⟩ := takeIf_some hk
    cases hkind : k.kind with
    | kwIf =>
      simp only [hkind] at h
      obtain ⟨t, ts, fl, ht, hI, hrest⟩ := ifRest_sound he hst _ _ _ h
      exact ⟨t, _, fl, htk.cons ht, .branch k hkind hI, hrest⟩
    | kwPrint =>
      simp only [hkind] at h
      obtain ⟨ts, fl, ht, hP⟩ := printRest_sound he _ _ _ h
      exact ⟨_, _, fl, htk.cons ht, .print k hkind hP, by simp⟩
    | kwReturn =>
      simp only [hkind] at h
      obtain ⟨ts, fl, ht, hR⟩ := returnRest_sound he _ _ _ h
      exact ⟨_, _, fl, htk.cons ht, .ret k hkind hR, by simp⟩
    | kwWhile =>
      simp only [hkind] at h
      obtain ⟨t, ts, fl, ht, hW, hrest⟩ := whileRest_sound he hst _ _ _ h
      exact ⟨t, _, fl, htk.cons ht, .loop k hkind hW, hrest⟩
    | kwFor =>
      simp only [hkind] at h
      obtain ⟨t, ts, fl, ht, hF, hrest⟩ := forRest_sound he hst _ _ _ h
      exact ⟨t, _, fl, htk.cons ht, .forLoop k hkind hF, hrest⟩
    | leftBrace =>
      simp only [hkind, bind_eq_ok, pure_eq_ok] at h
      obtain ⟨body, s₂, hb, rfl, rfl⟩ := h
      obtain ⟨ts, fl, ht, hB⟩ := blockBody_sound hd _ _ _ hb
      exact ⟨_, _, fl, htk.cons ht, .block k hkind hB, by simp⟩
    | _ => simp [opensStatement, hkind] at hk

theorem declarationLevel_sound (he : Sound e E) (hd : Sound d D) (hst : SoundTail st S) :
    Sound (declarationLevel size e d st) (Declared E D S) := by
  intro s x s' h
  rw [declarationLevel, bind_eq_ok] at h
  obtain ⟨k?, s₁, hk, h⟩ := h
  cases k? with
  | none =>
    obtain ⟨rfl, -⟩ := takeIf_none hk
    obtain ⟨t, ts, fl, ht, hS, -⟩ := hst _ _ _ h
    exact ⟨ts, fl, ht, .statement hS⟩
  | some k =>
    obtain ⟨htk, hk⟩ := takeIf_some hk
    cases hkind : k.kind with
    | kwFun =>
      simp only [hkind] at h
      obtain ⟨ts, fl, ht, hF⟩ := functionRest_sound hd _ _ _ h
      exact ⟨_, fl, htk.cons ht, .function k hkind hF⟩
    | kwVar =>
      simp only [hkind] at h
      obtain ⟨ts, fl, ht, hV⟩ := variableRest_sound he _ _ _ h
      exact ⟨_, fl, htk.cons ht, .var k hkind hV⟩
    | _ => simp [opensDeclaration, hkind] at hk

/-- Declarations and statements are sound, whatever room there is. -/
theorem declaration_statement_sound (size n : Nat) :
    Sound (declaration size n) (Declaration n) ∧ SoundTail (statement size n) (Statement n) := by
  induction n with
  | zero => exact ⟨fun _ _ _ h => by simp [declaration, fail] at h,
      fun _ _ _ h => by simp [statement, fail] at h⟩
  | succ n ih =>
    have he := (expression_operand_sound size n).1
    exact ⟨declarationLevel_sound he ih.1 ih.2, statementLevel_sound he ih.1 ih.2⟩

/-! ### Programs -/

/-- With a round for each token, all tokens are taken. -/
theorem programFrom_sound {q : Kind → Bool} (hd : Sound d D) (hD : Starts q D) {s₀ : Progress}
    (n : Nat) : ∀ {us fl s acc xs s'}, s.rest.length ≤ n → Took s₀ us fl s →
      Declarations D us acc.toList fl → programFrom d n acc s = .ok xs s' →
      s'.rest = [] ∧ ∃ ts fl', Took s₀ ts fl' s' ∧ Declarations D ts xs fl' := by
  induction n with
  | zero =>
    intro us fl s acc xs s' hn ht hus h
    obtain ⟨rfl, rfl⟩ := pure_eq_ok.mp h
    exact ⟨List.eq_nil_of_length_eq_zero (by omega), us, fl, ht, hus⟩
  | succ n ih =>
    intro us fl s acc xs s' hn ht hus h
    rw [programFrom, bind_eq_ok] at h
    obtain ⟨b, s₁, hb, h⟩ := h
    obtain ⟨rfl, rfl⟩ := atEnd_ok hb
    by_cases hend : s₁.rest.isEmpty = true
    · rw [if_pos hend] at h
      obtain ⟨rfl, rfl⟩ := pure_eq_ok.mp h
      exact ⟨List.isEmpty_iff.mp hend, us, fl, ht, hus⟩
    · rw [if_neg hend, bind_eq_ok] at h
      obtain ⟨x, s₂, hx, h⟩ := h
      obtain ⟨vs, fl', htx, hX⟩ := hd _ _ _ hx
      obtain ⟨t, ws, rfl, -⟩ := hD _ _ _ hX
      have hlen : s₂.rest.length ≤ n := by
        have := congrArg List.length htx.rest
        simp only [List.length_append, List.length_cons] at this
        omega
      exact ih hlen (ht.trans htx) (by simpa using hus.concat hX) h

end Parse
end Lox
