import Lox.Proofs.Grammar.Exchange
import Lox.Proofs.Grammar.Lockstep
import Lox.Proofs.Grammar.Resume
import Lox.Proofs.Grammar.Unambiguous

/-!
What a loop with clauses means. It is written shorter than the block with a `while` that it stands
for, and it is parsed to the same tree, wherever a statement may stand.
-/

namespace Lox
open Parse Reading

/-! ### Two ways to write a loop -/

/-- The parts of a loop with clauses: the initializer with its semicolon, the condition, the
increment, and the body. -/
structure Clauses where
  init : List Token
  cond : List Token
  incr : List Token
  body : List Token

namespace Clauses

/-- What the grammar says of the parts. The initializer may be a semicolon alone, and the condition
and the increment may be missing. -/
structure Shaped (p : Clauses) : Prop where
  init : ∃ n, Derives .any .init n (kinds p.init)
  cond : ∃ n, Derives .any .optional n (kinds p.cond)
  incr : ∃ n, Derives .any .optional n (kinds p.incr)
  body : ∃ n t, Derives .any (.statement t) n (kinds p.body)

/-- The loop as `for ( I C ; N ) B`. -/
inductive ForForm (p : Clauses) : List Token → Prop where
  | mk (k l semi r : Token) : k.kind = .kwFor → l.kind = .leftParen → semi.kind = .semicolon →
      r.kind = .rightParen →
      ForForm p (k :: l :: (p.init ++ (p.cond ++ semi :: (p.incr ++ r :: p.body))))

/-- The initializer as a declaration; nothing stands for a lone semicolon. -/
inductive Lead : List Token → List Token → Prop where
  | given {is : List Token} : kinds is ≠ [.semicolon] → Lead is is
  | none {is : List Token} : kinds is = [.semicolon] → Lead is []

/-- The condition; `true` stands for a missing one. -/
inductive Condition : List Token → List Token → Prop where
  | given {cs : List Token} : cs ≠ [] → Condition cs cs
  | none (t : Token) : t.kind = .kwTrue → Condition [] [t]

/-- The increment as a statement; nothing stands for a missing one. -/
inductive Increment : List Token → List Token → Prop where
  | given {ns : List Token} (semi : Token) : ns ≠ [] → semi.kind = .semicolon →
      Increment ns (ns ++ [semi])
  | none : Increment [] []

/-- The loop as `{ I while ( C ) { B N ; } }`. -/
inductive WhileForm (p : Clauses) : List Token → Prop where
  | mk {is cs ns : List Token} (b k l r b' c' c : Token) : Lead p.init is → Condition p.cond cs →
      Increment p.incr ns → b.kind = .leftBrace → k.kind = .kwWhile → l.kind = .leftParen →
      r.kind = .rightParen → b'.kind = .leftBrace → c'.kind = .rightBrace → c.kind = .rightBrace →
      WhileForm p (b :: (is ++ k :: l :: (cs ++ r :: b' :: (p.body ++ (ns ++ [c', c])))))

/-! ### Readings of the parts -/

/-- The parts are read, each within `m` levels, with these results and these flaws. -/
structure Reads (p : Clauses) (m : Nat) (i : Option Stmt) (c n : Option Expr) (s : Stmt)
    (fi fc fn fs : Array Problem) : Prop where
  init : Init (Expression m) p.init i fi
  cond : Optional (Expression m) p.cond c fc
  incr : Optional (Expression m) p.incr n fn
  body : ∃ t, Statement m t p.body s fs

end Clauses

/-! #### What the parts are read as in the block -/

section
variable {m n : Nat} {is ts : List Token} {s : Stmt} {fl : Array Problem}

/-- The token `true` is an expression. -/
theorem expression_true {t : Token} (ht : t.kind = .kwTrue) :
    Expression 1 [t] (.literal (.bool true)) #[] := by
  have hunary : Unary (Expression 0) (Operand 0) [t] (.literal (.bool true)) #[] :=
    .call (.primary (.literal t (by simp [Token.literal?, ht])))
  exact .plain (.one (.one (.one (.one (.one (.one hunary))))))

/-- An initializer that is there is a declaration. -/
theorem declaration_of_init (h : Init (Expression n) is (some s) fl) :
    Declaration (n + 2) is s fl := by
  cases h with
  | var k hk h => exact .var k hk (variable_mono h (Nat.le_succ n))
  | effect h => exact .statement (.effect h)

/-- A declaration that can be an initializer is one. -/
theorem init_of_declaration (h : Init (Expression n) is (some s) fl)
    (h' : Declaration m is s fl) : Init (Expression m) is (some s) fl := by
  cases h with
  | var k hk h =>
    obtain ⟨m, rfl, hvar⟩ := declaration_of_var hk h'
    exact init_mono (.var k hk hvar) (Nat.le_succ m)
  | effect h =>
    obtain ⟨u, us, rfl, hu⟩ := effect_starts (expression_starts n) _ _ _ h
    have hstmt : startsStatement u.kind = true := by simp [startsStatement, hu]
    obtain ⟨_, t, rfl, hs⟩ := declaration_of_statement (not_opensDeclaration hstmt) h'
    obtain ⟨m, rfl, heffect⟩ := statement_of_effect (not_opensStatement hu) hs
    exact init_mono (.effect heffect) (by omega)

/-- A declaration that can be a statement is one. -/
theorem statement_of_declaration {t : Tail} (h : Statement n t ts s fl)
    (h' : Declaration m ts s fl) : ∃ t', Statement m t' ts s fl := by
  obtain ⟨u, us, rfl, hu⟩ := statement_starts t n _ _ _ h
  obtain ⟨m, t', rfl, hs⟩ := declaration_of_statement (not_opensDeclaration hu) h'
  exact statement_mono hs (Nat.le_succ m)

end

namespace Clauses

variable {m n : Nat} {is is' cs cs' ns ns' ts ds rest tail : List Token} {i : Option Stmt}
  {c x : Option Expr} {e : Expr} {ss : List Stmt} {brace r r' k : Token} {fl fl' : Array Problem}

/-- The declarations in the block begin with the initializer, if there is one. -/
theorem Lead.read (h : Lead is is') (hi : Init (Expression n) is i fl)
    (hds : Declarations (Declaration m) ds ss fl') (hbrace : brace.kind = .rightBrace)
    (hsame : ds ++ brace :: rest = is' ++ tail) (htail : Stops (· == .kwElse) tail) :
    Init (Expression m) is i fl ∧ ∃ ds' ss' fl'', ss = i.toList ++ ss' ∧ fl' = fl ++ fl'' ∧
      Declarations (Declaration m) ds' ss' fl'' ∧ ds' ++ brace :: rest = tail := by
  cases h with
  | given hne =>
    cases i with
    | none =>
      obtain ⟨semi, hs⟩ := hi
      simp [hs] at hne
    | some s =>
      obtain ⟨ds', ss', fl'', rfl, rfl, hd, hds', hsame'⟩ :=
        hds.peel hbrace (declaration_of_init hi) hsame htail
      exact ⟨init_of_declaration hi hd, ds', ss', fl'', rfl, rfl, hds', hsame'⟩
  | none hsemi =>
    cases hi with
    | none semi hs => exact ⟨.none semi hs, ds, ss, fl', rfl, by simp, hds, hsame⟩
    | var k hk _ => simp [hk] at hsemi
    | effect h =>
      obtain ⟨u, us, rfl, hu⟩ := effect_starts (expression_starts n) _ _ _ h
      -- no expression starts with a semicolon
      have hkind : u.kind = .semicolon := (List.cons.inj hsemi).1
      rw [hkind] at hu
      cases hu

/-- The condition of the `while` is that of the loop, or `true`. -/
theorem Condition.read (h : Condition cs cs') (hc : Optional (Expression n) cs c fl)
    (hts : Expression m ts e fl') (hsame : ts ++ r' :: rest = cs' ++ r :: tail)
    (hr' : r'.kind = .rightParen) (hr : r.kind = .rightParen) :
    Optional (Expression m) cs c fl ∧ e = c.getD (.literal (.bool true)) ∧ fl' = fl ∧
      rest = tail := by
  have hstop : Stops continues (r :: tail) := .cons (by rw [hr]; rfl) _
  have hstop' : Stops continues (r' :: rest) := .cons (by rw [hr']; rfl) _
  cases hc with
  | none =>
    cases h with
    | given hne => exact absurd rfl hne
    | none t ht =>
      obtain ⟨-, rfl, rfl, hrest⟩ :=
        expression_unambiguous hts (expression_true ht) hsame hstop' hstop
      exact ⟨.none, rfl, rfl, (List.cons.inj hrest).2⟩
  | some he =>
    cases h with
    | given _ =>
      obtain ⟨rfl, rfl, rfl, hrest⟩ := expression_unambiguous hts he hsame hstop' hstop
      exact ⟨.some hts, rfl, rfl, (List.cons.inj hrest).2⟩
    | none =>
      obtain ⟨_, _, hnil, -⟩ := expression_starts n _ _ _ he
      cases hnil

/-- Behind the body the block has the increment, if there is one, and nothing else. -/
theorem Increment.read (h : Increment ns ns') (hx : Optional (Expression n) ns x fl)
    (hds : Declarations (Declaration m) ds ss fl') (hbrace : brace.kind = .rightBrace)
    (hsame : ds ++ brace :: rest = ns' ++ k :: tail) (hk : k.kind = .rightBrace) :
    Optional (Expression m) ns x fl ∧ ss = (x.map .expression).toList ∧ fl' = fl ∧
      rest = tail := by
  cases hx with
  | none =>
    cases h with
    | given _ hne => exact absurd rfl hne
    | none =>
      obtain ⟨-, rfl, rfl, rfl⟩ := hds.eq_nil hsame hk
      exact ⟨.none, rfl, rfl, rfl⟩
  | @some _ e _ he =>
    cases h with
    | given semi _ hs =>
      have hinit : Init (Expression n) (ns ++ [semi]) (some (.expression e)) fl :=
        .effect (.mk semi he hs)
      have hstop : Stops (· == .kwElse) (k :: tail) := .cons (by simp [hk]) _
      obtain ⟨ds', ss', fl'', rfl, rfl, hd, hds', hsame'⟩ :=
        hds.peel hbrace (declaration_of_init hinit) hsame hstop
      obtain ⟨-, rfl, rfl, rfl⟩ := hds'.eq_nil hsame' hk
      refine ⟨.some ?_, rfl, by simp, rfl⟩
      -- the increment is what stands before the semicolon
      have hread := init_of_declaration hinit hd
      generalize hus : ns ++ [semi] = us at hread
      cases hread with
      | var _ _ hv => cases hv
      | effect heffect =>
        obtain ⟨semi', he', -⟩ := heffect
        obtain ⟨rfl, -⟩ := List.append_inj' hus rfl
        exact he'
    | none =>
      obtain ⟨_, _, hnil, -⟩ := expression_starts n _ _ _ he
      cases hnil

theorem Increment.stops (h : Increment ns ns') (hx : Optional (Expression n) ns x fl)
    (hk : k.kind = .rightBrace) (tail : List Token) : Stops (· == .kwElse) (ns' ++ k :: tail) := by
  cases h with
  | none => exact .cons (by simp [hk]) _
  | given semi hne =>
    cases hx with
    | none => exact absurd rfl hne
    | some he =>
      obtain ⟨u, us, rfl, hu⟩ := expression_starts n _ _ _ he
      have hne : (u.kind == .kwElse) = false := beq_false_of_starts hu rfl
      exact .cons hne _

/-! #### The block and the loop in it -/

section
variable {p : Clauses} {m₀ : Nat} {t : Tail} {i : Option Stmt} {c n : Option Expr} {s y : Stmt}
  {fi fc fn fs : Array Problem} {k l b c' : Token} (hp : p.Reads m₀ i c n s fi fc fn fs)
include hp

/-- The block that is the body of the `while`. -/
theorem Reads.of_body (h : Statement m t ts y fl) (hincr : Increment p.incr ns)
    (hsame : ts ++ rest = b :: (p.body ++ (ns ++ c' :: tail))) (hb : b.kind = .leftBrace)
    (hc' : c'.kind = .rightBrace) :
    (∃ t, Statement m t p.body s fs) ∧ Optional (Expression m) p.incr n fn ∧
      y = .block (s :: (n.map .expression).toList) ∧ fl = fs ++ fn ∧ rest = tail := by
  obtain ⟨u, us, rfl, -⟩ := statement_starts t m _ _ _ h
  obtain ⟨rfl, hus⟩ : u = b ∧ us ++ rest = p.body ++ (ns ++ c' :: tail) := by simpa using hsame
  obtain ⟨m, ss, rfl, rfl, brace, hds, hbrace⟩ := statement_of_brace hb h
  rw [List.append_assoc, List.singleton_append] at hus
  obtain ⟨t₀, hbody⟩ := hp.body
  have hdecl : Declaration (m₀ + 1) p.body s fs := .statement hbody
  obtain ⟨ds', ss', fl', rfl, rfl, hd, hds', hrest⟩ :=
    hds.peel hbrace hdecl hus (hincr.stops hp.incr hc' _)
  obtain ⟨hread, rfl, rfl, rfl⟩ := hincr.read hp.incr hds' hbrace hrest hc'
  obtain ⟨t', hs⟩ := statement_of_declaration hbody hd
  exact ⟨statement_mono hs (Nat.le_succ m), optional_mono hread (Nat.le_succ m), rfl, rfl, rfl⟩

/-- The `while` itself. -/
theorem Reads.of_loop (h : Declaration m ts y fl) (hcond : Condition p.cond cs)
    (hincr : Increment p.incr ns)
    (hsame : ts ++ rest = k :: l :: (cs ++ r :: b :: (p.body ++ (ns ++ c' :: tail))))
    (hk : k.kind = .kwWhile) (hr : r.kind = .rightParen) (hb : b.kind = .leftBrace)
    (hc' : c'.kind = .rightBrace) :
    Optional (Expression m) p.cond c fc ∧ Optional (Expression m) p.incr n fn ∧
      (∃ t, Statement m t p.body s fs) ∧
      y = .loop (c.getD (.literal (.bool true))) (.block (s :: (n.map .expression).toList)) ∧
      fl = fc ++ (fs ++ fn) ∧ rest = tail := by
  obtain ⟨u, us, rfl, -⟩ := declaration_starts m _ _ _ h
  obtain ⟨rfl, hus⟩ : u = k ∧ us ++ rest =
      l :: (cs ++ r :: b :: (p.body ++ (ns ++ c' :: tail))) := by simpa using hsame
  obtain ⟨m, t, rfl, hs⟩ := declaration_of_statement (by rw [hk]; rfl) h
  obtain ⟨m, rfl, l', r', -, he, hr', hbody⟩ := statement_of_while hk hs
  simp only [List.cons_append, List.append_assoc, List.cons.injEq] at hus
  obtain ⟨hcread, rfl, rfl, hrest⟩ := hcond.read hp.cond he hus.2 hr' hr
  obtain ⟨⟨t', hs'⟩, hnread, rfl, rfl, rfl⟩ := Reads.of_body hp hbody hincr hrest hb hc'
  have hm : m ≤ m + 1 + 1 := by omega
  exact ⟨optional_mono hcread hm, optional_mono hnread hm, statement_mono hs' hm, rfl, rfl, rfl⟩

/-- When the block is read as a statement, its parts are read one level deeper or more. -/
theorem Reads.of_while {ws : List Token} (hform : WhileForm p ws) (h : Statement m t ts y fl)
    (hsame : ts ++ rest = ws ++ tail) :
    ∃ m', m = m' + 1 ∧ p.Reads m' i c n s fi fc fn fs ∧ y = .forLoop i c n s ∧
      fl = fi ++ (fc ++ (fs ++ fn)) ∧ rest = tail := by
  obtain ⟨b, k, l, r, b', c', c₀, hlead, hcond, hincr, hb, hk, -, hr, hb', hc', hc⟩ := hform
  obtain ⟨u, us, rfl, -⟩ := statement_starts t m _ _ _ h
  simp only [List.cons_append, List.append_assoc, List.cons.injEq, List.nil_append] at hsame
  obtain ⟨rfl, hus⟩ := hsame
  obtain ⟨m, ss, rfl, rfl, brace, hds, hbrace⟩ := statement_of_brace hb h
  rw [List.append_assoc, List.singleton_append] at hus
  obtain ⟨hi, ds', ss', fl', rfl, rfl, hds', hrest⟩ :=
    hlead.read hp.init hds hbrace hus (.cons (by simp [hk]) _)
  -- behind the initializer there is the `while` and nothing more
  cases hds' with
  | nil =>
    obtain ⟨rfl, -⟩ := List.cons.inj hrest
    simp [hk] at hbrace
  | cons hd hds' =>
    rw [List.append_assoc] at hrest
    obtain ⟨hcread, hnread, hs, rfl, rfl, hrest⟩ :=
      Reads.of_loop hp hd hcond hincr hrest hk hr hb' hc'
    obtain ⟨-, rfl, rfl, rfl⟩ := hds'.eq_nil hrest hc
    exact ⟨m, rfl, ⟨hi, hcread, hnread, hs⟩, rfl, by simp, rfl⟩

/-- The loop with clauses is a statement one level around its parts. -/
theorem Reads.for_form {us : List Token} (hform : ForForm p us) :
    ∃ t, Statement (m₀ + 1) t us (.forLoop i c n s) (fi ++ (fc ++ (fn ++ fs))) := by
  obtain ⟨k, l, semi, r, hk, hl, hsemi, hr⟩ := hform
  obtain ⟨t, hs⟩ := hp.body
  exact ⟨t, .forLoop k hk (.mk l semi r hl hp.init hp.cond hsemi hp.incr hr hs)⟩

/-- Where the block is parsed as a statement, so is the loop with clauses. -/
theorem Reads.exchanged {ws us post : List Token} {size : Nat} (hw : WhileForm p ws)
    (hf : ForForm p us) (hpost : Stops (· == .kwElse) post) (hsize : (us ++ post).length ≤ size)
    {j : Nat} {r₀ : Array Problem} {s₁ : Progress}
    (h : statement size j ⟨ws ++ post, r₀⟩ = .ok y s₁) :
    ∃ fl fl', fl.size = fl'.size ∧ s₁ = ⟨post, r₀ ++ fl⟩ ∧
      ∀ r₀', statement size j ⟨us ++ post, r₀'⟩ = .ok y ⟨post, r₀' ++ fl'⟩ := by
  obtain ⟨t, ts, fl, htook, hread, -⟩ := (declaration_statement_sound size j).2 _ _ _ h
  obtain ⟨m, rfl, hreads, rfl, rfl, hrest⟩ := Reads.of_while hp hw hread htook.rest.symm
  obtain ⟨t', hfor⟩ := Reads.for_form hreads hf
  refine ⟨fi ++ (fc ++ (fs ++ fn)), fi ++ (fc ++ (fn ++ fs)), ?_, ?_, fun r₀' => ?_⟩
  · simp only [Array.size_append]
    omega
  · obtain ⟨rest, reports⟩ := s₁
    exact congr (congrArg _ hrest) htook.reports
  · exact (declaration_statement_complete size (m + 1)).2 _ _ _ _ hfor post r₀' hsize
      fun _ => hpost

end

/-- What has the shape of clauses is read as clauses. -/
theorem Shaped.reads {p : Clauses} (h : p.Shaped) :
    ∃ m i c n s fi fc fn fs, p.Reads m i c n s fi fc fn fs := by
  obtain ⟨_, hinit⟩ := h.init
  obtain ⟨_, hcond⟩ := h.cond
  obtain ⟨_, hincr⟩ := h.incr
  obtain ⟨_, _, hbody⟩ := h.body
  obtain ⟨mi, hinit⟩ := hinit.nearest
  obtain ⟨mc, hcond⟩ := hcond.nearest
  obtain ⟨mn, hincr⟩ := hincr.nearest
  obtain ⟨t, ms, hbody⟩ := hbody.nearest
  obtain ⟨pi⟩ := hinit.nonempty_phrase rfl
  obtain ⟨pc⟩ := hcond.nonempty_phrase rfl
  obtain ⟨pn⟩ := hincr.nonempty_phrase rfl
  obtain ⟨ps⟩ := hbody.nonempty_phrase rfl
  obtain ⟨i, fi, hi, -⟩ := pi.notes
  obtain ⟨c, fc, hc, -⟩ := pc.notes
  obtain ⟨n, fn, hn, -⟩ := pn.notes
  obtain ⟨s, fs, hs, -⟩ := ps.notes
  let m := max (max mi mc) (max mn ms)
  exact ⟨m, i, c, n, s, fi, fc, fn, fs, init_mono hi (by omega), optional_mono hc (by omega),
    optional_mono hn (by omega), statement_mono hs (by omega)⟩

/-- The loop with clauses may be put in place of the block. -/
theorem Shaped.fits {p : Clauses} (h : p.Shaped) {ws us : List Token} (hw : WhileForm p ws)
    (hf : ForForm p us) {X : Exchange} (hold : X.old = ws ++ X.behind)
    (hnew : X.new = us ++ X.behind) (hbehind : Stops (· == .kwElse) X.behind)
    (hsize : X.new.length ≤ X.size) : X.Fits := by
  obtain ⟨m, i, c, n, s, fi, fc, fn, fs, hreads⟩ := h.reads
  intro j r₀ r₀' hr
  rw [hnew] at hsize ⊢
  rw [hold]
  cases hrun : statement X.size j ⟨ws ++ X.behind, r₀⟩ with
  | error => exact .stopped
  | ok y s₁ =>
    obtain ⟨fl, fl', hfl, rfl, hfor⟩ := Reads.exchanged hreads hw hf hbehind hsize hrun
    rw [hfor]
    exact .ok rfl ⟨.refl _ _, by simp only [Array.size_append]; omega⟩

end Clauses

/-! ### The two forms in a program -/

theorem exists_isEof_iff {ts : List Token} : (∃ t ∈ ts, t.isEof = true) ↔ .eof ∈ kinds ts := by
  simp [kinds, Token.isEof]

/-- Only behind a statement there may be an end marker. -/
theorem takeWhile_around {pre us post : List Token} (hpre : .eof ∉ kinds pre)
    (hus : .eof ∉ kinds us) :
    (pre ++ (us ++ post)).takeWhile (!·.isEof) = pre ++ (us ++ post.takeWhile (!·.isEof)) := by
  have hnot {ts : List Token} (h : .eof ∉ kinds ts) : ∀ t ∈ ts, (!t.isEof) = true := by
    simpa [← exists_isEof_iff] using h
  rw [List.takeWhile_append_of_pos (hnot hpre), List.takeWhile_append_of_pos (hnot hus)]

namespace Clauses

variable {is is' cs cs' ns ns' : List Token}

theorem Shaped.derives {p : Clauses} (h : p.Shaped) {us : List Token} (hf : ForForm p us) :
    ∃ n t, Derives .any (.statement t) n (kinds us) := by
  obtain ⟨ni, hinit⟩ := h.init
  obtain ⟨nc, hcond⟩ := h.cond
  obtain ⟨nn, hincr⟩ := h.incr
  obtain ⟨ns, t, hbody⟩ := h.body
  obtain ⟨k, l, semi, r, hk, hl, hsemi, hr⟩ := hf
  let n := max (max ni nc) (max nn ns)
  have hfor := Derives.forLoop (hinit.mono (m := n) (by omega)) (hcond.mono (m := n) (by omega))
    (hincr.mono (m := n) (by omega)) (hbody.mono (m := n) (by omega))
  exact ⟨n + 1, t, by simpa [hk, hl, hsemi, hr] using hfor⟩

theorem Lead.eof_not_mem (h : Lead is is') (his : .eof ∉ kinds is) : .eof ∉ kinds is' := by
  cases h with
  | given => exact his
  | none => simp

theorem Condition.eof_not_mem (h : Condition cs cs') (hcs : .eof ∉ kinds cs) :
    .eof ∉ kinds cs' := by
  cases h with
  | given => exact hcs
  | none t ht => simp [ht]

theorem Increment.eof_not_mem (h : Increment ns ns') (hns : .eof ∉ kinds ns) :
    .eof ∉ kinds ns' := by
  cases h with
  | given semi _ hs => simp [hns, hs]
  | none => simp

/-- No end marker is within the block. -/
theorem Shaped.eof_not_mem {p : Clauses} (h : p.Shaped) {ws : List Token} (hw : WhileForm p ws) :
    .eof ∉ kinds ws := by
  obtain ⟨_, hinit⟩ := h.init
  obtain ⟨_, hcond⟩ := h.cond
  obtain ⟨_, hincr⟩ := h.incr
  obtain ⟨_, _, hbody⟩ := h.body
  obtain ⟨b, k, l, r, b', c', c, hlead, hc, hn, hb, hk, hl, hr, hb', hc', hcc⟩ := hw
  have his := hlead.eof_not_mem hinit.eof_not_mem
  have hcs := hc.eof_not_mem hcond.eof_not_mem
  have hns := hn.eof_not_mem hincr.eof_not_mem
  simp [his, hcs, hns, hbody.eof_not_mem, hb, hk, hl, hr, hb', hc', hcc]

theorem WhileForm.opener {p : Clauses} {ws : List Token} (h : WhileForm p ws) :
    ∃ b others, ws = b :: others ∧ b.kind = .leftBrace := by
  obtain ⟨b, k, l, r, b', c', c, -, -, -, hb, -⟩ := h
  exact ⟨b, _, rfl, hb⟩

theorem ForForm.opener {p : Clauses} {us : List Token} (h : ForForm p us) :
    ∃ k others, us = k :: others ∧ k.kind = .kwFor := by
  obtain ⟨k, l, semi, r, hk, -⟩ := h
  exact ⟨k, _, rfl, hk⟩

/-- With the same tokens around both, the loop with clauses is parsed to the tree of the block. -/
theorem Shaped.parse_for {p : Clauses} (h : p.Shaped) {ws us pre post : List Token} {n : Nat}
    {ss : List Stmt} (hw : WhileForm p ws) (hf : ForForm p us)
    (helse : ∀ t ∈ post.head?, t.kind ≠ .kwElse)
    (hderives : Derives .any .declarations n (kinds (pre ++ (us ++ post.takeWhile (!·.isEof)))))
    (hparse : (Parser.ofTokens (pre ++ (ws ++ post))).parse.1 = .ok ss) :
    (Parser.ofTokens (pre ++ (us ++ post))).parse.1 = .ok ss := by
  have hpre : .eof ∉ kinds pre := fun hmem => hderives.eof_not_mem (by simp [hmem])
  have hus : .eof ∉ kinds us := fun hmem => hderives.eof_not_mem (by simp [hmem])
  have hbehind : Stops (· == .kwElse) (post.takeWhile (!·.isEof)) := by
    cases post with
    | nil => exact Stops.nil _
    | cons t post =>
      rw [List.takeWhile_cons]
      split
      · exact .cons (by simpa using helse t rfl) _
      · exact Stops.nil _
  rw [Parser.parse_eq_ok, takeWhile_around hpre (h.eof_not_mem hw)] at hparse
  rw [Parser.parse_eq_ok, takeWhile_around hpre hus]
  generalize post.takeWhile (!·.isEof) = behind at *
  -- the size that a run is given bounds its rounds, so one that is enough for both programs will do
  obtain ⟨b, others, rfl, hb⟩ := hw.opener
  obtain ⟨k, others', rfl, hk⟩ := hf.opener
  let X : Exchange := {
    size := max (pre ++ b :: (others ++ behind)).length (pre ++ k :: (others' ++ behind)).length
    opener := b, others := others, opener' := k, others' := others', behind := behind
    opens := by rw [hb]; rfl
    opens' := by rw [hk]; rfl
    noBlock := by rw [hk]; decide }
  have hnew : (pre ++ X.new).length ≤ X.size := Nat.le_max_right _ _
  have hsize : X.new.length ≤ X.size := by
    rw [List.length_append] at hnew
    omega
  exact Exchange.declarations_new (h.fits hw hf rfl rfl hbehind hsize) (Nat.le_max_left _ _) hnew
    hparse hderives

end Clauses

/-! ### Tokens at other places -/

/-- Tokens that differ in their places at most. -/
structure Token.Twin (t t' : Token) : Prop where
  kind : t.kind = t'.kind
  lexeme : t.lexeme = t'.lexeme
  value : t.value = t'.value

theorem Token.Twin.refl (t : Token) : t.Twin t := ⟨rfl, rfl, rfl⟩

/-- Parts that differ in the places of their tokens at most. -/
structure Clauses.Twin (p p' : Clauses) : Prop where
  init : List.Forall₂ Token.Twin p.init p'.init
  cond : List.Forall₂ Token.Twin p.cond p'.cond
  incr : List.Forall₂ Token.Twin p.incr p'.incr
  body : List.Forall₂ Token.Twin p.body p'.body

/-- The same loop around the parts at the other places. -/
theorem Clauses.ForForm.twin {p p' : Clauses} {us : List Token} (h : p'.ForForm us)
    (hp : p.Twin p') : ∃ us₀, p.ForForm us₀ ∧ List.Forall₂ Token.Twin us₀ us := by
  obtain ⟨k, l, semi, r, hk, hl, hsemi, hr⟩ := h
  have hend := List.Forall₂.cons (Token.Twin.refl r) hp.body
  have htail := List.Forall₂.cons (Token.Twin.refl semi) (List.rel_append hp.incr hend)
  exact ⟨_, .mk k l semi r hk hl hsemi hr,
    .cons (.refl k) (.cons (.refl l) (List.rel_append hp.init (List.rel_append hp.cond htail)))⟩

theorem kinds_eq_of_twins {ts ts' : List Token} (h : List.Forall₂ Token.Twin ts ts') :
    kinds ts = kinds ts' := by
  induction h with
  | nil => rfl
  | cons ht _ ih => rw [kinds_cons, kinds_cons, ht.kind, ih]

/-- Whichever statement is put between the tokens `pre` and `post`, there is a program. -/
def StatementPlace (pre post : List Token) : Prop :=
  ∀ t n w, Derives .any (.statement t) n w →
    ∃ m, Derives .any .declarations m (kinds pre ++ (w ++ kinds (post.takeWhile (!·.isEof))))

/-- A loop with clauses means the block with a `while` that it is short for. If both are put between
tokens that are the same but for their places, and no `else` comes behind, the two programs parse to
trees that are the same but for the places of tokens, when they both parse; and when the block
parses where a statement may stand, the loop with clauses does too. -/
theorem forLoop_means_block {p p' : Clauses} {ws us pre pre' post post' : List Token}
    (hp : p.Shaped) (htwin : p.Twin p') (hw : p.WhileForm ws) (hf : p'.ForForm us)
    (hpre : List.Forall₂ Token.Twin pre pre') (hpost : List.Forall₂ Token.Twin post post')
    (helse : ∀ t ∈ post.head?, t.kind ≠ .kwElse) :
    (∀ ss ss', (Parser.ofTokens (pre ++ (ws ++ post))).parse.1 = .ok ss →
      (Parser.ofTokens (pre' ++ (us ++ post'))).parse.1 = .ok ss' →
      List.Forall₂ (Stmt.Like Token.Twin) ss ss') ∧
    (StatementPlace pre post →
      ∀ ss, (Parser.ofTokens (pre ++ (ws ++ post))).parse.1 = .ok ss →
        ∃ ss', (Parser.ofTokens (pre' ++ (us ++ post'))).parse.1 = .ok ss' ∧
          List.Forall₂ (Stmt.Like Token.Twin) ss ss') := by
  let L := Likeness.ofTokens Token.Twin (·.kind) (·.value)
  obtain ⟨us₀, hf₀, hus⟩ := hf.twin htwin
  obtain ⟨n, t, hfor⟩ := hp.derives hf₀
  have hall := List.rel_append hpre (List.rel_append hus hpost)
  have means {m : Nat} {ss : List Stmt}
      (hderives : Derives .any .declarations m (kinds (pre ++ (us₀ ++ post.takeWhile (!·.isEof)))))
      (hparse : (Parser.ofTokens (pre ++ (ws ++ post))).parse.1 = .ok ss) :
      ∃ ss', (Parser.ofTokens (pre' ++ (us ++ post'))).parse.1 = .ok ss' ∧
        List.Forall₂ (Stmt.Like Token.Twin) ss ss' :=
    Parser.parse_like (L := L) hall (hp.parse_for hw hf₀ helse hderives hparse)
  refine ⟨fun ss ss' hparse hparse' => ?_, fun hplace ss hparse => ?_⟩
  · suffices ∃ ss', (Parser.ofTokens (pre' ++ (us ++ post'))).parse.1 = .ok ss' ∧
        List.Forall₂ (Stmt.Like Token.Twin) ss ss' by
      obtain ⟨ss'', hss, hlike⟩ := this
      obtain rfl : ss'' = ss' := Except.ok.inj (hss.symm.trans hparse')
      exact hlike
    by_cases hend : .eof ∈ kinds pre
    · -- neither loop is in sight
      have hend' : .eof ∈ kinds pre' := kinds_eq_of_twins hpre ▸ hend
      rw [Parser.ofTokens_append_right (exists_isEof_iff.mpr hend)] at hparse
      rw [Parser.ofTokens_append_right (exists_isEof_iff.mpr hend')]
      exact Parser.parse_like (L := L) hpre hparse
    · have hread := Parser.parse_eq_ok.mp hparse'
      have hspell := declarations_spell (declaration_statement_spell .any maxNesting).1 _ _ _ hread
      have hkinds := kinds_eq_of_twins (Parser.rest_like (L := L) hall)
      rw [Parser.rest_ofTokens, Parser.rest_ofTokens,
        takeWhile_around hend hfor.eof_not_mem] at hkinds
      exact means (hkinds ▸ hspell) hparse
  · obtain ⟨m, hderives⟩ := hplace t n _ hfor
    rw [← kinds_append, ← kinds_append] at hderives
    exact means hderives hparse

/-- Under an `if`, a loop with an increment alone means the block that the parser makes of it. -/
theorem forLoop_means_block_branch :
    let tok (kind : Kind) (lexeme : String) (n : Nat) : Token := ⟨kind, lexeme, 1, 2 * n, n, .nil⟩
    let a := tok .identifier "a"
    let semi := tok .semicolon ";"
    let p : Clauses := ⟨[semi 4], [], [a 12], [a 10, semi 11]⟩
    let p' : Clauses := ⟨[semi 6], [], [a 8], [a 10, semi 11]⟩
    let ws := [tok .leftBrace "\x7b" 4, tok .kwWhile "while" 5, tok .leftParen "(" 6,
      tok .kwTrue "true" 7, tok .rightParen ")" 8, tok .leftBrace "\x7b" 9, a 10, semi 11, a 12,
      semi 13, tok .rightBrace "\x7d" 14, tok .rightBrace "\x7d" 15]
    let us := [tok .kwFor "for" 4, tok .leftParen "(" 5, semi 6, semi 7, a 8,
      tok .rightParen ")" 9, a 10, semi 11]
    let pre := [tok .kwIf "if" 0, tok .leftParen "(" 1, a 2, tok .rightParen ")" 3]
    let ss : List Stmt := [.branch (.variable (a 2)) (.block [.loop (.literal (.bool true))
      (.block [.expression (.variable (a 10)), .expression (.variable (a 12))])]) none]
    p.Shaped ∧ p.Twin p' ∧ p.WhileForm ws ∧ p'.ForForm us ∧ StatementPlace pre [] ∧
    (Parser.ofTokens (pre ++ (ws ++ []))).parse.1 = .ok ss ∧
    ∃ ss', (Parser.ofTokens (pre ++ (us ++ []))).parse.1 = .ok ss' ∧
      List.Forall₂ (Stmt.Like Token.Twin) ss ss' := by
  intro tok a semi p p' ws us pre ss
  have hname : Derives .any .expression 1 [.identifier] :=
    .expression (.plain (.tighter .disjunction (.tighter .conjunction (.tighter .equality
      (.tighter .comparison (.tighter .term (.tighter .factor (.called (.callee .name)))))))))
  have hshaped : p.Shaped :=
    ⟨⟨0, .initNone⟩, ⟨0, .absent⟩, ⟨1, .present hname⟩, ⟨2, .closed, .effect hname⟩⟩
  have htwin : p.Twin p' :=
    ⟨.cons ⟨rfl, rfl, rfl⟩ .nil, .nil, .cons ⟨rfl, rfl, rfl⟩ .nil,
      .cons (.refl _) (.cons (.refl _) .nil)⟩
  have hlead : Clauses.Lead p.init [] := .none rfl
  have hcond : Clauses.Condition p.cond [tok .kwTrue "true" 7] := .none _ rfl
  have hincr : Clauses.Increment p.incr [a 12, semi 13] :=
    .given (semi 13) (List.cons_ne_nil _ _) rfl
  have hwhile : p.WhileForm ws :=
    .mk (tok .leftBrace "\x7b" 4) (tok .kwWhile "while" 5) (tok .leftParen "(" 6)
      (tok .rightParen ")" 8) (tok .leftBrace "\x7b" 9) (tok .rightBrace "\x7d" 14)
      (tok .rightBrace "\x7d" 15) hlead hcond hincr rfl rfl rfl rfl rfl rfl rfl
  have hfor : p'.ForForm us :=
    .mk (tok .kwFor "for" 4) (tok .leftParen "(" 5) (semi 7) (tok .rightParen ")" 9) rfl rfl rfl rfl
  have hplace : StatementPlace pre [] := by
    intro t n w hw
    have hbranch : Derives .any (.statement .dangling) (n + 2)
        (.kwIf :: .leftParen :: ([.identifier] ++ .rightParen :: w)) :=
      .branch (hname.mono (Nat.le_add_left 1 n)) (hw.mono (Nat.le_succ n))
    have hprogram := Derives.cons (.statement hbranch) (.nil (n := n + 3))
    exact ⟨n + 3, hprogram⟩
  have hparse : (Parser.ofTokens (pre ++ (ws ++ []))).parse.1 = .ok ss := rfl
  have hpre : List.Forall₂ Token.Twin pre pre := List.forall₂_same.mpr fun _ _ => .refl _
  exact ⟨hshaped, htwin, hwhile, hfor, hplace, hparse,
    (forLoop_means_block hshaped htwin hwhile hfor hpre .nil (by simp)).2 hplace ss hparse⟩

end Lox
