import Lox.Proofs.Run.BigStepComplete
import Lox.Proofs.Run.Site

/-!
The order of a run. Of two parts of one part of a program, one comes to its end before the run comes
to the other. The number of functions made so far never falls, and every declaration that is
executed makes it one larger, so that it tells the executions of declarations apart.
-/

namespace Lox

namespace Run
open BigStep

variable {κ : Nat → Option Float} {s : FrameId} {d : Nat} {σ σ₁ σ₂ : Store}

/-! ### One outcome -/

theorem store_on_inj (h : σ₁.on κ s d = σ₂.on κ s d) : σ₁ = σ₂ := congrArg Machine.store h

/-- What comes to one outcome comes to no other. -/
theorem Eventually.unique {α : Type} {act : Nat → Run α} {m : Machine} {r r' : Outcome α}
    (h : Eventually act m r (σ₁.on κ s d)) (h' : Eventually act m r' (σ₂.on κ s d)) :
    r = r' ∧ σ₁ = σ₂ := by
  obtain ⟨N, hN⟩ := h
  obtain ⟨N', hN'⟩ := h'
  have heq := (hN (max N N') (Nat.le_max_left ..)).symm.trans (hN' _ (Nat.le_max_right ..))
  exact (result_inj.mp heq).imp_right store_on_inj

variable {m m₁ : Machine} {n : Nat}

theorem eval_agrees {e : Expr} {v : Value} {r : Outcome Value} (h : eval n e m = .ok v m₁)
    (he : Evaluates m.clock m.scope m.depth e m.store r σ₁) :
    r = .ok v ∧ m₁ = σ₁.on m.clock m.scope m.depth := by
  obtain ⟨hrestored, hv⟩ := eval_outcome (r := .ok v) h
  obtain ⟨hr, rfl⟩ := (eval_complete he).unique (eval_complete hv)
  exact ⟨hr, hrestored.eq_on⟩

theorem mapM_agrees {es : List Expr} {vs : List Value} {r : Outcome (List Value)}
    (h : es.mapM (eval n) m = .ok vs m₁)
    (he : EvaluatesAll m.clock m.scope m.depth es m.store r σ₁) :
    r = .ok vs ∧ m₁ = σ₁.on m.clock m.scope m.depth := by
  obtain ⟨hrestored, hvs⟩ := mapM_outcome (r := .ok vs) h
  obtain ⟨hr, rfl⟩ := (mapM_complete he).unique (mapM_complete hvs)
  exact ⟨hr, hrestored.eq_on⟩

theorem exec_agrees {st : Stmt} {flow : Flow} {r : Outcome Flow} (h : exec n st m = .ok flow m₁)
    (he : Executes m.clock m.scope m.depth st m.store r σ₁) :
    r = .ok flow ∧ m₁ = σ₁.on m.clock m.scope m.depth := by
  obtain ⟨hrestored, hflow⟩ := exec_outcome (r := .ok flow) h
  obtain ⟨hr, rfl⟩ := (exec_complete he).unique (exec_complete hflow)
  exact ⟨hr, hrestored.eq_on⟩

variable {m₂ : Machine} {n' : Nat}

theorem eval_unique {e : Expr} {v v' : Value} (h : eval n e m = .ok v m₁)
    (h' : eval n' e m = .ok v' m₂) : v = v' ∧ m₁ = m₂ := by
  obtain ⟨hrestored, hv⟩ := eval_outcome (r := .ok v') h'
  obtain ⟨heq, hm⟩ := eval_agrees h hv
  exact ⟨(Except.ok.inj heq).symm, hm.trans hrestored.eq_on.symm⟩

theorem mapM_unique {es : List Expr} {vs vs' : List Value} (h : es.mapM (eval n) m = .ok vs m₁)
    (h' : es.mapM (eval n') m = .ok vs' m₂) : vs = vs' ∧ m₁ = m₂ := by
  obtain ⟨hrestored, hvs⟩ := mapM_outcome (r := .ok vs') h'
  obtain ⟨heq, hm⟩ := mapM_agrees h hvs
  exact ⟨(Except.ok.inj heq).symm, hm.trans hrestored.eq_on.symm⟩

theorem exec_unique {st : Stmt} {flow flow' : Flow} (h : exec n st m = .ok flow m₁)
    (h' : exec n' st m = .ok flow' m₂) : flow = flow' ∧ m₁ = m₂ := by
  obtain ⟨hrestored, hflow⟩ := exec_outcome (r := .ok flow') h'
  obtain ⟨heq, hm⟩ := exec_agrees h hflow
  exact ⟨(Except.ok.inj heq).symm, hm.trans hrestored.eq_on.symm⟩

end Run

/-! ### Functions made -/

namespace BigStep

variable {κ : Nat → Option Float}

mutual

theorem Evaluates.made_le {s d e σ r σ'} : Evaluates κ s d e σ r σ' → σ.made ≤ σ'.made
  | .literal _ | .name _ _ | .unbound _ _ => Nat.le_refl _
  | .assign _ he _ | .assignUnbound _ he _ | .assignFault _ he | .unary _ he _ | .unaryFault _ he
  | .grouping he => he.made_le
  | .binary _ hl hr _ | .binaryRight _ hl hr | .undecided _ hl _ hr =>
    Nat.le_trans hl.made_le hr.made_le
  | .binaryLeft _ hl | .decided _ hl _ | .logicalFault _ hl => hl.made_le
  | .call _ hf hargs hcall => Nat.le_trans hf.made_le (Nat.le_trans hargs.made_le hcall.made_le)
  | .callee _ hf => hf.made_le
  | .arguments _ hf hargs => Nat.le_trans hf.made_le hargs.made_le

theorem EvaluatesAll.made_le {s d es σ r σ'} :
    EvaluatesAll κ s d es σ r σ' → σ.made ≤ σ'.made
  | .nil => Nat.le_refl _
  | .cons he hes | .tail he hes => Nat.le_trans he.made_le hes.made_le
  | .head he => he.made_le

theorem Calls.made_le {d paren v vs σ r σ'} : Calls κ d paren v vs σ r σ' → σ.made ≤ σ'.made
  | .notCallable _ | .wrongArity _ | .stackOverflow _ _ | .clock _ _ => Nat.le_refl _
  | .returned _ _ hbody | .finished _ _ hbody | .fault _ _ hbody => hbody.made_le

theorem Executes.made_le {s d st σ r σ'} : Executes κ s d st σ r σ' → σ.made ≤ σ'.made
  | .expression he | .expressionFault he | .print _ he _ | .refused _ he _ | .printFault _ he
  | .init _ he | .initFault _ he | .retValue _ he | .retFault _ he => he.made_le
  | .var _ | .ret _ => Nat.le_refl _
  | .function _ _ _ => Nat.le_succ _
  | .block hbody => hbody.made_le
  | .yes hc _ hyes => Nat.le_trans hc.made_le hyes.made_le
  | .no hc _ hno => Nat.le_trans hc.made_le hno.made_le
  | .neither hc _ | .branchFault hc => hc.made_le
  | .loop hloop => hloop.made_le

theorem Repeats.made_le {s d c body σ r σ'} : Repeats κ s d c body σ r σ' → σ.made ≤ σ'.made
  | .stop hc _ | .testFault hc => hc.made_le
  | .again hc _ hbody hloop =>
    Nat.le_trans hc.made_le (Nat.le_trans hbody.made_le hloop.made_le)
  | .returned hc _ hbody | .bodyFault hc _ hbody => Nat.le_trans hc.made_le hbody.made_le

theorem ExecutesAll.made_le {s d ss σ r σ'} : ExecutesAll κ s d ss σ r σ' → σ.made ≤ σ'.made
  | .nil => Nat.le_refl _
  | .cons hst hss => Nat.le_trans hst.made_le hss.made_le
  | .returned hst | .fault hst => hst.made_le

end

end BigStep

namespace Run
open BigStep

/-! ### Parts that have ended -/

/-- From a point the run comes to the end of the part, well or with a fault, and leaves `σ`. -/
def Point.Ends (p : Point) (σ : Store) : Prop :=
  let m := p.machine
  match p.work with
  | .eval e => ∃ r, Evaluates m.clock m.scope m.depth e m.store r σ
  | .evalAll es => ∃ r, EvaluatesAll m.clock m.scope m.depth es m.store r σ
  | .call t v vs => ∃ r, Calls m.clock m.depth t v vs m.store r σ
  | .clock => σ = { m.store with ticks := m.ticks + 1 }
  | .exec s => ∃ r, Executes m.clock m.scope m.depth s m.store r σ
  | .execAll ss => ∃ r, ExecutesAll m.clock m.scope m.depth ss m.store r σ

variable {p q r : Point} {σ : Store}

theorem Point.Ends.made_le (h : p.Ends σ) : p.machine.made ≤ σ.made := by
  obtain ⟨work, m, k⟩ := p
  cases work with
  | clock => exact Nat.le_of_eq (congrArg Store.made h).symm
  | eval | evalAll | call | exec | execAll =>
    obtain ⟨o, h⟩ := h
    exact h.made_le

/-- A part that ends, no later than a store. -/
def Point.EndsBy (p : Point) (σ : Store) : Prop := ∃ σ', p.Ends σ' ∧ σ'.made ≤ σ.made

variable {m : Machine} {k : Nat}

theorem evaluates_part {e : Expr} {o : Outcome Value} (hq : Leads ⟨.eval e, m, k⟩ q)
    (h : Evaluates m.clock m.scope m.depth e m.store o σ) : q.EndsBy σ := by
  cases hq with
  | assign =>
    cases h with
    | assign _ he _ | assignUnbound _ he _ | assignFault _ he =>
      exact ⟨_, ⟨_, he⟩, Nat.le_refl _⟩
  | unary =>
    cases h with
    | unary _ he _ | unaryFault _ he => exact ⟨_, ⟨_, he⟩, Nat.le_refl _⟩
  | grouping =>
    cases h with
    | grouping he => exact ⟨_, ⟨_, he⟩, Nat.le_refl _⟩
  | left =>
    cases h with
    | binary _ hl hr _ | binaryRight _ hl hr => exact ⟨_, ⟨_, hl⟩, hr.made_le⟩
    | binaryLeft _ hl => exact ⟨_, ⟨_, hl⟩, Nat.le_refl _⟩
  | right ha =>
    cases h with
    | binary _ hl hr _ | binaryRight _ hl hr =>
      obtain ⟨-, rfl⟩ := eval_agrees ha hl
      exact ⟨_, ⟨_, hr⟩, Nat.le_refl _⟩
    | binaryLeft _ hl => cases (eval_agrees ha hl).1
  | decider =>
    cases h with
    | decided _ hl _ | logicalFault _ hl => exact ⟨_, ⟨_, hl⟩, Nat.le_refl _⟩
    | undecided _ hl _ hr => exact ⟨_, ⟨_, hl⟩, hr.made_le⟩
  | undecided ha hop =>
    cases h with
    | decided _ hl hop' =>
      obtain ⟨⟨⟩, rfl⟩ := eval_agrees ha hl
      exact absurd (decides_iff.mpr hop') hop
    | undecided _ hl _ hr =>
      obtain ⟨-, rfl⟩ := eval_agrees ha hl
      exact ⟨_, ⟨_, hr⟩, Nat.le_refl _⟩
    | logicalFault _ hl => cases (eval_agrees ha hl).1
  | callee =>
    cases h with
    | call _ hf hargs hcall =>
      exact ⟨_, ⟨_, hf⟩, Nat.le_trans hargs.made_le hcall.made_le⟩
    | callee _ hf => exact ⟨_, ⟨_, hf⟩, Nat.le_refl _⟩
    | arguments _ hf hargs => exact ⟨_, ⟨_, hf⟩, hargs.made_le⟩
  | arguments hv =>
    cases h with
    | call _ hf hargs hcall =>
      obtain ⟨-, rfl⟩ := eval_agrees hv hf
      exact ⟨_, ⟨_, hargs⟩, hcall.made_le⟩
    | callee _ hf => cases (eval_agrees hv hf).1
    | arguments _ hf hargs =>
      obtain ⟨-, rfl⟩ := eval_agrees hv hf
      exact ⟨_, ⟨_, hargs⟩, Nat.le_refl _⟩
  | called hv hvs =>
    cases h with
    | call _ hf hargs hcall =>
      obtain ⟨⟨⟩, rfl⟩ := eval_agrees hv hf
      obtain ⟨⟨⟩, rfl⟩ := mapM_agrees hvs hargs
      exact ⟨_, ⟨_, hcall⟩, Nat.le_refl _⟩
    | callee _ hf => cases (eval_agrees hv hf).1
    | arguments _ hf hargs =>
      obtain ⟨-, rfl⟩ := eval_agrees hv hf
      cases (mapM_agrees hvs hargs).1

theorem evaluatesAll_part {es : List Expr} {o : Outcome (List Value)}
    (hq : Leads ⟨.evalAll es, m, k⟩ q)
    (h : EvaluatesAll m.clock m.scope m.depth es m.store o σ) : q.EndsBy σ := by
  cases hq with
  | first =>
    cases h with
    | cons he hes | tail he hes => exact ⟨_, ⟨_, he⟩, hes.made_le⟩
    | head he => exact ⟨_, ⟨_, he⟩, Nat.le_refl _⟩
  | others hv =>
    cases h with
    | cons he hes | tail he hes =>
      obtain ⟨-, rfl⟩ := eval_agrees hv he
      exact ⟨_, ⟨_, hes⟩, Nat.le_refl _⟩
    | head he => cases (eval_agrees hv he).1

theorem calls_part {t : Token} {v : Value} {vs : List Value} {o : Outcome Value}
    (hq : Leads ⟨.call t v vs, m, k⟩ q) (h : Calls m.clock m.depth t v vs m.store o σ) :
    q.EndsBy σ := by
  cases hq with
  | body harity hdepth =>
    cases h with
    | notCallable hv => exact absurd rfl (hv _)
    | wrongArity hne => exact absurd harity hne
    | stackOverflow _ hdepth' => exact absurd hdepth (Nat.not_lt.mpr hdepth')
    | returned _ _ hbody | finished _ _ hbody | fault _ _ hbody =>
      exact ⟨_, ⟨_, hbody⟩, Nat.le_refl _⟩
  | clock hdepth =>
    cases h with
    | notCallable hv => exact absurd rfl (hv _)
    | wrongArity hne => exact absurd rfl hne
    | stackOverflow _ hdepth' => exact absurd hdepth (Nat.not_lt.mpr hdepth')
    | clock _ _ => exact ⟨_, rfl, Nat.le_refl _⟩

theorem executes_part {st : Stmt} {o : Outcome Flow} (hq : Leads ⟨.exec st, m, k⟩ q)
    (h : Executes m.clock m.scope m.depth st m.store o σ) : q.EndsBy σ := by
  cases hq with
  | expression =>
    cases h with
    | expression he | expressionFault he => exact ⟨_, ⟨_, he⟩, Nat.le_refl _⟩
  | print =>
    cases h with
    | print _ he _ | refused _ he _ | printFault _ he => exact ⟨_, ⟨_, he⟩, Nat.le_refl _⟩
  | init =>
    cases h with
    | init _ he | initFault _ he => exact ⟨_, ⟨_, he⟩, Nat.le_refl _⟩
  | ret =>
    cases h with
    | retValue _ he | retFault _ he => exact ⟨_, ⟨_, he⟩, Nat.le_refl _⟩
  | block =>
    cases h with
    | block hbody => exact ⟨_, ⟨_, hbody⟩, Nat.le_refl _⟩
  | condition =>
    cases h with
    | yes hc _ hyes => exact ⟨_, ⟨_, hc⟩, hyes.made_le⟩
    | no hc _ hno => exact ⟨_, ⟨_, hc⟩, hno.made_le⟩
    | neither hc _ | branchFault hc => exact ⟨_, ⟨_, hc⟩, Nat.le_refl _⟩
  | yes hv htrue =>
    cases h with
    | yes hc _ hyes =>
      obtain ⟨-, rfl⟩ := eval_agrees hv hc
      exact ⟨_, ⟨_, hyes⟩, Nat.le_refl _⟩
    | no hc hfalse _ | neither hc hfalse =>
      obtain ⟨⟨⟩, -⟩ := eval_agrees hv hc
      exact absurd hfalse (truthy_iff.mp htrue)
    | branchFault hc => cases (eval_agrees hv hc).1
  | no hv hfalse =>
    cases h with
    | yes hc htrue _ =>
      obtain ⟨⟨⟩, -⟩ := eval_agrees hv hc
      exact absurd (truthy_iff.mpr htrue) hfalse
    | no hc _ hno =>
      obtain ⟨-, rfl⟩ := eval_agrees hv hc
      exact ⟨_, ⟨_, hno⟩, Nat.le_refl _⟩
    | branchFault hc => cases (eval_agrees hv hc).1
  | test =>
    cases h with
    | loop h =>
      cases h with
      | stop hc _ | testFault hc => exact ⟨_, ⟨_, hc⟩, Nat.le_refl _⟩
      | again hc _ hbody hloop =>
        exact ⟨_, ⟨_, hc⟩, Nat.le_trans hbody.made_le hloop.made_le⟩
      | returned hc _ hbody | bodyFault hc _ hbody => exact ⟨_, ⟨_, hc⟩, hbody.made_le⟩
  | round hv htrue =>
    cases h with
    | loop h =>
      cases h with
      | stop hc hfalse =>
        obtain ⟨⟨⟩, -⟩ := eval_agrees hv hc
        exact absurd hfalse (truthy_iff.mp htrue)
      | testFault hc => cases (eval_agrees hv hc).1
      | again hc _ hbody hloop =>
        obtain ⟨-, rfl⟩ := eval_agrees hv hc
        exact ⟨_, ⟨_, hbody⟩, hloop.made_le⟩
      | returned hc _ hbody | bodyFault hc _ hbody =>
        obtain ⟨-, rfl⟩ := eval_agrees hv hc
        exact ⟨_, ⟨_, hbody⟩, Nat.le_refl _⟩
  | again hv htrue hnext =>
    cases h with
    | loop h =>
      cases h with
      | stop hc hfalse =>
        obtain ⟨⟨⟩, -⟩ := eval_agrees hv hc
        exact absurd hfalse (truthy_iff.mp htrue)
      | testFault hc => cases (eval_agrees hv hc).1
      | again hc _ hbody hloop =>
        obtain ⟨-, rfl⟩ := eval_agrees hv hc
        obtain ⟨-, rfl⟩ := exec_agrees hnext hbody
        exact ⟨_, ⟨_, .loop hloop⟩, Nat.le_refl _⟩
      | returned hc _ hbody | bodyFault hc _ hbody =>
        obtain ⟨-, rfl⟩ := eval_agrees hv hc
        cases (exec_agrees hnext hbody).1

theorem executesAll_part {ss : List Stmt} {o : Outcome Flow} (hq : Leads ⟨.execAll ss, m, k⟩ q)
    (h : ExecutesAll m.clock m.scope m.depth ss m.store o σ) : q.EndsBy σ := by
  cases hq with
  | head =>
    cases h with
    | cons hst hss => exact ⟨_, ⟨_, hst⟩, hss.made_le⟩
    | returned hst | fault hst => exact ⟨_, ⟨_, hst⟩, Nat.le_refl _⟩
  | tail hnext =>
    cases h with
    | cons hst hss =>
      obtain ⟨-, rfl⟩ := exec_agrees hnext hst
      exact ⟨_, ⟨_, hss⟩, Nat.le_refl _⟩
    | returned hst | fault hst => cases (exec_agrees hnext hst).1

/-- If a part ends, so does each of its parts, and no later than the whole. -/
theorem Leads.ends (hq : Leads p q) (h : p.Ends σ) : q.EndsBy σ := by
  obtain ⟨work, m, k⟩ := p
  cases work with
  | eval =>
    obtain ⟨o, h⟩ := h
    exact evaluates_part hq h
  | evalAll =>
    obtain ⟨o, h⟩ := h
    exact evaluatesAll_part hq h
  | call =>
    obtain ⟨o, h⟩ := h
    exact calls_part hq h
  | clock => cases hq
  | exec =>
    obtain ⟨o, h⟩ := h
    exact executes_part hq h
  | execAll =>
    obtain ⟨o, h⟩ := h
    exact executesAll_part hq h

theorem LeadsOn.ends (hq : LeadsOn p q) (h : p.Ends σ) : q.EndsBy σ := by
  induction hq with
  | refl => exact ⟨σ, h, Nat.le_refl _⟩
  | tail _ hq ih =>
    obtain ⟨σ₁, hends, hle⟩ := ih
    obtain ⟨σ₂, hends, hle'⟩ := Leads.ends hq hends
    exact ⟨σ₂, hends, Nat.le_trans hle' hle⟩

theorem Leads.made_le (h : Leads p q) : p.machine.made ≤ q.machine.made := by
  cases h with
  | right ha | undecided ha _ | arguments ha | others ha | yes ha _ | no ha _ | round ha _ =>
    exact (eval_outcome (r := .ok _) ha).2.made_le
  | called hf hargs =>
    exact Nat.le_trans (eval_outcome (r := .ok _) hf).2.made_le
      (mapM_outcome (r := .ok _) hargs).2.made_le
  | again hc _ hbody =>
    exact Nat.le_trans (eval_outcome (r := .ok _) hc).2.made_le
      (exec_outcome (r := .ok _) hbody).2.made_le
  | tail hs => exact (exec_outcome (r := .ok _) hs).2.made_le
  | _ => exact Nat.le_refl _

theorem LeadsOn.made_le (h : LeadsOn p q) : p.machine.made ≤ q.machine.made := by
  induction h with
  | refl => exact Nat.le_refl _
  | tail _ hq ih => exact Nat.le_trans ih hq.made_le

/-! ### Before and after -/

/-- Two parts of one part of the program, the second of which starts where the first has ended. -/
def Next (p q : Point) : Prop := ∃ r, Leads r p ∧ Leads r q ∧ p.Ends q.machine.store

/-- A point inside of a part that has ended before the run comes to the part that the other point
is inside of. -/
def Before (p q : Point) : Prop :=
  ∃ p' q', LeadsOn p' p ∧ Relation.TransGen Next p' q' ∧ LeadsOn q' q

section
variable {e : Expr} {es : List Expr} {st : Stmt} {v : Value} {vs : List Value} {flow : Flow}
  {m m₁ : Machine} {k k' n : Nat} {w : Work}

theorem next_of_eval (hp : Leads r ⟨.eval e, m, k⟩) (h : Run.eval n e m = .ok v m₁)
    (hq : Leads r ⟨w, m₁, k'⟩) : Next ⟨.eval e, m, k⟩ ⟨w, m₁, k'⟩ :=
  ⟨r, hp, hq, .ok v, (eval_outcome (r := .ok v) h).2⟩

theorem next_of_mapM (hp : Leads r ⟨.evalAll es, m, k⟩) (h : es.mapM (Run.eval n) m = .ok vs m₁)
    (hq : Leads r ⟨w, m₁, k'⟩) : Next ⟨.evalAll es, m, k⟩ ⟨w, m₁, k'⟩ :=
  ⟨r, hp, hq, .ok vs, (mapM_outcome (r := .ok vs) h).2⟩

theorem next_of_exec (hp : Leads r ⟨.exec st, m, k⟩) (h : Run.exec n st m = .ok flow m₁)
    (hq : Leads r ⟨w, m₁, k'⟩) : Next ⟨.exec st, m, k⟩ ⟨w, m₁, k'⟩ :=
  ⟨r, hp, hq, .ok flow, (exec_outcome (r := .ok flow) h).2⟩

end

/-- The parts of a part come one after the other. -/
theorem Leads.ordered (hp : Leads r p) (hq : Leads r q) :
    p = q ∨ Relation.TransGen Next p q ∨ Relation.TransGen Next q p := by
  have hleft := hp
  have hright := hq
  cases hp with
  | left =>
    cases hq with
    | left => exact .inl rfl
    | right ha => exact .inr (.inl (.single (next_of_eval hleft ha hright)))
  | right ha =>
    cases hq with
    | left => exact .inr (.inr (.single (next_of_eval hright ha hleft)))
    | right ha' =>
      obtain ⟨rfl, rfl⟩ := eval_unique ha ha'
      exact .inl rfl
  | decider =>
    cases hq with
    | decider => exact .inl rfl
    | undecided ha _ => exact .inr (.inl (.single (next_of_eval hleft ha hright)))
  | undecided ha _ =>
    cases hq with
    | decider => exact .inr (.inr (.single (next_of_eval hright ha hleft)))
    | undecided ha' _ =>
      obtain ⟨rfl, rfl⟩ := eval_unique ha ha'
      exact .inl rfl
  | callee =>
    cases hq with
    | callee => exact .inl rfl
    | arguments hf => exact .inr (.inl (.single (next_of_eval hleft hf hright)))
    | called hf hargs =>
      exact .inr (.inl (.head (next_of_eval hleft hf (.arguments hf))
        (.single (next_of_mapM (.arguments hf) hargs hright))))
  | arguments hf =>
    cases hq with
    | callee => exact .inr (.inr (.single (next_of_eval hright hf hleft)))
    | arguments hf' =>
      obtain ⟨rfl, rfl⟩ := eval_unique hf hf'
      exact .inl rfl
    | called hf' hargs =>
      obtain ⟨rfl, rfl⟩ := eval_unique hf hf'
      exact .inr (.inl (.single (next_of_mapM hleft hargs hright)))
  | called hf hargs =>
    cases hq with
    | callee =>
      exact .inr (.inr (.head (next_of_eval hright hf (.arguments hf))
        (.single (next_of_mapM (.arguments hf) hargs hleft))))
    | arguments hf' =>
      obtain ⟨rfl, rfl⟩ := eval_unique hf hf'
      exact .inr (.inr (.single (next_of_mapM hright hargs hleft)))
    | called hf' hargs' =>
      obtain ⟨rfl, rfl⟩ := eval_unique hf hf'
      obtain ⟨rfl, rfl⟩ := mapM_unique hargs hargs'
      exact .inl rfl
  | first =>
    cases hq with
    | first => exact .inl rfl
    | others hv => exact .inr (.inl (.single (next_of_eval hleft hv hright)))
  | others hv =>
    cases hq with
    | first => exact .inr (.inr (.single (next_of_eval hright hv hleft)))
    | others hv' =>
      obtain ⟨rfl, rfl⟩ := eval_unique hv hv'
      exact .inl rfl
  | condition =>
    cases hq with
    | condition => exact .inl rfl
    | yes hv _ | no hv _ => exact .inr (.inl (.single (next_of_eval hleft hv hright)))
  | yes hv htrue =>
    cases hq with
    | condition => exact .inr (.inr (.single (next_of_eval hright hv hleft)))
    | yes hv' _ =>
      obtain ⟨rfl, rfl⟩ := eval_unique hv hv'
      exact .inl rfl
    | no hv' hfalse =>
      obtain ⟨rfl, -⟩ := eval_unique hv hv'
      exact absurd htrue hfalse
  | no hv hfalse =>
    cases hq with
    | condition => exact .inr (.inr (.single (next_of_eval hright hv hleft)))
    | yes hv' htrue =>
      obtain ⟨rfl, -⟩ := eval_unique hv hv'
      exact absurd htrue hfalse
    | no hv' _ =>
      obtain ⟨rfl, rfl⟩ := eval_unique hv hv'
      exact .inl rfl
  | test =>
    cases hq with
    | test => exact .inl rfl
    | round hv _ => exact .inr (.inl (.single (next_of_eval hleft hv hright)))
    | again hv htrue hnext =>
      exact .inr (.inl (.head (next_of_eval hleft hv (.round hv htrue))
        (.single (next_of_exec (.round hv htrue) hnext hright))))
  | round hv _ =>
    cases hq with
    | test => exact .inr (.inr (.single (next_of_eval hright hv hleft)))
    | round hv' _ =>
      obtain ⟨rfl, rfl⟩ := eval_unique hv hv'
      exact .inl rfl
    | again hv' _ hnext =>
      obtain ⟨rfl, rfl⟩ := eval_unique hv hv'
      exact .inr (.inl (.single (next_of_exec hleft hnext hright)))
  | again hv htrue hnext =>
    cases hq with
    | test =>
      exact .inr (.inr (.head (next_of_eval hright hv (.round hv htrue))
        (.single (next_of_exec (.round hv htrue) hnext hleft))))
    | round hv' _ =>
      obtain ⟨rfl, rfl⟩ := eval_unique hv hv'
      exact .inr (.inr (.single (next_of_exec hright hnext hleft)))
    | again hv' _ hnext' =>
      obtain ⟨rfl, rfl⟩ := eval_unique hv hv'
      obtain ⟨-, rfl⟩ := exec_unique hnext hnext'
      exact .inl rfl
  | head =>
    cases hq with
    | head => exact .inl rfl
    | tail hnext => exact .inr (.inl (.single (next_of_exec hleft hnext hright)))
  | tail hnext =>
    cases hq with
    | head => exact .inr (.inr (.single (next_of_exec hright hnext hleft)))
    | tail hnext' =>
      obtain ⟨-, rfl⟩ := exec_unique hnext hnext'
      exact .inl rfl
  | _ =>
    cases hq
    exact .inl rfl

theorem Next.made_le (h : Next p q) : p.machine.made ≤ q.machine.made :=
  have ⟨_, _, _, hends⟩ := h
  hends.made_le

theorem made_le_of_transGen (h : Relation.TransGen Next p q) :
    p.machine.made ≤ q.machine.made := by
  induction h with
  | single h => exact h.made_le
  | tail _ h ih => exact Nat.le_trans ih h.made_le

/-! ### Executions of declarations -/

/-- At the point a declaration is about to be executed, which makes the function. -/
inductive Declares : Point → Closure → Prop where
  | intro {x ps body m k} : Declares ⟨.exec (.function x ps body), m, k⟩
      ⟨m.made, x, ps, body, m.scope⟩

namespace Declares

variable {f g : Closure}

theorem unique (h : Declares p f) (h' : Declares p g) : f = g := by
  cases h
  cases h'
  rfl

theorem id_eq (h : Declares p f) : f.id = p.machine.made := by
  cases h
  rfl

theorem not_leads (h : Declares p f) : ¬Leads p q := by
  cases h
  nofun

/-- Executing a declaration makes one more function. -/
theorem made_lt_of_ends (h : Declares p f) (hends : p.Ends σ) : p.machine.made < σ.made := by
  cases h
  obtain ⟨o, h⟩ := hends
  cases h
  exact Nat.lt_succ_self _

/-- Once a part of the program has ended, the functions that were made in it have been counted. -/
theorem made_lt_of_leadsOn (h : Declares p f) (hp : LeadsOn r p) (hends : r.Ends σ) :
    p.machine.made < σ.made := by
  obtain ⟨σ', hends', hle⟩ := hp.ends hends
  exact Nat.lt_of_lt_of_le (h.made_lt_of_ends hends') hle

theorem made_lt_of_before (h : Declares p f) (hpq : Before p q) :
    p.machine.made < q.machine.made := by
  obtain ⟨p', q', hp, hnext, hq⟩ := hpq
  obtain ⟨p'', ⟨_, _, _, hends⟩, hle⟩ := Relation.TransGen.head'_iff.mp hnext
  have hlast : p''.machine.made ≤ q'.machine.made := by
    rcases Relation.reflTransGen_iff_eq_or_transGen.mp hle with rfl | hle
    · exact Nat.le_refl _
    · exact made_le_of_transGen hle
  exact Nat.lt_of_lt_of_le (h.made_lt_of_leadsOn hp hends) (Nat.le_trans hlast hq.made_le)

/-- Of two executions of declarations in one run, one comes before the other. -/
theorem ordered (hf : Declares p f) (hg : Declares q g) (hp : LeadsOn r p) (hq : LeadsOn r q) :
    p = q ∨ Before p q ∨ Before q p := by
  -- The two ways are the same up to a point; the parts that they go on with are ordered.
  induction hp using Relation.ReflTransGen.head_induction_on with
  | refl =>
    rcases hq.cases_head with rfl | ⟨q', hq', -⟩
    · exact .inl rfl
    · exact absurd hq' hf.not_leads
  | @head r p' hp' hp ih =>
    rcases hq.cases_head with rfl | ⟨q', hq', hq⟩
    · exact absurd hp' hg.not_leads
    · rcases hp'.ordered hq' with rfl | hnext | hnext
      · exact ih hq
      · exact .inr (.inl ⟨p', q', hp, hnext, hq⟩)
      · exact .inr (.inr ⟨q', p', hq, hnext, hp⟩)

end Declares

end Run
end Lox
