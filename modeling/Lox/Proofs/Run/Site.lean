import Lox.Proofs.Run.BigStepComplete
import Lox.Proofs.Run.Point

/-!
Where faults arise. A run that ends with a fault comes to a point whose work faults by itself, once
the parts of it have been run. What such a run leaves behind is what there was at that point: what
has been bound and written by then stays, and nothing more happens.
-/

namespace Lox
namespace Run
open BigStep

/-- The work at a point faults, although no part of it does. The machine is left with `σ`. -/
inductive Faults : Point → Fault → Store → Prop where
  | name {x m k} : Unbound m.heap x.lexeme m.scope →
      Faults ⟨.eval (.variable x), m, k⟩ ⟨.undefinedVariable, x⟩ m.store
  | assign {x e m k n v m₁} : eval n e m = .ok v m₁ → Unbound m₁.heap x.lexeme m₁.scope →
      Faults ⟨.eval (.assign x e), m, k⟩ ⟨.undefinedVariable, x⟩ m₁.store
  | unary {op e m k n a m₁ f} : eval n e m = .ok a m₁ → Applies op a (.error f) →
      Faults ⟨.eval (.unary op e), m, k⟩ f m₁.store
  | binary {l op r m k n a m₁ n' b m₂ f} : eval n l m = .ok a m₁ → eval n' r m₁ = .ok b m₂ →
      Combines op a b (.error f) → Faults ⟨.eval (.binary l op r), m, k⟩ f m₂.store
  | notCallable {t v vs m k} : (∀ c, v ≠ .callable c) →
      Faults ⟨.call t v vs, m, k⟩ ⟨.notCallable, t⟩ m.store
  | wrongArity {t c vs m k} : c.arity ≠ vs.length →
      Faults ⟨.call t (.callable c) vs, m, k⟩ ⟨.wrongArity c.arity vs.length, t⟩ m.store
  | stackOverflow {t c vs m k} : c.arity = vs.length → maxCallDepth ≤ m.depth →
      Faults ⟨.call t (.callable c) vs, m, k⟩ ⟨.stackOverflow, t⟩ m.store
  | print {t e m k n v m₁ ρ out} : eval n e m = .ok v m₁ →
      m₁.out.write (v.text ++ "\n") = (some ρ, out) →
      Faults ⟨.exec (.print t e), m, k⟩ ⟨.output ρ, t⟩ { m₁.store with out }

/-- The run from a point comes to one that faults, with `σ` left. -/
def ComesTo (p : Point) (f : Fault) (σ : Store) : Prop := ∃ q, LeadsOn p q ∧ Faults q f σ

/-- If an outcome is a fault, the run from a point comes to where it arises. -/
def Arises {α : Type} (r : Outcome α) (p : Point) (σ : Store) : Prop :=
  ∀ f, r = .error f → ComesTo p f σ

section
variable {α β : Type} {r : Outcome α} {p q : Point} {f : Fault} {κ : Nat → Option Float}
  {s : FrameId} {d : Nat} {σ σ₁ σ₂ : Store}

namespace Arises

theorem ok {a : α} : Arises (.ok a) p σ := fun _ h => nomatch h

theorem here (h : Faults p f σ) : Arises (.error f : Outcome α) p σ := by
  rintro _ ⟨rfl⟩
  exact ⟨p, .refl, h⟩

theorem before (h : Leads p q) (hq : Arises r q σ) : Arises r p σ := by
  intro f hf
  obtain ⟨q', hq', hfaults⟩ := hq f hf
  exact ⟨q', .head h hq', hfaults⟩

/-- A fault of a part is one of the whole. -/
theorem within (h : Leads p q) (hq : Arises (.error f : Outcome β) q σ) :
    Arises (.error f : Outcome α) p σ := by
  rintro _ ⟨rfl⟩
  exact before h hq f rfl

end Arises

theorem eval_of_evaluates {e : Expr} {v : Value} (h : Evaluates κ s d e σ (.ok v) σ₁) :
    ∃ n, eval n e (σ.on κ s d) = .ok v (σ₁.on κ s d) := by
  obtain ⟨N, hN⟩ := eval_complete h
  exact ⟨N, hN N (Nat.le_refl N)⟩

theorem exec_of_executes {st : Stmt} {flow : Flow} (h : Executes κ s d st σ (.ok flow) σ₁) :
    ∃ n, exec n st (σ.on κ s d) = .ok flow (σ₁.on κ s d) := by
  obtain ⟨N, hN⟩ := exec_complete h
  exact ⟨N, hN N (Nat.le_refl N)⟩

theorem leads_of_evaluates {e : Expr} {es : List Expr} {t : Token} {v : Value} {vs : List Value}
    (h : Evaluates κ s d e σ (.ok v) σ₁) (hs : EvaluatesAll κ s d es σ₁ (.ok vs) σ₂) (k : Nat) :
    Leads ⟨.eval (.call e t es), σ.on κ s d, k⟩ ⟨.call t v vs, σ₂.on κ s d, k⟩ := by
  obtain ⟨N, hN⟩ := eval_complete h
  obtain ⟨N', hN'⟩ := mapM_complete hs
  exact .called (hN _ (Nat.le_max_left N N')) (hN' _ (Nat.le_max_right N N'))

theorem leads_of_executes {c : Expr} {body : Stmt} {v : Value}
    (h : Evaluates κ s d c σ (.ok v) σ₁) (hv : ¬Falsy v)
    (hbody : Executes κ s d body σ₁ (.ok .next) σ₂) (k : Nat) :
    Leads ⟨.exec (.loop c body), σ.on κ s d, k⟩ ⟨.exec (.loop c body), σ₂.on κ s d, k⟩ := by
  obtain ⟨N, hN⟩ := eval_complete h
  obtain ⟨N', hN'⟩ := exec_complete hbody
  exact .again (hN _ (Nat.le_max_left N N')) (truthy_iff.mpr hv) (hN' _ (Nat.le_max_right N N'))

end

section
variable {κ : Nat → Option Float}

mutual

theorem evaluates_site {s d e σ r σ'} (k : Nat) :
    Evaluates κ s d e σ r σ' → Arises r ⟨.eval e, σ.on κ s d, k⟩ σ'
  | .literal _ | .name _ _ | .assign _ _ _ | .decided _ _ _ => .ok
  | .unbound _ hx => .here (.name hx)
  | .assignUnbound _ he hx => by
    obtain ⟨n, he⟩ := eval_of_evaluates he
    exact .here (.assign he hx)
  | .assignFault _ he => .within .assign (evaluates_site k he)
  | .unary _ he hop => by
    rintro f rfl
    obtain ⟨n, he⟩ := eval_of_evaluates he
    exact ⟨_, .refl, .unary he hop⟩
  | .unaryFault _ he => .within .unary (evaluates_site k he)
  | .binary _ hl hr hop => by
    rintro f rfl
    obtain ⟨n, hl⟩ := eval_of_evaluates hl
    obtain ⟨n', hr⟩ := eval_of_evaluates hr
    exact ⟨_, .refl, .binary hl hr hop⟩
  | .binaryLeft _ hl => .within .left (evaluates_site k hl)
  | .binaryRight _ hl hr => by
    obtain ⟨n, hl⟩ := eval_of_evaluates hl
    exact .within (.right hl) (evaluates_site k hr)
  | .undecided _ hl hop hr => by
    obtain ⟨n, hl⟩ := eval_of_evaluates hl
    exact .before (.undecided hl (mt decides_iff.mp hop)) (evaluates_site k hr)
  | .logicalFault _ hl => .within .decider (evaluates_site k hl)
  | .grouping he => .before .grouping (evaluates_site k he)
  | .call _ hf hargs hcall => .before (leads_of_evaluates hf hargs k) (calls_site s k hcall)
  | .callee _ he => .within .callee (evaluates_site k he)
  | .arguments _ he hargs => by
    obtain ⟨n, he⟩ := eval_of_evaluates he
    exact .within (.arguments he) (evaluatesAll_site k hargs)

theorem evaluatesAll_site {s d es σ r σ'} (k : Nat) :
    EvaluatesAll κ s d es σ r σ' → Arises r ⟨.evalAll es, σ.on κ s d, k⟩ σ'
  | .nil | .cons _ _ => .ok
  | .head he => .within .first (evaluates_site k he)
  | .tail he hes => by
    obtain ⟨n, he⟩ := eval_of_evaluates he
    exact .within (.others he) (evaluatesAll_site k hes)

theorem calls_site {d t c vs σ r σ'} (s : FrameId) (k : Nat) :
    Calls κ d t c vs σ r σ' → Arises r ⟨.call t c vs, σ.on κ s d, k⟩ σ'
  | .clock _ _ | .returned _ _ _ | .finished _ _ _ => .ok
  | .notCallable hc => .here (.notCallable hc)
  | .wrongArity hne => .here (.wrongArity hne)
  | .stackOverflow harity hd => .here (.stackOverflow harity hd)
  | .fault harity hd hbody => .within (.body harity hd) (executesAll_site (k + 1) hbody)

theorem executes_site {s d st σ r σ'} (k : Nat) :
    Executes κ s d st σ r σ' → Arises r ⟨.exec st, σ.on κ s d, k⟩ σ'
  | .expression _ | .print _ _ _ | .var _ | .init _ _ | .function _ _ _ | .neither _ _ | .ret _
  | .retValue _ _ => .ok
  | .expressionFault he => .within .expression (evaluates_site k he)
  | .refused _ he hout => by
    obtain ⟨n, he⟩ := eval_of_evaluates he
    exact .here (.print he hout)
  | .printFault _ he => .within .print (evaluates_site k he)
  | .initFault _ he => .within .init (evaluates_site k he)
  | .block hbody => .before .block (executesAll_site k hbody)
  | .yes hc htrue hyes => by
    obtain ⟨n, hc⟩ := eval_of_evaluates hc
    exact .before (.yes hc (truthy_iff.mpr htrue)) (executes_site k hyes)
  | .no hc hfalse hno => by
    obtain ⟨n, hc⟩ := eval_of_evaluates hc
    exact .before (.no hc (not_truthy_iff.mpr hfalse)) (executes_site k hno)
  | .branchFault hc => .within .condition (evaluates_site k hc)
  | .loop hloop => repeats_site k hloop
  | .retFault _ he => .within .ret (evaluates_site k he)

theorem repeats_site {s d c body σ r σ'} (k : Nat) :
    Repeats κ s d c body σ r σ' → Arises r ⟨.exec (.loop c body), σ.on κ s d, k⟩ σ'
  | .stop _ _ | .returned _ _ _ => .ok
  | .again hc htrue hbody hloop =>
    .before (leads_of_executes hc htrue hbody k) (repeats_site k hloop)
  | .bodyFault hc htrue hbody => by
    obtain ⟨n, hc⟩ := eval_of_evaluates hc
    exact .within (.round hc (truthy_iff.mpr htrue)) (executes_site k hbody)
  | .testFault hc => .within .test (evaluates_site k hc)

theorem executesAll_site {s d ss σ r σ'} (k : Nat) :
    ExecutesAll κ s d ss σ r σ' → Arises r ⟨.execAll ss, σ.on κ s d, k⟩ σ'
  | .nil | .returned _ => .ok
  | .cons hst hss => by
    obtain ⟨n, hst⟩ := exec_of_executes hst
    exact .before (.tail hst) (executesAll_site k hss)
  | .fault hst => .within .head (executes_site k hst)

end

end

/-- Statements that end with a fault come to the point where it arises, and leave what was there. -/
theorem sequence_site {n : Nat} {ss : List Stmt} {m m' : Machine} {f : Fault}
    (h : sequence (exec n) ss m = .error (.fault f) m') (k : Nat) :
    ComesTo ⟨.execAll ss, m, k⟩ f m'.store :=
  executesAll_site k (sequence_outcome (r := .error f) h).2 f rfl

end Run

/-- At the end of a run only what lasts can have changed. -/
theorem Machine.Restored.eq_on {m m' : Machine} (h : m.Restored m') :
    m' = m'.store.on m.clock m.scope m.depth := by
  rw [← h.clock, ← h.scope, ← h.depth]
  rfl

end Lox
