import Lox.Proofs.Grammar.Proper
import Lox.Proofs.Run.Rooted

/-!
Which faults there can be. Whatever a program keeps in its frames is as proper as the program
itself, so that a fault shows at a token of the program that fits what is said of it.
-/

namespace Lox
open Parse

/-! ### Documented faults -/

/-- What a fault of some kind says at a token. -/
inductive Documented : FaultKind → Token → String → Prop where
  | name {t : Token} : t.kind = .identifier →
      Documented .name t ("Undefined variable '" ++ t.lexeme ++ "'.")
  | output {t : Token} (reason : String) : t.kind = .kwPrint →
      Documented .io t ("Failed to write output: " ++ reason ++ ".")
  | callee {t : Token} : t.kind = .rightParen → Documented .type t "Can only call functions."
  | arity {t : Token} {expected got : Nat} : t.kind = .rightParen → expected ≠ got →
      expected ≤ 255 → got ≤ 255 → Documented .type t
        ("Expected " ++ Nat.repr expected ++ " arguments but got " ++ Nat.repr got ++ ".")
  | overflow {t : Token} : t.kind = .rightParen → Documented .type t "Stack overflow."
  | sum {t : Token} : t.kind = .plus →
      Documented .type t "Operands must be two numbers or two strings."
  | numbers {t : Token} :
      t.kind ∈ [.minus, .slash, .star, .greater, .greaterEqual, .less, .lessEqual] →
      Documented .type t "Operands must be numbers."
  | number {t : Token} : t.kind = .minus → Documented .type t "Operand must be a number."

/-- A documented fault, at a token among `T`, of an operator that is one. -/
structure Fault.Proper (T : Token → Prop) (f : Fault) : Prop where
  token : T f.token
  documented : Documented f.cause.kind f.token f.message
  binary : f.cause ≠ .notBinary
  unary : f.cause ≠ .notUnary

/-! ### What is kept -/

section
variable {T : Token → Prop} {h : Heap} {x : String} {v : Value} {i : FrameId} {vars : Bindings}

/-- If a value is a function, its body is proper, and it has not too many parameters. -/
def Value.Proper (T : Token → Prop) (v : Value) : Prop :=
  ∀ f, v = .callable (.function f) → f.params.length ≤ maxParameters ∧ ∀ s ∈ f.body, s.Proper T

theorem Value.Proper.of_plain (hv : v.Plain) : v.Proper T := fun f hf => absurd hf (hv f)

theorem Value.Proper.arity {c : Callable} (hc : Value.Proper T (.callable c)) :
    c.arity ≤ maxParameters := by
  cases c with
  | clock => exact Nat.zero_le _
  | function f => exact (hc f rfl).1

/-- All values that are bound in frames are proper. -/
def Heap.Proper (T : Token → Prop) (h : Heap) : Prop :=
  ∀ i x v, h.own? x i = some v → v.Proper T

theorem Heap.Proper.define (hh : h.Proper T) (hv : v.Proper T) : (h.define x v i).Proper T := by
  intro j y w hw
  rcases own?_define_cases hw with rfl | hw
  · exact hv
  · exact hh j y w hw

theorem Heap.Proper.push (hh : h.Proper T) (hvars : ∀ x v, vars.lookup x = some v → v.Proper T) :
    (h.push i vars).2.Proper T := by
  intro j y w hw
  rcases own?_push_cases hw with hw | ⟨-, hw⟩
  · exact hh j y w hw
  · exact hvars y w hw

theorem Heap.Proper.call (hh : h.Proper T) {ps : List Token} {vs : List Value}
    (hvs : ∀ v ∈ vs, v.Proper T) : (h.push i (.ofArguments ps vs)).2.Proper T :=
  hh.push fun _ v hv => hvs v (Bindings.mem_of_lookup_ofArguments hv)

theorem Heap.Proper.start : Heap.start.Proper T := by
  have hsound : Heap.start.Sound fun _ => False := .start
  exact fun i x v hv f hf => (hsound.known i x v hv f hf).2.elim

end

/-! ### By the rules -/

namespace BigStep

/-- Something has ended with a result among `R` or a proper fault, and the frames are proper. -/
inductive Leaves {α : Type} (T : Token → Prop) (R : α → Prop) : Outcome α → Store → Prop where
  | ok {a : α} {σ : Store} : R a → σ.heap.Proper T → Leaves T R (.ok a) σ
  | error {f : Fault} {σ : Store} : f.Proper T → σ.heap.Proper T → Leaves T R (.error f) σ

/-- What a statement returns, if anything, is proper. -/
def ProperFlow (T : Token → Prop) (flow : Flow) : Prop := ∀ v, flow = .returned v → v.Proper T

section
variable {κ : Nat → Option Float} {T : Token → Prop}

theorem Leaves.fault {α β : Type} {R : α → Prop} {R' : β → Prop} {f : Fault} {σ : Store}
    (h : Leaves T R (.error f) σ) : Leaves T R' (.error f) σ := by
  obtain ⟨⟩ | ⟨hf, hσ⟩ := h
  exact .error hf hσ

theorem ProperFlow.next : ProperFlow T .next := fun _ h => nomatch h

theorem ProperFlow.returned {v : Value} (hv : v.Proper T) : ProperFlow T (.returned v) := by
  rintro _ ⟨rfl⟩
  exact hv

/-- A prefix operator applies to any value. -/
theorem not_notUnary {op : Token} {a : Value} (hop : isPrefixOp op.kind = true) :
    ¬Applies op a (.error ⟨.notUnary, op⟩) := by
  intro h
  cases h with
  | notUnary _ hminus hbang =>
    cases hk : op.kind with
    | minus => exact hminus hk
    | bang => exact hbang hk
    | _ =>
      rw [hk] at hop
      cases hop

theorem Applies.proper {op : Token} {a : Value} {r : Outcome Value} {σ : Store}
    (h : Applies op a r) (hT : T op) (hop : isPrefixOp op.kind = true) (hσ : σ.heap.Proper T) :
    Leaves T (Value.Proper T) r σ := by
  cases h with
  | negated x _ => exact .ok (.of_plain (.num _)) hσ
  | notNumber hk _ => exact .error ⟨hT, .number hk, nofun, nofun⟩ hσ
  | falsy | truthy => exact .ok (.of_plain (.bool _)) hσ
  | notUnary a hminus hbang => exact absurd (.notUnary a hminus hbang) (not_notUnary hop)

/-- The arithmetic operators give numbers and truth values. -/
theorem plain_of_arithmetic {k : Kind} {f : Float → Float → Value} (h : arithmetic k = some f)
    (x y : Float) : (f x y).Plain := by
  cases k <;> simp only [arithmetic, Option.some.injEq, reduceCtorEq] at h <;> subst h <;>
    first | exact .num _ | exact .bool _

theorem mem_of_arithmetic {k : Kind} {f : Float → Float → Value} (h : arithmetic k = some f) :
    k ∈ [.minus, .slash, .star, .greater, .greaterEqual, .less, .lessEqual] := by
  cases k <;> simp only [arithmetic, reduceCtorEq] at h <;> decide

/-- A binary operator combines any two values. -/
theorem not_notBinary {op : Token} {a b : Value} (hop : isBinaryOp op.kind = true) :
    ¬Combines op a b (.error ⟨.notBinary, op⟩) := by
  intro h
  cases h with
  | notBinary _ _ heq hne hplus hf =>
    cases hk : op.kind with
    | equalEqual => exact heq hk
    | bangEqual => exact hne hk
    | plus => exact hplus hk
    | minus | slash | star | greater | greaterEqual | less | lessEqual =>
      rw [hk] at hf
      cases hf
    | _ =>
      rw [hk] at hop
      cases hop

theorem Combines.proper {op : Token} {a b : Value} {r : Outcome Value} {σ : Store}
    (h : Combines op a b r) (hT : T op) (hop : isBinaryOp op.kind = true) (hσ : σ.heap.Proper T) :
    Leaves T (Value.Proper T) r σ := by
  cases h with
  | equal | unequal => exact .ok (.of_plain (.bool _)) hσ
  | sum => exact .ok (.of_plain (.num _)) hσ
  | joined => exact .ok (.of_plain (.str _)) hσ
  | notAddable hk _ _ => exact .error ⟨hT, .sum hk, nofun, nofun⟩ hσ
  | numbers x y hf => exact .ok (.of_plain (plain_of_arithmetic hf x y)) hσ
  | notNumbers hf _ => exact .error ⟨hT, .numbers (mem_of_arithmetic hf), nofun, nofun⟩ hσ
  | notBinary a b heq hne hplus hf =>
    exact absurd (.notBinary a b heq hne hplus hf) (not_notBinary hop)

mutual

theorem Evaluates.proper {s d e σ r σ'} : Evaluates κ s d e σ r σ' → e.Proper T →
    σ.heap.Proper T → Leaves T (Value.Proper T) r σ'
  | .literal v, _, hσ => .ok (.of_plain (.toValue v)) hσ
  | .name _ hx, _, hσ => .ok (hσ _ _ _ hx.own) hσ
  | .unbound _ _, .variable hT hk, hσ => .error ⟨hT, .name hk, nofun, nofun⟩ hσ
  | .assign _ he _, .assign _ _ hp, hσ => by
    obtain ⟨hv, hσ⟩ := he.proper hp hσ
    exact .ok hv (hσ.define hv)
  | .assignUnbound _ he _, .assign hT hk hp, hσ => by
    obtain ⟨-, hσ⟩ := he.proper hp hσ
    exact .error ⟨hT, .name hk, nofun, nofun⟩ hσ
  | .assignFault _ he, .assign _ _ hp, hσ => (he.proper hp hσ).fault
  | .unary _ he hop, .unary hT hk hp, hσ => by
    obtain ⟨-, hσ⟩ := he.proper hp hσ
    exact hop.proper hT hk hσ
  | .unaryFault _ he, .unary _ _ hp, hσ => (he.proper hp hσ).fault
  | .binary _ hl hr hop, .binary hpl hT hk hpr, hσ => by
    obtain ⟨-, hσ⟩ := hl.proper hpl hσ
    obtain ⟨-, hσ⟩ := hr.proper hpr hσ
    exact hop.proper hT hk hσ
  | .binaryLeft _ hl, .binary hpl _ _ _, hσ => (hl.proper hpl hσ).fault
  | .binaryRight _ hl hr, .binary hpl _ _ hpr, hσ => by
    obtain ⟨-, hσ⟩ := hl.proper hpl hσ
    exact hr.proper hpr hσ
  | .decided _ hl _, .logical hpl _, hσ => hl.proper hpl hσ
  | .undecided _ hl _ hr, .logical hpl hpr, hσ => by
    obtain ⟨-, hσ⟩ := hl.proper hpl hσ
    exact hr.proper hpr hσ
  | .logicalFault _ hl, .logical hpl _, hσ => hl.proper hpl hσ
  | .grouping he, .grouping hp, hσ => he.proper hp hσ
  | .call _ hf hargs hcall, .call hpf hT hk hlen hpargs, hσ => by
    obtain ⟨hc, hσ⟩ := hf.proper hpf hσ
    obtain ⟨⟨hvs, hlength⟩, hσ⟩ := hargs.proper hpargs hσ
    exact hcall.proper hT hk (hlength ▸ hlen) hc hvs hσ
  | .callee _ hf, .call hpf _ _ _ _, hσ => (hf.proper hpf hσ).fault
  | .arguments _ hf hargs, .call hpf _ _ _ hpargs, hσ => by
    obtain ⟨-, hσ⟩ := hf.proper hpf hσ
    exact (hargs.proper hpargs hσ).fault

theorem EvaluatesAll.proper {s d es σ r σ'} : EvaluatesAll κ s d es σ r σ' →
    (∀ e ∈ es, e.Proper T) → σ.heap.Proper T →
    Leaves T (fun vs => (∀ v ∈ vs, v.Proper T) ∧ vs.length = es.length) r σ'
  | .nil, _, hσ => .ok ⟨nofun, rfl⟩ hσ
  | .cons he hes, hp, hσ => by
    obtain ⟨hpe, hpes⟩ := List.forall_mem_cons.mp hp
    obtain ⟨hv, hσ⟩ := he.proper hpe hσ
    obtain ⟨⟨hvs, hlength⟩, hσ⟩ := hes.proper hpes hσ
    exact .ok ⟨List.forall_mem_cons.mpr ⟨hv, hvs⟩, congrArg (· + 1) hlength⟩ hσ
  | .head he, hp, hσ => (he.proper (List.forall_mem_cons.mp hp).1 hσ).fault
  | .tail he hes, hp, hσ => by
    obtain ⟨hpe, hpes⟩ := List.forall_mem_cons.mp hp
    obtain ⟨-, hσ⟩ := he.proper hpe hσ
    exact (hes.proper hpes hσ).fault

theorem Calls.proper {d paren c vs σ r σ'} : Calls κ d paren c vs σ r σ' → T paren →
    paren.kind = .rightParen → vs.length ≤ maxArguments → c.Proper T → (∀ v ∈ vs, v.Proper T) →
    σ.heap.Proper T → Leaves T (Value.Proper T) r σ'
  | .notCallable _, hT, hk, _, _, _, hσ => .error ⟨hT, .callee hk, nofun, nofun⟩ hσ
  | .wrongArity hne, hT, hk, hlen, hc, _, hσ =>
    .error ⟨hT, .arity hk hne hc.arity hlen, nofun, nofun⟩ hσ
  | .stackOverflow _ _, hT, hk, _, _, _, hσ => .error ⟨hT, .overflow hk, nofun, nofun⟩ hσ
  | .clock _ _, _, _, _, _, _, hσ => .ok (.of_plain (.num _)) hσ
  | .returned _ _ hbody, _, _, _, hc, hvs, hσ => by
    obtain ⟨hv, hσ⟩ := hbody.proper (hc _ rfl).2 (hσ.call hvs)
    exact .ok (hv _ rfl) hσ
  | .finished _ _ hbody, _, _, _, hc, hvs, hσ => by
    obtain ⟨-, hσ⟩ := hbody.proper (hc _ rfl).2 (hσ.call hvs)
    exact .ok (.of_plain .nil) hσ
  | .fault _ _ hbody, _, _, _, hc, hvs, hσ => (hbody.proper (hc _ rfl).2 (hσ.call hvs)).fault

theorem Executes.proper {s d st σ r σ'} : Executes κ s d st σ r σ' → st.Proper T →
    σ.heap.Proper T → Leaves T (ProperFlow T) r σ'
  | .expression he, .expression hp, hσ => by
    obtain ⟨-, hσ⟩ := he.proper hp hσ
    exact .ok .next hσ
  | .expressionFault he, .expression hp, hσ => (he.proper hp hσ).fault
  | .print _ he _, .print _ _ hp, hσ => by
    obtain ⟨-, hσ⟩ := he.proper hp hσ
    exact .ok .next hσ
  | .refused _ he _, .print hT hk hp, hσ => by
    obtain ⟨-, hσ⟩ := he.proper hp hσ
    exact .error ⟨hT, .output _ hk, nofun, nofun⟩ hσ
  | .printFault _ he, .print _ _ hp, hσ => (he.proper hp hσ).fault
  | .var _, _, hσ => .ok .next (hσ.define (.of_plain .nil))
  | .init _ he, .var hp, hσ => by
    obtain ⟨hv, hσ⟩ := he.proper (hp _ rfl) hσ
    exact .ok .next (hσ.define hv)
  | .initFault _ he, .var hp, hσ => (he.proper (hp _ rfl) hσ).fault
  | .function _ _ _, .function hlen hbody, hσ => by
    refine .ok .next (hσ.define ?_)
    rintro _ ⟨rfl⟩
    exact ⟨hlen, hbody⟩
  | .block hbody, .block hp, hσ => hbody.proper hp (hσ.push nofun)
  | .yes hc _ hyes, .branch hpc hp _, hσ => by
    obtain ⟨-, hσ⟩ := hc.proper hpc hσ
    exact hyes.proper hp hσ
  | .no hc _ hno, .branch hpc _ hp, hσ => by
    obtain ⟨-, hσ⟩ := hc.proper hpc hσ
    exact hno.proper (hp _ rfl) hσ
  | .neither hc _, .branch hpc _ _, hσ => by
    obtain ⟨-, hσ⟩ := hc.proper hpc hσ
    exact .ok .next hσ
  | .branchFault hc, .branch hpc _ _, hσ => (hc.proper hpc hσ).fault
  | .loop hloop, .loop hpc hp, hσ => hloop.proper hpc hp hσ
  | .ret _, _, hσ => .ok (.returned (.of_plain .nil)) hσ
  | .retValue _ he, .ret hp, hσ => by
    obtain ⟨hv, hσ⟩ := he.proper (hp _ rfl) hσ
    exact .ok (.returned hv) hσ
  | .retFault _ he, .ret hp, hσ => (he.proper (hp _ rfl) hσ).fault

theorem Repeats.proper {s d c body σ r σ'} : Repeats κ s d c body σ r σ' → c.Proper T →
    body.Proper T → σ.heap.Proper T → Leaves T (ProperFlow T) r σ'
  | .stop hc _, hpc, _, hσ => by
    obtain ⟨-, hσ⟩ := hc.proper hpc hσ
    exact .ok .next hσ
  | .again hc _ hbody hloop, hpc, hp, hσ => by
    obtain ⟨-, hσ⟩ := hc.proper hpc hσ
    obtain ⟨-, hσ⟩ := hbody.proper hp hσ
    exact hloop.proper hpc hp hσ
  | .returned hc _ hbody, hpc, hp, hσ => by
    obtain ⟨-, hσ⟩ := hc.proper hpc hσ
    exact hbody.proper hp hσ
  | .bodyFault hc _ hbody, hpc, hp, hσ => by
    obtain ⟨-, hσ⟩ := hc.proper hpc hσ
    exact hbody.proper hp hσ
  | .testFault hc, hpc, _, hσ => (hc.proper hpc hσ).fault

theorem ExecutesAll.proper {s d ss σ r σ'} : ExecutesAll κ s d ss σ r σ' →
    (∀ st ∈ ss, st.Proper T) → σ.heap.Proper T → Leaves T (ProperFlow T) r σ'
  | .nil, _, hσ => .ok .next hσ
  | .cons hst hss, hp, hσ => by
    obtain ⟨hpst, hpss⟩ := List.forall_mem_cons.mp hp
    obtain ⟨-, hσ⟩ := hst.proper hpst hσ
    exact hss.proper hpss hσ
  | .returned hst, hp, hσ => hst.proper (List.forall_mem_cons.mp hp).1 hσ
  | .fault hst, hp, hσ => hst.proper (List.forall_mem_cons.mp hp).1 hσ

end

end

end BigStep

/-! ### Points -/

namespace Run
open BigStep

/-- What is about to be run is proper, and so are the values of a call. -/
def Work.Proper (T : Token → Prop) : Work → Prop
  | .eval e => e.Proper T
  | .evalAll es => ∀ e ∈ es, e.Proper T
  | .call _ v vs => ∀ w ∈ v :: vs, w.Proper T
  | .clock => True
  | .exec s => s.Proper T
  | .execAll ss => ∀ s ∈ ss, s.Proper T

/-- At a point all that is known of the program is proper. -/
structure Point.Proper (T : Token → Prop) (p : Point) : Prop where
  work : p.work.Proper T
  heap : p.machine.heap.Proper T

variable {T : Token → Prop} {m m₁ : Machine} {n : Nat} {p q : Point}

theorem eval_proper {e : Expr} {v : Value} (h : eval n e m = .ok v m₁) (he : e.Proper T)
    (hm : m.heap.Proper T) : v.Proper T ∧ m₁.heap.Proper T := by
  obtain ⟨hv, hm₁⟩ := (eval_outcome (r := .ok v) h).2.proper he hm
  exact ⟨hv, hm₁⟩

theorem mapM_proper {es : List Expr} {vs : List Value} (h : es.mapM (eval n) m = .ok vs m₁)
    (hes : ∀ e ∈ es, e.Proper T) (hm : m.heap.Proper T) :
    (∀ v ∈ vs, v.Proper T) ∧ m₁.heap.Proper T := by
  obtain ⟨⟨hvs, -⟩, hm₁⟩ := (mapM_outcome (r := .ok vs) h).2.proper hes hm
  exact ⟨hvs, hm₁⟩

theorem exec_proper {s : Stmt} {flow : Flow} (h : exec n s m = .ok flow m₁) (hs : s.Proper T)
    (hm : m.heap.Proper T) : m₁.heap.Proper T := by
  obtain ⟨-, hm₁⟩ := (exec_outcome (r := .ok flow) h).2.proper hs hm
  exact hm₁

theorem Leads.proper (h : Leads p q) (hp : p.Proper T) : q.Proper T := by
  obtain ⟨hw, hm⟩ := hp
  cases h with
  | assign => cases hw with | assign _ _ he => exact ⟨he, hm⟩
  | unary => cases hw with | unary _ _ he => exact ⟨he, hm⟩
  | grouping => cases hw with | grouping he => exact ⟨he, hm⟩
  | left => cases hw with | binary hl _ _ _ => exact ⟨hl, hm⟩
  | right h => cases hw with | binary hl _ _ hr => exact ⟨hr, (eval_proper h hl hm).2⟩
  | decider => cases hw with | logical hl _ => exact ⟨hl, hm⟩
  | undecided h _ => cases hw with | logical hl hr => exact ⟨hr, (eval_proper h hl hm).2⟩
  | callee => cases hw with | call hf _ _ _ _ => exact ⟨hf, hm⟩
  | arguments h => cases hw with | call hf _ _ _ hargs => exact ⟨hargs, (eval_proper h hf hm).2⟩
  | called h hvs =>
    cases hw with
    | call hf _ _ _ hargs =>
      obtain ⟨hv, hm⟩ := eval_proper h hf hm
      obtain ⟨hvs, hm⟩ := mapM_proper hvs hargs hm
      exact ⟨List.forall_mem_cons.mpr ⟨hv, hvs⟩, hm⟩
  | first => exact ⟨(List.forall_mem_cons.mp hw).1, hm⟩
  | others h =>
    obtain ⟨he, hes⟩ := List.forall_mem_cons.mp hw
    exact ⟨hes, (eval_proper h he hm).2⟩
  | body _ _ =>
    obtain ⟨hf, hvs⟩ := List.forall_mem_cons.mp hw
    exact ⟨(hf _ rfl).2, hm.call hvs⟩
  | clock _ => exact ⟨trivial, hm⟩
  | expression => cases hw with | expression he => exact ⟨he, hm⟩
  | print => cases hw with | print _ _ he => exact ⟨he, hm⟩
  | init => cases hw with | var he => exact ⟨he _ rfl, hm⟩
  | ret => cases hw with | ret he => exact ⟨he _ rfl, hm⟩
  | block => cases hw with | block hbody => exact ⟨hbody, hm.push nofun⟩
  | condition => cases hw with | branch hc _ _ => exact ⟨hc, hm⟩
  | yes h _ => cases hw with | branch hc hyes _ => exact ⟨hyes, (eval_proper h hc hm).2⟩
  | no h _ => cases hw with | branch hc _ hno => exact ⟨hno _ rfl, (eval_proper h hc hm).2⟩
  | test => cases hw with | loop hc _ => exact ⟨hc, hm⟩
  | round h _ => cases hw with | loop hc hbody => exact ⟨hbody, (eval_proper h hc hm).2⟩
  | again h _ hs =>
    cases hw with
    | loop hc hbody => exact ⟨.loop hc hbody, exec_proper hs hbody (eval_proper h hc hm).2⟩
  | head => exact ⟨(List.forall_mem_cons.mp hw).1, hm⟩
  | tail hs =>
    obtain ⟨hpst, hpss⟩ := List.forall_mem_cons.mp hw
    exact ⟨hpss, exec_proper hs hpst hm⟩

theorem LeadsOn.proper (h : LeadsOn p q) (hp : p.Proper T) : q.Proper T := by
  induction h with
  | refl => exact hp
  | tail _ hq ih => exact hq.proper ih

end Run
end Lox
