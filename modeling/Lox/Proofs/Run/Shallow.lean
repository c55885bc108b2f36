import Lox.Proofs.Run.Site

/-!
The number of calls under way matters through overflow alone. Nothing in a program catches a fault,
so what does not end with an overflow has none in any of its parts, and every call in it would have
been allowed with fewer others under way as well.
-/

namespace Lox
namespace BigStep

/-- An outcome other than an overflow. -/
def NoOverflow {α : Type} (r : Outcome α) : Prop := ∀ f, r = .error f → f.cause ≠ .stackOverflow

theorem NoOverflow.ok {α : Type} {a : α} : NoOverflow (.ok a : Outcome α) := fun _ h => nomatch h

/-- A fault that is passed on is the same fault. -/
theorem NoOverflow.passed {α β : Type} {f : Fault} (h : NoOverflow (.error f : Outcome α)) :
    NoOverflow (.error f : Outcome β) := by
  rintro _ ⟨rfl⟩
  exact h f rfl

section
variable {κ : Nat → Option Float}

mutual

/-- What is evaluated without an overflow is evaluated alike with fewer calls under way. -/
theorem Evaluates.shallower {s d d' e σ r σ'} : Evaluates κ s d e σ r σ' → d' ≤ d → NoOverflow r →
    Evaluates κ s d' e σ r σ'
  | .literal v, _, _ => .literal v
  | .name x hx, _, _ => .name x hx
  | .unbound x hx, _, _ => .unbound x hx
  | .assign x he hx, hd, _ => .assign x (he.shallower hd .ok) hx
  | .assignUnbound x he hx, hd, _ => .assignUnbound x (he.shallower hd .ok) hx
  | .assignFault x he, hd, hr => .assignFault x (he.shallower hd hr)
  | .unary op he hop, hd, _ => .unary op (he.shallower hd .ok) hop
  | .unaryFault op he, hd, hr => .unaryFault op (he.shallower hd hr)
  | .binary op hl hr hop, hd, _ => .binary op (hl.shallower hd .ok) (hr.shallower hd .ok) hop
  | .binaryLeft op hl, hd, hr => .binaryLeft op (hl.shallower hd hr)
  | .binaryRight op hl hright, hd, hr =>
    .binaryRight op (hl.shallower hd .ok) (hright.shallower hd hr)
  | .decided op hl hop, hd, _ => .decided op (hl.shallower hd .ok) hop
  | .undecided op hl hop hright, hd, hr =>
    .undecided op (hl.shallower hd .ok) hop (hright.shallower hd hr)
  | .logicalFault op hl, hd, hr => .logicalFault op (hl.shallower hd hr)
  | .grouping he, hd, hr => .grouping (he.shallower hd hr)
  | .call paren hf hargs hcall, hd, hr =>
    .call paren (hf.shallower hd .ok) (hargs.shallower hd .ok) (hcall.shallower hd hr)
  | .callee paren hf, hd, hr => .callee paren (hf.shallower hd hr)
  | .arguments paren hf hargs, hd, hr =>
    .arguments paren (hf.shallower hd .ok) (hargs.shallower hd hr.passed)

theorem EvaluatesAll.shallower {s d d' es σ r σ'} : EvaluatesAll κ s d es σ r σ' → d' ≤ d →
    NoOverflow r → EvaluatesAll κ s d' es σ r σ'
  | .nil, _, _ => .nil
  | .cons he hes, hd, _ => .cons (he.shallower hd .ok) (hes.shallower hd .ok)
  | .head he, hd, hr => .head (he.shallower hd hr.passed)
  | .tail he hes, hd, hr => .tail (he.shallower hd .ok) (hes.shallower hd hr)

theorem Calls.shallower {d d' paren v vs σ r σ'} : Calls κ d paren v vs σ r σ' → d' ≤ d →
    NoOverflow r → Calls κ d' paren v vs σ r σ'
  | .notCallable hv, _, _ => .notCallable hv
  | .wrongArity harity, _, _ => .wrongArity harity
  -- the only rule that asks for many calls under way, rather than for few
  | .stackOverflow _ _, _, hr => absurd rfl (hr _ rfl)
  | .clock hlt hx, hd, _ => .clock (Nat.lt_of_le_of_lt hd hlt) hx
  | .returned harity hlt hbody, hd, _ =>
    .returned harity (Nat.lt_of_le_of_lt hd hlt) (hbody.shallower (Nat.succ_le_succ hd) .ok)
  | .finished harity hlt hbody, hd, _ =>
    .finished harity (Nat.lt_of_le_of_lt hd hlt) (hbody.shallower (Nat.succ_le_succ hd) .ok)
  | .fault harity hlt hbody, hd, hr =>
    .fault harity (Nat.lt_of_le_of_lt hd hlt) (hbody.shallower (Nat.succ_le_succ hd) hr.passed)

theorem Executes.shallower {s d d' st σ r σ'} : Executes κ s d st σ r σ' → d' ≤ d → NoOverflow r →
    Executes κ s d' st σ r σ'
  | .expression he, hd, _ => .expression (he.shallower hd .ok)
  | .expressionFault he, hd, hr => .expressionFault (he.shallower hd hr.passed)
  | .print k he hout, hd, _ => .print k (he.shallower hd .ok) hout
  | .refused k he hout, hd, _ => .refused k (he.shallower hd .ok) hout
  | .printFault k he, hd, hr => .printFault k (he.shallower hd hr.passed)
  | .var x, _, _ => .var x
  | .init x he, hd, _ => .init x (he.shallower hd .ok)
  | .initFault x he, hd, hr => .initFault x (he.shallower hd hr.passed)
  | .function x ps body, _, _ => .function x ps body
  | .block hbody, hd, hr => .block (hbody.shallower hd hr)
  | .yes hc htrue hyes, hd, hr => .yes (hc.shallower hd .ok) htrue (hyes.shallower hd hr)
  | .no hc hfalse hno, hd, hr => .no (hc.shallower hd .ok) hfalse (hno.shallower hd hr)
  | .neither hc hfalse, hd, _ => .neither (hc.shallower hd .ok) hfalse
  | .branchFault hc, hd, hr => .branchFault (hc.shallower hd hr.passed)
  | .loop hloop, hd, hr => .loop (hloop.shallower hd hr)
  | .ret k, _, _ => .ret k
  | .retValue k he, hd, _ => .retValue k (he.shallower hd .ok)
  | .retFault k he, hd, hr => .retFault k (he.shallower hd hr.passed)

theorem Repeats.shallower {s d d' c body σ r σ'} : Repeats κ s d c body σ r σ' → d' ≤ d →
    NoOverflow r → Repeats κ s d' c body σ r σ'
  | .stop hc hfalse, hd, _ => .stop (hc.shallower hd .ok) hfalse
  | .again hc htrue hbody hloop, hd, hr =>
    .again (hc.shallower hd .ok) htrue (hbody.shallower hd .ok) (hloop.shallower hd hr)
  | .returned hc htrue hbody, hd, hr =>
    .returned (hc.shallower hd .ok) htrue (hbody.shallower hd hr)
  | .bodyFault hc htrue hbody, hd, hr =>
    .bodyFault (hc.shallower hd .ok) htrue (hbody.shallower hd hr)
  | .testFault hc, hd, hr => .testFault (hc.shallower hd hr.passed)

theorem ExecutesAll.shallower {s d d' ss σ r σ'} : ExecutesAll κ s d ss σ r σ' → d' ≤ d →
    NoOverflow r → ExecutesAll κ s d' ss σ r σ'
  | .nil, _, _ => .nil
  | .cons hst hss, hd, hr => .cons (hst.shallower hd .ok) (hss.shallower hd hr)
  | .returned hst, hd, hr => .returned (hst.shallower hd hr)
  | .fault hst, hd, hr => .fault (hst.shallower hd hr)

end

end

end BigStep

/-! ### Runs -/

open BigStep Run

/-- The machine with `d` calls under way. -/
def Machine.atDepth (m : Machine) (d : Nat) : Machine := { m with depth := d }

theorem Machine.Restored.atDepth {m m' : Machine} (h : m.Restored m') (d : Nat) :
    m'.store.on m.clock m.scope d = m'.atDepth d := by
  rw [← h.clock, ← h.scope]
  rfl

/-- Depth only matters through overflow. Whatever an expression, a statement or a call comes to, if
it is no overflow, it comes to it with fewer calls under way as well, once it is granted enough
steps, and leaves the same machine but for the depth. -/
theorem Machine.runs_shallower (m : Machine) (d : Nat) (hd : d ≤ m.depth) :
    (∀ n e r m', eval n e m = result r m' → NoOverflow r →
      ∃ N, ∀ n', N ≤ n' → eval n' e (m.atDepth d) = result r (m'.atDepth d)) ∧
    (∀ n s r m', exec n s m = result r m' → NoOverflow r →
      ∃ N, ∀ n', N ≤ n' → exec n' s (m.atDepth d) = result r (m'.atDepth d)) ∧
    (∀ n t v vs r m', call (exec n) t v vs m = result r m' → NoOverflow r →
      ∃ N, ∀ n', N ≤ n' → call (exec n') t v vs (m.atDepth d) = result r (m'.atDepth d)) := by
  refine ⟨fun n e r m' h hr => ?_, fun n s r m' h hr => ?_, fun n t v vs r m' h hr => ?_⟩
  · obtain ⟨hrestored, hjudged⟩ := eval_outcome h
    rw [← hrestored.atDepth]
    exact eval_complete (hjudged.shallower hd hr)
  · obtain ⟨hrestored, hjudged⟩ := exec_outcome h
    rw [← hrestored.atDepth]
    exact exec_complete (hjudged.shallower hd hr)
  · obtain ⟨hrestored, hjudged⟩ := call_outcome h
    rw [← hrestored.atDepth]
    exact call_complete (hjudged.shallower hd hr)

/-- A function gives the clock in the last call that is allowed, so it does with none around it. -/
theorem Machine.runs_shallower_clock :
    let clock : Token := ⟨.identifier, "clock", 1, 17, 6, .nil⟩
    let paren : Token := ⟨.rightParen, ")", 1, 23, 8, .nil⟩
    let body : List Stmt := [.ret ⟨.kwReturn, "return", 1, 10, 5, .nil⟩ (some (.variable clock))]
    let f : Closure := ⟨0, ⟨.identifier, "f", 1, 4, 1, .nil⟩, [], body, Heap.globals⟩
    let m : Machine := { Machine.start (fun _ => 0) .unlimited with depth := maxCallDepth - 1 }
    0 ≤ m.depth ∧ ∃ m' N, ∀ n, N ≤ n →
      call (exec n) paren (.callable (.function f)) [] (m.atDepth 0) =
        result (.ok (.callable .clock)) m' := by
  intro clock paren body f m
  have hrun : call (exec 2) paren (.callable (.function f)) [] m =
      result (.ok (.callable .clock)) _ := rfl
  obtain ⟨-, -, hcalls⟩ := Machine.runs_shallower m 0 (Nat.zero_le _)
  exact ⟨Nat.zero_le _, _, hcalls _ _ _ _ _ _ hrun .ok⟩

end Lox
