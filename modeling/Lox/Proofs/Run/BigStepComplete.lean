import Lox.Proofs.Run.BigStepSound

/-!
Every outcome that a program has is what its runs come to, once they are granted enough steps. The
proof follows the derivation of the outcome, with one case for each rule.
-/

namespace Lox.Run
open BigStep

variable {α β : Type} {κ : Nat → Option Float} {m m₁ m₂ : Machine} {r : Outcome α}

/-- With any number of steps that is large enough, `act` has the outcome `r`. -/
def Eventually (act : Nat → Run α) (m : Machine) (r : Outcome α) (m' : Machine) : Prop :=
  ∃ N, ∀ n, N ≤ n → act n m = result r m'

namespace Eventually

theorem always {act : Nat → Run α} (h : ∀ n, act n m = result r m₁) : Eventually act m r m₁ :=
  ⟨0, fun n _ => h n⟩

theorem of_eq {act act' : Nat → Run α} (heq : ∀ n, act n m = act' n m)
    (h : Eventually act' m r m₁) : Eventually act m r m₁ := by
  obtain ⟨N, h⟩ := h
  exact ⟨N, fun n hn => (heq n).trans (h n hn)⟩

theorem bind {x : Nat → Run β} {f : Nat → β → Run α} {b : β} (hx : Eventually x m (.ok b) m₁)
    (hf : Eventually (fun n => f n b) m₁ r m₂) : Eventually (fun n => x n >>= f n) m r m₂ := by
  obtain ⟨N, hx⟩ := hx
  obtain ⟨N', hf⟩ := hf
  refine ⟨max N N', fun n hn => ?_⟩
  obtain ⟨hn, hn'⟩ := Nat.max_le.mp hn
  exact (Step.bind_of_ok (hx n hn) (f n)).trans (hf n hn')

theorem bind_fault {x : Nat → Run β} {f : Nat → β → Run α} {e : Fault}
    (hx : Eventually x m (.error e) m₁) : Eventually (fun n => x n >>= f n) m (.error e) m₁ := by
  obtain ⟨N, hx⟩ := hx
  exact ⟨N, fun n hn => Step.bind_of_error (hx n hn) (f n)⟩

theorem eval {e : Expr} {r : Outcome Value}
    (h : Eventually (fun n => exprStep (eval n) (exec n) e) m r m₁) :
    Eventually (Run.eval · e) m r m₁ := by
  obtain ⟨N, h⟩ := h
  refine ⟨N + 1, fun n hn => ?_⟩
  obtain ⟨n, rfl⟩ := Nat.exists_eq_add_of_le' (Nat.le_trans (Nat.le_add_left 1 N) hn)
  exact (congrFun (eval_succ n e) m).trans (h n (Nat.le_of_succ_le_succ hn))

theorem exec {st : Stmt} {r : Outcome Flow}
    (h : Eventually (fun n => stmtStep n (Run.eval n) (exec n) st) m r m₁) :
    Eventually (Run.exec · st) m r m₁ := by
  obtain ⟨N, h⟩ := h
  refine ⟨N + 1, fun n hn => ?_⟩
  obtain ⟨n, rfl⟩ := Nat.exists_eq_add_of_le' (Nat.le_trans (Nat.le_add_left 1 N) hn)
  exact (congrFun (exec_succ n st) m).trans (h n (Nat.le_of_succ_le_succ hn))

theorem inFrame {act : Nat → Run α} {σ σ' : Store} {s : FrameId} {d : Nat} {outer : FrameId}
    {vars : Bindings}
    (h : Eventually act ((σ.within outer vars).on κ σ.fresh d) r (σ'.on κ σ.fresh d)) :
    Eventually (fun n => inFrame outer vars (act n)) (σ.on κ s d) r (σ'.on κ s d) := by
  obtain ⟨N, h⟩ := h
  exact ⟨N, fun n hn => inFrame_result.mpr ⟨_, h n hn, rfl⟩⟩

theorem deeper {act : Nat → Run α} {σ σ' : Store} {s : FrameId} {d : Nat}
    (h : Eventually act (σ.on κ s (d + 1)) r (σ'.on κ s (d + 1))) :
    Eventually (fun n => deeper (act n)) (σ.on κ s d) r (σ'.on κ s d) := by
  obtain ⟨N, h⟩ := h
  exact ⟨N, fun n hn => deeper_result.mpr ⟨_, h n hn, rfl⟩⟩

end Eventually

/-- With enough steps for the parts and enough rounds, a loop has the outcome `r`. -/
def EventuallyRepeats (c : Expr) (body : Stmt) (m : Machine) (r : Outcome Flow) (m' : Machine) :
    Prop :=
  ∃ N, ∀ n k, N ≤ n → N ≤ k → rounds (eval n c) (exec n body) k m = result r m'

namespace EventuallyRepeats

variable {c : Expr} {body : Stmt} {r : Outcome Flow} {v : Value}

/-- The first round decides, once there is one. -/
theorem first {N : Nat}
    (h : ∀ n k, N ≤ n → N ≤ k → rounds (eval n c) (exec n body) (k + 1) m = result r m₁) :
    EventuallyRepeats c body m r m₁ := by
  refine ⟨N + 1, fun n k hn hk => ?_⟩
  obtain ⟨k, rfl⟩ := Nat.exists_eq_add_of_le' (Nat.le_trans (Nat.le_add_left 1 N) hk)
  exact h n k (Nat.le_of_succ_le hn) (Nat.le_of_succ_le_succ hk)

theorem stop (hc : Eventually (eval · c) m (.ok v) m₁) (hv : Falsy v) :
    EventuallyRepeats c body m (.ok .next) m₁ := by
  obtain ⟨N, hc⟩ := hc
  refine first fun n k hn _ => (Step.bind_of_ok (hc n hn) _).trans ?_
  rw [if_neg (not_truthy_iff.mpr hv)]
  rfl

theorem test_fault {e : Fault} (hc : Eventually (eval · c) m (.error e) m₁) :
    EventuallyRepeats c body m (.error e) m₁ := by
  obtain ⟨N, hc⟩ := hc
  exact first fun n k hn _ => Step.bind_of_error (hc n hn) _

theorem again (hc : Eventually (eval · c) m (.ok v) m₁) (hv : ¬Falsy v) {m₃ : Machine}
    (hbody : Eventually (exec · body) m₁ (.ok .next) m₂) (h : EventuallyRepeats c body m₂ r m₃) :
    EventuallyRepeats c body m r m₃ := by
  obtain ⟨N, hc⟩ := hc
  obtain ⟨N', hbody⟩ := hbody
  obtain ⟨N'', h⟩ := h
  refine first fun n k (hn : max N (max N' N'') ≤ n) hk => ?_
  simp only [Nat.max_le] at hn hk
  refine (Step.bind_of_ok (hc n hn.1) _).trans ?_
  rw [if_pos (truthy_iff.mpr hv)]
  exact (Step.bind_of_ok (hbody n hn.2.1) _).trans (h n k hn.2.2 hk.2.2)

/-- A `return` or a fault in the body ends the loop. -/
theorem body_ends (hc : Eventually (eval · c) m (.ok v) m₁) (hv : ¬Falsy v)
    (hbody : Eventually (exec · body) m₁ r m₂) (hr : r ≠ .ok .next) :
    EventuallyRepeats c body m r m₂ := by
  obtain ⟨N, hc⟩ := hc
  obtain ⟨N', hbody⟩ := hbody
  refine first fun n k (hn : max N N' ≤ n) _ => ?_
  obtain ⟨hn, hn'⟩ := Nat.max_le.mp hn
  refine (Step.bind_of_ok (hc n hn) _).trans ?_
  rw [if_pos (truthy_iff.mpr hv)]
  match r, hr with
  | .ok (.returned w), _ => exact Step.bind_of_ok (hbody n hn') _
  | .error e, _ => exact Step.bind_of_error (hbody n hn') _

theorem loop (h : EventuallyRepeats c body m r m₁) :
    Eventually (fun n => stmtStep n (eval n) (exec n) (.loop c body)) m r m₁ := by
  obtain ⟨N, h⟩ := h
  exact ⟨N, fun n hn => h n n hn hn⟩

end EventuallyRepeats

mutual

theorem eval_complete {s d e σ r σ'} : Evaluates κ s d e σ r σ' →
    Eventually (eval · e) (σ.on κ s d) r (σ'.on κ s d)
  | .literal v => .eval (.always fun _ => rfl)
  | .name x hx => .eval (.always fun _ => readName_bound hx)
  | .unbound x hx => .eval (.always fun _ => readName_unbound hx)
  | .assign x he hx => .eval <| (eval_complete he).bind <|
      .bind (.always fun _ => assign_bound hx) (.always fun _ => rfl)
  | .assignUnbound x he hx => .eval <| (eval_complete he).bind <|
      .bind_fault (.always fun _ => assign_unbound hx)
  | .assignFault x he => .eval (eval_complete he).bind_fault
  | .unary op he hop => .eval <| (eval_complete he).bind <| .always fun _ => unary_applies hop
  | .unaryFault op he => .eval (eval_complete he).bind_fault
  | .binary op hl hr hop => .eval <| (eval_complete hl).bind <| (eval_complete hr).bind <|
      .always fun _ => binary_combines hop
  | .binaryLeft op hl => .eval (eval_complete hl).bind_fault
  | .binaryRight op hl hr => .eval <| (eval_complete hl).bind (eval_complete hr).bind_fault
  | .decided op hl hop => .eval <| (eval_complete hl).bind <| .always fun _ => by
      rw [if_pos (decides_iff.mpr hop)]
      rfl
  | .undecided op hl hop hr => .eval <| (eval_complete hl).bind <| by
      simp only [if_neg (mt decides_iff.mp hop)]
      exact eval_complete hr
  | .logicalFault op hl => .eval (eval_complete hl).bind_fault
  | .grouping he => .eval (eval_complete he)
  | .call paren hf hargs hcall => .eval <| (eval_complete hf).bind <|
      (mapM_complete hargs).bind (call_complete hcall)
  | .callee paren hf => .eval (eval_complete hf).bind_fault
  | .arguments paren hf hargs => .eval <| (eval_complete hf).bind (mapM_complete hargs).bind_fault

theorem mapM_complete {s d es σ r σ'} : EvaluatesAll κ s d es σ r σ' →
    Eventually (fun n => es.mapM (eval n)) (σ.on κ s d) r (σ'.on κ s d)
  | .nil => .always fun _ => rfl
  | .cons he hes => by
    simp only [List.mapM_cons]
    exact (eval_complete he).bind ((mapM_complete hes).bind (.always fun _ => rfl))
  | .head he => by
    simp only [List.mapM_cons]
    exact (eval_complete he).bind_fault
  | .tail he hes => by
    simp only [List.mapM_cons]
    exact (eval_complete he).bind (mapM_complete hes).bind_fault

theorem call_complete {s d paren v vs σ r σ'} : Calls κ d paren v vs σ r σ' →
    Eventually (fun n => call (exec n) paren v vs) (σ.on κ s d) r (σ'.on κ s d)
  | .notCallable hv => .always fun _ => by
    rw [call_notCallable hv]
    rfl
  | .wrongArity hlen => .always fun _ => by
    rw [call_wrongArity hlen]
    rfl
  | .stackOverflow hlen hd => .always fun _ => by
    rw [call_stackOverflow hlen hd]
    rfl
  | .clock hd hx =>
    .of_eq (fun _ => call_deeper rfl hd) <|
      .deeper (.always fun _ => tick_result.mpr ⟨_, hx, rfl, rfl⟩)
  | .returned hlen hd hbody | .finished hlen hd hbody =>
    .of_eq (fun _ => call_deeper hlen hd) <| .deeper <|
      .bind (.inFrame (sequence_complete hbody)) (.always fun _ => rfl)
  | .fault hlen hd hbody =>
    .of_eq (fun _ => call_deeper hlen hd) <|
      .deeper <| .bind_fault (.inFrame (sequence_complete hbody))

theorem exec_complete {s d st σ r σ'} : Executes κ s d st σ r σ' →
    Eventually (exec · st) (σ.on κ s d) r (σ'.on κ s d)
  | .expression he => .exec <| (eval_complete he).bind <| .always fun _ => rfl
  | .expressionFault he => .exec (eval_complete he).bind_fault
  | .print k he hout => .exec <| (eval_complete he).bind <|
      .bind (.always fun _ => printLine_written hout) (.always fun _ => rfl)
  | .refused k he hout => .exec <| (eval_complete he).bind <|
      .bind_fault (.always fun _ => printLine_refused hout)
  | .printFault k he => .exec (eval_complete he).bind_fault
  | .var x => .exec (.always fun _ => rfl)
  | .init x he => .exec <| (eval_complete he).bind <| .always fun _ => rfl
  | .initFault x he => .exec (eval_complete he).bind_fault
  | .function x ps body => .exec (.always fun _ => rfl)
  | .block hbody => .exec (.inFrame (sequence_complete hbody))
  | .yes hc htrue hyes => .exec <| (eval_complete hc).bind <| by
      simp only [if_pos (truthy_iff.mpr htrue)]
      exact exec_complete hyes
  | .no hc hfalse hno => .exec <| (eval_complete hc).bind <| by
      simp only [if_neg (not_truthy_iff.mpr hfalse)]
      exact exec_complete hno
  | .neither hc hfalse => .exec <| (eval_complete hc).bind <| by
      simp only [if_neg (not_truthy_iff.mpr hfalse)]
      exact .always fun _ => rfl
  | .branchFault hc => .exec (eval_complete hc).bind_fault
  | .loop hloop => .exec (rounds_complete hloop).loop
  | .ret k => .exec (.always fun _ => rfl)
  | .retValue k he => .exec <| (eval_complete he).bind <| .always fun _ => rfl
  | .retFault k he => .exec (eval_complete he).bind_fault

theorem rounds_complete {s d c body σ r σ'} : Repeats κ s d c body σ r σ' →
    EventuallyRepeats c body (σ.on κ s d) r (σ'.on κ s d)
  | .stop hc hfalse => .stop (eval_complete hc) hfalse
  | .again hc htrue hbody hloop =>
    .again (eval_complete hc) htrue (exec_complete hbody) (rounds_complete hloop)
  | .returned hc htrue hbody => .body_ends (eval_complete hc) htrue (exec_complete hbody) nofun
  | .bodyFault hc htrue hbody => .body_ends (eval_complete hc) htrue (exec_complete hbody) nofun
  | .testFault hc => .test_fault (eval_complete hc)

theorem sequence_complete {s d ss σ r σ'} : ExecutesAll κ s d ss σ r σ' →
    Eventually (fun n => sequence (exec n) ss) (σ.on κ s d) r (σ'.on κ s d)
  | .nil => .always fun _ => rfl
  | .cons hst hss => (exec_complete hst).bind (sequence_complete hss)
  | .returned hst => (exec_complete hst).bind (.always fun _ => rfl)
  | .fault hst => (exec_complete hst).bind_fault

end

end Lox.Run

namespace Lox
open BigStep Run

/-- How a program ends with an outcome. -/
def Ending.ofOutcome : Outcome Unit → Ending
  | .ok _ => .finished
  | .error f => .faulted f

/-- A machine at the start of a program. -/
theorem Machine.run_eq (m : Machine) (n : Nat) (program : List Stmt) :
    m.run n program = match sequence (exec n) program (m.store.on m.clock Heap.globals 0) with
      | .ok _ m => (.finished, m)
      | .error (.fault f) m => (.faulted f, m)
      | .error .exhausted m => (.exhausted, m) := rfl

/-- Whatever a program comes to is an outcome of it. -/
theorem Machine.finishes_of_run {m m' : Machine} {n : Nat} {program : List Stmt} {r : Outcome Unit}
    (h : m.run n program = (Ending.ofOutcome r, m')) :
    ∃ σ, Finishes m.clock program m.store r σ ∧ m' = σ.on m.clock Heap.globals 0 := by
  have hsound := sequence_sound (eval_exec_sound m.clock n).2 program Heap.globals 0 m.store
  rw [run_eq] at h
  cases hs : sequence (exec n) program (m.store.on m.clock Heap.globals 0) with
  | ok flow m₁ =>
    obtain ⟨σ, rfl, hall⟩ := hsound (.ok flow) m₁ hs
    rw [hs] at h
    cases r with
    | ok u => exact ⟨σ, .ok hall, (Prod.mk.inj h).2.symm⟩
    | error f => cases (Prod.mk.inj h).1
  | error e m₁ =>
    rw [hs] at h
    cases e with
    | exhausted => cases r <;> cases (Prod.mk.inj h).1
    | fault f =>
      obtain ⟨σ, rfl, hall⟩ := hsound (.error f) m₁ hs
      cases r with
      | ok u => cases (Prod.mk.inj h).1
      | error g =>
        obtain ⟨hf, rfl⟩ := Prod.mk.inj h
        obtain rfl := Ending.faulted.inj hf
        exact ⟨σ, .fault hall, rfl⟩

/-- A program comes to an outcome of it with any number of steps that is large enough. -/
theorem Machine.run_of_finishes {m : Machine} {program : List Stmt} {r : Outcome Unit} {σ : Store}
    (h : Finishes m.clock program m.store r σ) :
    ∃ N, ∀ n, N ≤ n → m.run n program = (Ending.ofOutcome r, σ.on m.clock Heap.globals 0) := by
  cases h with
  | ok h | fault h =>
    obtain ⟨N, hN⟩ := sequence_complete h
    refine ⟨N, fun n hn => ?_⟩
    have hrun := hN n hn
    simp only at hrun
    rw [run_eq, hrun]
    rfl

/-- Running agrees with the meaning of programs: from any machine, a program comes to an end with
some number of steps exactly if that end is an outcome of it, and it leaves the store of that
outcome, with nothing under way. -/
theorem Machine.run_iff_finishes (m : Machine) (program : List Stmt) (r : Outcome Unit)
    (m' : Machine) :
    (∃ n, m.run n program = (Ending.ofOutcome r, m')) ↔
      ∃ σ, Finishes m.clock program m.store r σ ∧ m' = σ.on m.clock Heap.globals 0 := by
  constructor
  · rintro ⟨n, h⟩
    exact Machine.finishes_of_run h
  · rintro ⟨σ, h, rfl⟩
    obtain ⟨N, hN⟩ := Machine.run_of_finishes h
    exact ⟨N, hN N (Nat.le_refl N)⟩

end Lox
