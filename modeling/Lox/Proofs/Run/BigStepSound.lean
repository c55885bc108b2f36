import Lox.Proofs.Run.Outcome

/-!
Whatever a run of a program comes to is an outcome that the program has. One lemma for each form,
under the assumption that the runs of its parts are sound.
-/

namespace Lox.Run
open BigStep

variable {α : Type} {κ : Nat → Option Float}

/-- The outcomes of `act`, in any frame and with any number of calls under way, are among `J`. -/
def SoundFor (κ : Nat → Option Float) (act : Run α)
    (J : FrameId → Nat → Store → Outcome α → Store → Prop) : Prop :=
  ∀ s d σ r m', act (σ.on κ s d) = result r m' → ∃ σ', m' = σ'.on κ s d ∧ J s d σ r σ'

theorem inFrame_sound {act : Run α} {J : FrameId → Nat → Store → Outcome α → Store → Prop}
    (hact : SoundFor κ act J) (outer : FrameId) (vars : Bindings) :
    SoundFor κ (inFrame outer vars act)
      (fun _ d σ => J σ.fresh d (σ.within outer vars)) := by
  intro s d σ r m' h
  obtain ⟨m₁, run, rfl⟩ := inFrame_result.mp h
  obtain ⟨σ', rfl, hact⟩ := hact _ _ _ _ _ run
  exact ⟨σ', rfl, hact⟩

section
variable {eval : Expr → Run Value} {exec : Stmt → Run Flow}

/-! ### Lists of statements, loops and calls -/

theorem sequence_sound (hexec : ∀ st, SoundFor κ (exec st) (Executes κ · · st)) (ss : List Stmt) :
    SoundFor κ (sequence exec ss) (ExecutesAll κ · · ss) := by
  induction ss with
  | nil =>
    intro s d σ r m' h
    obtain ⟨rfl, rfl⟩ := pure_result.mp h
    exact ⟨σ, rfl, .nil⟩
  | cons st ss ih =>
    intro s d σ r m' h
    rcases bind_result.mp h with ⟨flow, m₁, run, h⟩ | ⟨f, run, rfl⟩
    · obtain ⟨σ₁, rfl, hst⟩ := hexec st _ _ _ _ _ run
      cases flow with
      | next =>
        obtain ⟨σ₂, rfl, hss⟩ := ih _ _ _ _ _ h
        exact ⟨σ₂, rfl, .cons hst hss⟩
      | returned v =>
        obtain ⟨rfl, rfl⟩ := pure_result.mp h
        exact ⟨σ₁, rfl, .returned hst⟩
    · obtain ⟨σ₁, rfl, hst⟩ := hexec st _ _ _ _ _ run
      exact ⟨σ₁, rfl, .fault hst⟩

theorem rounds_sound {c : Expr} {body : Stmt} (hc : SoundFor κ (eval c) (Evaluates κ · · c))
    (hbody : SoundFor κ (exec body) (Executes κ · · body)) (n : Nat) :
    SoundFor κ (rounds (eval c) (exec body) n) (Repeats κ · · c body) := by
  induction n with
  | zero =>
    intro s d σ r m' h
    exact absurd h exhausted_ne_result
  | succ n ih =>
    intro s d σ r m' h
    rcases bind_result.mp h with ⟨v, m₁, run, h⟩ | ⟨f, run, rfl⟩
    · obtain ⟨σ₁, rfl, hv⟩ := hc _ _ _ _ _ run
      by_cases htrue : v.truthy = true
      · rw [if_pos htrue] at h
        have htrue := truthy_iff.mp htrue
        rcases bind_result.mp h with ⟨flow, m₂, run, h⟩ | ⟨f, run, rfl⟩
        · obtain ⟨σ₂, rfl, hflow⟩ := hbody _ _ _ _ _ run
          cases flow with
          | next =>
            obtain ⟨σ₃, rfl, hloop⟩ := ih _ _ _ _ _ h
            exact ⟨σ₃, rfl, .again hv htrue hflow hloop⟩
          | returned w =>
            obtain ⟨rfl, rfl⟩ := pure_result.mp h
            exact ⟨σ₂, rfl, .returned hv htrue hflow⟩
        · obtain ⟨σ₂, rfl, hflow⟩ := hbody _ _ _ _ _ run
          exact ⟨σ₂, rfl, .bodyFault hv htrue hflow⟩
      · rw [if_neg htrue] at h
        obtain ⟨rfl, rfl⟩ := pure_result.mp h
        exact ⟨σ₁, rfl, .stop hv (not_truthy_iff.mp htrue)⟩
    · obtain ⟨σ₁, rfl, hv⟩ := hc _ _ _ _ _ run
      exact ⟨σ₁, rfl, .testFault hv⟩

theorem mapM_sound (heval : ∀ e, SoundFor κ (eval e) (Evaluates κ · · e)) (es : List Expr) :
    SoundFor κ (es.mapM eval) (EvaluatesAll κ · · es) := by
  induction es with
  | nil =>
    intro s d σ r m' h
    obtain ⟨rfl, rfl⟩ := pure_result.mp (by simpa using h)
    exact ⟨σ, rfl, .nil⟩
  | cons e es ih =>
    intro s d σ r m' h
    rw [List.mapM_cons] at h
    rcases bind_result.mp h with ⟨v, m₁, run, h⟩ | ⟨f, run, rfl⟩
    · obtain ⟨σ₁, rfl, hv⟩ := heval e _ _ _ _ _ run
      rcases bind_result.mp h with ⟨vs, m₂, run, h⟩ | ⟨f, run, rfl⟩
      · obtain ⟨σ₂, rfl, hvs⟩ := ih _ _ _ _ _ run
        obtain ⟨rfl, rfl⟩ := pure_result.mp h
        exact ⟨σ₂, rfl, .cons hv hvs⟩
      · obtain ⟨σ₂, rfl, hvs⟩ := ih _ _ _ _ _ run
        exact ⟨σ₂, rfl, .tail hv hvs⟩
    · obtain ⟨σ₁, rfl, hv⟩ := heval e _ _ _ _ _ run
      exact ⟨σ₁, rfl, .head hv⟩

/-- What a function does in the frame of its call. -/
theorem invoke_sound (hexec : ∀ st, SoundFor κ (exec st) (Executes κ · · st)) {f : Closure}
    {vs : List Value} {d : Nat} {paren : Token} (hlen : f.params.length = vs.length)
    (hd : d < maxCallDepth) {s : FrameId} {σ : Store} {r : Outcome Value} {m₁ : Machine}
    (h : invoke exec (.function f) vs (σ.on κ s (d + 1)) = result r m₁) :
    ∃ σ', m₁ = σ'.on κ s (d + 1) ∧ Calls κ d paren (.callable (.function f)) vs σ r σ' := by
  have hbody := inFrame_sound (sequence_sound hexec f.body) f.frame (.ofArguments f.params vs)
  rcases bind_result.mp h with ⟨flow, m₂, run, h⟩ | ⟨e, run, rfl⟩
  · obtain ⟨σ', rfl, hflow⟩ := hbody _ _ _ _ _ run
    cases flow with
    | next =>
      obtain ⟨rfl, rfl⟩ := pure_result.mp h
      exact ⟨σ', rfl, .finished hlen hd hflow⟩
    | returned v =>
      obtain ⟨rfl, rfl⟩ := pure_result.mp h
      exact ⟨σ', rfl, .returned hlen hd hflow⟩
  · obtain ⟨σ', rfl, hflow⟩ := hbody _ _ _ _ _ run
    exact ⟨σ', rfl, .fault hlen hd hflow⟩

theorem call_sound (hexec : ∀ st, SoundFor κ (exec st) (Executes κ · · st)) (paren : Token)
    (v : Value) (vs : List Value) :
    SoundFor κ (call exec paren v vs) (fun _ d => Calls κ d paren v vs) := by
  intro s d σ r m' h
  by_cases hv : ∃ c, v = .callable c
  · obtain ⟨c, rfl⟩ := hv
    by_cases hlen : c.arity = vs.length
    · by_cases hd : d < maxCallDepth
      · rw [call_deeper hlen hd] at h
        obtain ⟨m₁, run, rfl⟩ := deeper_result.mp h
        cases c with
        | clock =>
          obtain rfl := List.eq_nil_of_length_eq_zero hlen.symm
          obtain ⟨x, hx, rfl, rfl⟩ := tick_result.mp run
          exact ⟨_, rfl, .clock hd hx⟩
        | function f =>
          obtain ⟨σ', rfl, hcall⟩ := invoke_sound hexec hlen hd run
          exact ⟨σ', rfl, hcall⟩
      · rw [call_stackOverflow hlen (Nat.not_lt.mp hd)] at h
        obtain ⟨rfl, rfl⟩ := raise_result.mp h
        exact ⟨σ, rfl, .stackOverflow hlen (Nat.not_lt.mp hd)⟩
    · rw [call_wrongArity hlen] at h
      obtain ⟨rfl, rfl⟩ := raise_result.mp h
      exact ⟨σ, rfl, .wrongArity hlen⟩
  · have hv : ∀ c, v ≠ .callable c := fun c hc => hv ⟨c, hc⟩
    rw [call_notCallable hv] at h
    obtain ⟨rfl, rfl⟩ := raise_result.mp h
    exact ⟨σ, rfl, .notCallable hv⟩

/-! ### One form over its parts -/

theorem exprStep_sound (heval : ∀ e, SoundFor κ (eval e) (Evaluates κ · · e))
    (hexec : ∀ st, SoundFor κ (exec st) (Executes κ · · st)) (e : Expr) :
    SoundFor κ (exprStep eval exec e) (Evaluates κ · · e) := by
  intro s d σ r m' h
  cases e with
  | literal v =>
    obtain ⟨rfl, rfl⟩ := pure_result.mp h
    exact ⟨σ, rfl, .literal v⟩
  | «variable» x =>
    rw [exprStep] at h
    rcases bound_or_unbound σ.heap x.lexeme s with ⟨i, v, hx⟩ | hx
    · rw [readName_bound hx, result_inj] at h
      obtain ⟨rfl, rfl⟩ := h
      exact ⟨σ, rfl, .name x hx⟩
    · rw [readName_unbound hx, result_inj] at h
      obtain ⟨rfl, rfl⟩ := h
      exact ⟨σ, rfl, .unbound x hx⟩
  | assign x e =>
    rcases bind_result.mp h with ⟨v, m₁, run, h⟩ | ⟨f, run, rfl⟩
    · obtain ⟨σ₁, rfl, hv⟩ := heval e _ _ _ _ _ run
      rcases bound_or_unbound σ₁.heap x.lexeme s with ⟨i, w, hx⟩ | hx
      · rw [Step.bind_of_ok (assign_bound hx)] at h
        obtain ⟨rfl, rfl⟩ := pure_result.mp h
        exact ⟨_, rfl, .assign x hv hx⟩
      · rw [Step.bind_of_error (assign_unbound hx)] at h
        obtain ⟨rfl, rfl⟩ := (result_inj (r := .error _)).mp h
        exact ⟨σ₁, rfl, .assignUnbound x hv hx⟩
    · obtain ⟨σ₁, rfl, hv⟩ := heval e _ _ _ _ _ run
      exact ⟨σ₁, rfl, .assignFault x hv⟩
  | unary op e =>
    rcases bind_result.mp h with ⟨a, m₁, run, h⟩ | ⟨f, run, rfl⟩
    · obtain ⟨σ₁, rfl, ha⟩ := heval e _ _ _ _ _ run
      obtain ⟨hop, rfl⟩ := unary_result.mp h
      exact ⟨σ₁, rfl, .unary op ha hop⟩
    · obtain ⟨σ₁, rfl, ha⟩ := heval e _ _ _ _ _ run
      exact ⟨σ₁, rfl, .unaryFault op ha⟩
  | binary l op r =>
    rcases bind_result.mp h with ⟨a, m₁, run, h⟩ | ⟨f, run, rfl⟩
    · obtain ⟨σ₁, rfl, ha⟩ := heval l _ _ _ _ _ run
      rcases bind_result.mp h with ⟨b, m₂, run, h⟩ | ⟨f, run, rfl⟩
      · obtain ⟨σ₂, rfl, hb⟩ := heval r _ _ _ _ _ run
        obtain ⟨hop, rfl⟩ := binary_result.mp h
        exact ⟨σ₂, rfl, .binary op ha hb hop⟩
      · obtain ⟨σ₂, rfl, hb⟩ := heval r _ _ _ _ _ run
        exact ⟨σ₂, rfl, .binaryRight op ha hb⟩
    · obtain ⟨σ₁, rfl, ha⟩ := heval l _ _ _ _ _ run
      exact ⟨σ₁, rfl, .binaryLeft op ha⟩
  | logical l op r =>
    rcases bind_result.mp h with ⟨a, m₁, run, h⟩ | ⟨f, run, rfl⟩
    · obtain ⟨σ₁, rfl, ha⟩ := heval l _ _ _ _ _ run
      by_cases hop : decides op a = true
      · rw [if_pos hop] at h
        obtain ⟨rfl, rfl⟩ := pure_result.mp h
        exact ⟨σ₁, rfl, .decided op ha (decides_iff.mp hop)⟩
      · rw [if_neg hop] at h
        obtain ⟨σ₂, rfl, hb⟩ := heval r _ _ _ _ _ h
        exact ⟨σ₂, rfl, .undecided op ha (mt decides_iff.mpr hop) hb⟩
    · obtain ⟨σ₁, rfl, ha⟩ := heval l _ _ _ _ _ run
      exact ⟨σ₁, rfl, .logicalFault op ha⟩
  | grouping e =>
    obtain ⟨σ₁, rfl, he⟩ := heval e _ _ _ _ _ h
    exact ⟨σ₁, rfl, .grouping he⟩
  | call f paren args =>
    rcases bind_result.mp h with ⟨c, m₁, run, h⟩ | ⟨e, run, rfl⟩
    · obtain ⟨σ₁, rfl, hc⟩ := heval f _ _ _ _ _ run
      rcases bind_result.mp h with ⟨vs, m₂, run, h⟩ | ⟨e, run, rfl⟩
      · obtain ⟨σ₂, rfl, hvs⟩ := mapM_sound heval args _ _ _ _ _ run
        obtain ⟨σ₃, rfl, hcall⟩ := call_sound hexec paren c vs _ _ _ _ _ h
        exact ⟨σ₃, rfl, .call paren hc hvs hcall⟩
      · obtain ⟨σ₂, rfl, hvs⟩ := mapM_sound heval args _ _ _ _ _ run
        exact ⟨σ₂, rfl, .arguments paren hc hvs⟩
    · obtain ⟨σ₁, rfl, hc⟩ := heval f _ _ _ _ _ run
      exact ⟨σ₁, rfl, .callee paren hc⟩

theorem stmtStep_sound (heval : ∀ e, SoundFor κ (eval e) (Evaluates κ · · e))
    (hexec : ∀ st, SoundFor κ (exec st) (Executes κ · · st)) (n : Nat) (st : Stmt) :
    SoundFor κ (stmtStep n eval exec st) (Executes κ · · st) := by
  intro s d σ r m' h
  cases st with
  | expression e =>
    rcases bind_result.mp h with ⟨v, m₁, run, h⟩ | ⟨f, run, rfl⟩
    · obtain ⟨σ₁, rfl, hv⟩ := heval e _ _ _ _ _ run
      obtain ⟨rfl, rfl⟩ := pure_result.mp h
      exact ⟨σ₁, rfl, .expression hv⟩
    · obtain ⟨σ₁, rfl, hv⟩ := heval e _ _ _ _ _ run
      exact ⟨σ₁, rfl, .expressionFault hv⟩
  | print k e =>
    rcases bind_result.mp h with ⟨v, m₁, run, h⟩ | ⟨f, run, rfl⟩
    · obtain ⟨σ₁, rfl, hv⟩ := heval e _ _ _ _ _ run
      cases hout : σ₁.out.write (v.text ++ "\n") with
      | mk refusal out =>
        cases refusal with
        | none =>
          rw [Step.bind_of_ok (printLine_written hout)] at h
          obtain ⟨rfl, rfl⟩ := pure_result.mp h
          exact ⟨_, rfl, .print k hv hout⟩
        | some r =>
          rw [Step.bind_of_error (printLine_refused hout)] at h
          obtain ⟨rfl, rfl⟩ := (result_inj (r := .error _)).mp h
          exact ⟨_, rfl, .refused k hv hout⟩
    · obtain ⟨σ₁, rfl, hv⟩ := heval e _ _ _ _ _ run
      exact ⟨σ₁, rfl, .printFault k hv⟩
  | var x init =>
    cases init with
    | none =>
      obtain ⟨rfl, rfl⟩ := (result_inj (r := .ok _)).mp h
      exact ⟨_, rfl, .var x⟩
    | some e =>
      rcases bind_result.mp h with ⟨v, m₁, run, h⟩ | ⟨f, run, rfl⟩
      · obtain ⟨σ₁, rfl, hv⟩ := heval e _ _ _ _ _ run
        obtain ⟨rfl, rfl⟩ := (result_inj (r := .ok _)).mp h
        exact ⟨_, rfl, .init x hv⟩
      · obtain ⟨σ₁, rfl, hv⟩ := heval e _ _ _ _ _ run
        exact ⟨σ₁, rfl, .initFault x hv⟩
  | function x ps body =>
    obtain ⟨rfl, rfl⟩ := (result_inj (r := .ok _)).mp h
    exact ⟨_, rfl, .function x ps body⟩
  | block body =>
    obtain ⟨σ', rfl, hbody⟩ := inFrame_sound (sequence_sound hexec body) s [] _ _ _ _ _ h
    exact ⟨σ', rfl, .block hbody⟩
  | branch c yes no =>
    rcases bind_result.mp h with ⟨v, m₁, run, h⟩ | ⟨f, run, rfl⟩
    · obtain ⟨σ₁, rfl, hv⟩ := heval c _ _ _ _ _ run
      by_cases htrue : v.truthy = true
      · rw [if_pos htrue] at h
        obtain ⟨σ₂, rfl, hyes⟩ := hexec yes _ _ _ _ _ h
        exact ⟨σ₂, rfl, .yes hv (truthy_iff.mp htrue) hyes⟩
      · rw [if_neg htrue] at h
        have hfalse := not_truthy_iff.mp htrue
        cases no with
        | none =>
          obtain ⟨rfl, rfl⟩ := pure_result.mp h
          exact ⟨σ₁, rfl, .neither hv hfalse⟩
        | some no =>
          obtain ⟨σ₂, rfl, hno⟩ := hexec no _ _ _ _ _ h
          exact ⟨σ₂, rfl, .no hv hfalse hno⟩
    · obtain ⟨σ₁, rfl, hv⟩ := heval c _ _ _ _ _ run
      exact ⟨σ₁, rfl, .branchFault hv⟩
  | loop c body =>
    obtain ⟨σ₁, rfl, hloop⟩ := rounds_sound (heval c) (hexec body) n _ _ _ _ _ h
    exact ⟨σ₁, rfl, .loop hloop⟩
  | ret k value =>
    cases value with
    | none =>
      obtain ⟨rfl, rfl⟩ := pure_result.mp h
      exact ⟨σ, rfl, .ret k⟩
    | some e =>
      rcases bind_result.mp h with ⟨v, m₁, run, h⟩ | ⟨f, run, rfl⟩
      · obtain ⟨σ₁, rfl, hv⟩ := heval e _ _ _ _ _ run
        obtain ⟨rfl, rfl⟩ := pure_result.mp h
        exact ⟨σ₁, rfl, .retValue k hv⟩
      · obtain ⟨σ₁, rfl, hv⟩ := heval e _ _ _ _ _ run
        exact ⟨σ₁, rfl, .retFault k hv⟩

end

/-! ### All forms together -/

theorem eval_succ (n : Nat) (e : Expr) : eval (n + 1) e = exprStep (eval n) (exec n) e := by
  rw [eval, withRoom_eq]

theorem exec_succ (n : Nat) (st : Stmt) : exec (n + 1) st = stmtStep n (eval n) (exec n) st := by
  rw [exec, withRoom_eq]

/-- Whatever the number of steps, what a run comes to is an outcome of the program. -/
theorem eval_exec_sound (κ : Nat → Option Float) (n : Nat) :
    (∀ e, SoundFor κ (eval n e) (Evaluates κ · · e)) ∧
      ∀ st, SoundFor κ (exec n st) (Executes κ · · st) := by
  induction n with
  | zero =>
    refine ⟨fun e s d σ r m' h => ?_, fun st s d σ r m' h => ?_⟩
    · exact absurd (by rwa [eval] at h) exhausted_ne_result
    · exact absurd (by rwa [exec] at h) exhausted_ne_result
  | succ n ih =>
    refine ⟨fun e => ?_, fun st => ?_⟩
    · rw [eval_succ]
      exact exprStep_sound ih.1 ih.2 e
    · rw [exec_succ]
      exact stmtStep_sound ih.1 ih.2 n st

end Lox.Run
