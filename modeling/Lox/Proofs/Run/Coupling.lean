import Lox.Proofs.Run.Coupled
import Lox.Proofs.Run.Logic

/-!
Two runs in lockstep. When programs correspond form by form, and whatever is printed is taken by the
outputs in the same way, their runs correspond step by step: within the same number of steps they
come to results that correspond, or to faults that do, or are both cut off. After a `return` the
statements of a list need not correspond, because they are not run.
-/

namespace Lox

/-! ### Programs -/

section
variable (c : Correspondence) (Mark : Token → Token → Prop) (Exprs : Expr → Expr → Prop)
  (Stmts : Stmt → Stmt → Prop)

/-- Expressions of one form, of which all parts correspond. -/
inductive Expr.Matches : Expr → Expr → Prop where
  | literal (v : Literal) : Matches (.literal v) (.literal v)
  | «variable» {x x'} : c.Name x x' → Matches (.variable x) (.variable x')
  | assign {x x' e e'} : c.Name x x' → Exprs e e' → Matches (.assign x e) (.assign x' e')
  | unary {op op' e e'} : Mark op op' → Exprs e e' → Matches (.unary op e) (.unary op' e')
  | binary {l l' op op' r r'} : Exprs l l' → Mark op op' → Exprs r r' →
      Matches (.binary l op r) (.binary l' op' r')
  | logical {l l' op op' r r'} : Exprs l l' → Mark op op' → Exprs r r' →
      Matches (.logical l op r) (.logical l' op' r')
  | grouping {e e'} : Exprs e e' → Matches (.grouping e) (.grouping e')
  | call {f f' t t' args args'} : Exprs f f' → Mark t t' → List.Forall₂ Exprs args args' →
      Matches (.call f t args) (.call f' t' args')

/-- Statements of one form, of which all parts correspond. -/
inductive Stmt.Matches : Stmt → Stmt → Prop where
  | expression {e e'} : Exprs e e' → Matches (.expression e) (.expression e')
  | print {t t' e e'} : Mark t t' → Exprs e e' → Matches (.print t e) (.print t' e')
  | var {x x' e e'} : c.Name x x' → Option.Rel Exprs e e' → Matches (.var x e) (.var x' e')
  | function {x x' ps ps' body body'} : c.Name x x' → List.Forall₂ c.Name ps ps' →
      c.Body body body' → Matches (.function x ps body) (.function x' ps' body')
  | block {body body'} : c.Body body body' → Matches (.block body) (.block body')
  | branch {e e' yes yes' no no'} : Exprs e e' → Stmts yes yes' → Option.Rel Stmts no no' →
      Matches (.branch e yes no) (.branch e' yes' no')
  | loop {e e' s s'} : Exprs e e' → Stmts s s' → Matches (.loop e s) (.loop e' s')
  | ret {t t' e e'} : Option.Rel Exprs e e' → Matches (.ret t e) (.ret t' e')

/-- Statements that correspond one by one, as far as a `return` among them. -/
inductive Stmt.AllMatch : List Stmt → List Stmt → Prop where
  | nil : AllMatch [] []
  | cons {s s' ss ss'} : Stmts s s' → c.Body ss ss' → AllMatch (s :: ss) (s' :: ss')
  | dead {t t' e e' ss ss'} : Stmts (.ret t e) (.ret t' e') →
      AllMatch (.ret t e :: ss) (.ret t' e' :: ss')

end

namespace Run

/-- What corresponds in two runs. -/
structure Coupling extends Correspondence where
  /-- Tokens that are no names. -/
  Mark : Token → Token → Prop
  Exprs : Expr → Expr → Prop
  Stmts : Stmt → Stmt → Prop
  Outs : Output → Output → Prop
  /-- The points that are considered, and with two points all that they lead to. -/
  Among : Point → Point → Prop
  leads {p p' q q' : Point} : Among p p' → Leads p q → Leads p' q' → Among q q'
  kind {t t' : Token} : Mark t t' → t.kind = t'.kind
  expr {e e' : Expr} : Exprs e e' → e.Matches toCorrespondence Mark Exprs e'
  stmt {s s' : Stmt} : Stmts s s' → s.Matches toCorrespondence Mark Exprs Stmts s'
  body {ss ss' : List Stmt} : Body ss ss' → Stmt.AllMatch toCorrespondence Stmts ss ss'
  /-- What a `print` writes. -/
  print {t t' : Token} {e e' : Expr} {n k : Nat} {v v' : Value} {m₀ m₀' m m' : Machine} :
    Among ⟨.exec (.print t e), m₀, k⟩ ⟨.exec (.print t' e'), m₀', k⟩ →
    eval n e m₀ = .ok v m → eval n e' m₀' = .ok v' m' → Value.Coupled toCorrespondence v v' →
    Outs m.out m'.out →
    let w := m.out.write (v.text ++ "\n")
    let w' := m'.out.write (v'.text ++ "\n")
    w.1 = w'.1 ∧ Outs w.2 w'.2

namespace Coupling

/-! ### How runs end -/

section
variable (c : Coupling)

/-- Values that correspond. -/
abbrev Values : Value → Value → Prop := Value.Coupled c.toCorrespondence

/-- Machines that hold what corresponds, and have come equally far. -/
structure Machines (m m' : Machine) : Prop where
  heap : Heap.Coupled c.toCorrespondence m.heap m'.heap
  scope : m.scope = m'.scope
  depth : m.depth = m'.depth
  made : m.made = m'.made
  clock : m.clock = m'.clock
  ticks : m.ticks = m'.ticks
  out : c.Outs m.out m'.out

/-- Faults of one cause, at names that correspond or at other tokens that do. -/
inductive Faults : Fault → Fault → Prop where
  | undefined {x x' : Token} : c.Name x x' →
      Faults ⟨.undefinedVariable, x⟩ ⟨.undefinedVariable, x'⟩
  | other {cause : FaultCause} {t t' : Token} : cause ≠ .undefinedVariable → c.Mark t t' →
      Faults ⟨cause, t⟩ ⟨cause, t'⟩

/-- Runs that end in the same way, with results related by `L`. -/
inductive Ends {α β : Type} (L : α → β → Prop) :
    EStateM.Result Halt Machine α → EStateM.Result Halt Machine β → Prop where
  | ok {a b m m'} : L a b → c.Machines m m' → Ends L (.ok a m) (.ok b m')
  | fault {f f' m m'} : c.Faults f f' → c.Machines m m' →
      Ends L (.error (.fault f) m) (.error (.fault f') m')
  | exhausted {m m'} : c.Machines m m' → Ends L (.error .exhausted m) (.error .exhausted m')

/-- If the machines correspond, the two runs from them end in the same way. -/
def Couples {α β : Type} (L : α → β → Prop) (x : Run α) (y : Run β) (m m' : Machine) : Prop :=
  c.Machines m m' → c.Ends L (x m) (y m')

/-- Statements that end in the same way. -/
inductive Flows : Flow → Flow → Prop where
  | next : Flows .next .next
  | returned {v v' : Value} : c.Values v v' → Flows (.returned v) (.returned v')

end

variable (c : Coupling) {α β γ δ : Type} {L : α → β → Prop} {M : γ → δ → Prop} {m m' : Machine}
  {k n : Nat}

/-! ### Putting together -/

theorem pure {a : α} {b : β} (h : L a b) : c.Couples L (pure a) (pure b) m m' := fun hm => .ok h hm

theorem bind {x : Run α} {y : Run β} {f : α → Run γ} {g : β → Run δ} (hx : c.Couples L x y m m')
    (hf : ∀ a b m₁ m₁', x m = .ok a m₁ → y m' = .ok b m₁' → L a b →
      c.Couples M (f a) (g b) m₁ m₁') : c.Couples M (x >>= f) (y >>= g) m m' := by
  intro hm
  have hends := hx hm
  cases hr : x m with
  | ok a m₁ =>
    rw [hr] at hends
    rw [Step.bind_of_ok hr]
    generalize hr' : y m' = r' at hends
    cases hends with
    | ok hab hm₁ =>
      rw [Step.bind_of_ok hr']
      exact hf _ _ _ _ hr hr' hab hm₁
  | error e m₁ =>
    rw [hr] at hends
    rw [Step.bind_of_error hr]
    generalize hr' : y m' = r' at hends
    cases hends with
    | fault hfault hm₁ =>
      rw [Step.bind_of_error hr']
      exact .fault hfault hm₁
    | exhausted hm₁ =>
      rw [Step.bind_of_error hr']
      exact .exhausted hm₁

theorem exhausted : c.Couples L (throw .exhausted) (throw .exhausted) m m' :=
  fun hm => .exhausted hm

theorem raise {t t' : Token} {cause : FaultCause} (hcause : cause ≠ .undefinedVariable)
    (ht : c.Mark t t') : c.Couples L (raise cause t) (raise cause t') m m' :=
  fun hm => .fault (.other hcause ht) hm

variable {c} in
/-- Something about the machines is put back, whichever way the runs end. -/
theorem Ends.mapState {r : EStateM.Result Halt Machine α} {r' : EStateM.Result Halt Machine β}
    (h : c.Ends L r r') {g g' : Machine → Machine}
    (hg : ∀ m m', c.Machines m m' → c.Machines (g m) (g' m')) :
    c.Ends L (Step.mapState g r) (Step.mapState g' r') := by
  cases h with
  | ok hab hm => exact .ok hab (hg _ _ hm)
  | fault hf hm => exact .fault hf (hg _ _ hm)
  | exhausted hm => exact .exhausted (hg _ _ hm)

/-! ### Names -/

section
variable {x x' : Token} {v v' : Value}

theorem readName (hx : c.Name x x') : c.Couples c.Values (readName x) (readName x') m m' := by
  intro hm
  have hn := hm.heap.nearest? (c.key hx) m'.scope
  rw [Run.readName, Run.readName, hm.scope]
  generalize m.heap.nearest? _ _ = r, m'.heap.nearest? _ _ = r' at hn ⊢
  cases hn with
  | none => exact .fault (.undefined hx) hm
  | some h => exact .ok h.2 hm

theorem assign (hx : c.Name x x') (hv : c.Values v v') :
    c.Couples Eq (assign x v) (assign x' v') m m' := by
  intro hm
  have hn := hm.heap.nearest? (c.key hx) m'.scope
  rw [Run.assign, Run.assign, hm.scope]
  generalize m.heap.nearest? _ _ = r, m'.heap.nearest? _ _ = r' at hn ⊢
  cases hn with
  | none => exact .fault (.undefined hx) hm
  | @some b b' h =>
    obtain ⟨i, u⟩ := b
    obtain ⟨i', u'⟩ := b'
    obtain ⟨rfl, -⟩ := h
    exact .ok rfl { hm with heap := hm.heap.define (c.key hx) hv i, scope := rfl }

theorem define (hx : c.Name x x') (hv : c.Values v v') :
    c.Couples Eq (define x.lexeme v) (define x'.lexeme v') m m' := by
  intro hm
  refine .ok rfl { hm with heap := ?_ }
  rw [hm.scope]
  exact hm.heap.define (c.key hx) hv _

theorem declare {ps ps' : List Token} {body body' : List Stmt} (hx : c.Name x x')
    (hps : List.Forall₂ c.Name ps ps') (hbody : c.Body body body') :
    c.Couples Eq (declare x ps body) (declare x' ps' body') m m' := by
  intro hm
  have hmade : c.Machines { m with made := m.made + 1 } { m' with made := m'.made + 1 } :=
    { hm with made := congrArg (· + 1) hm.made }
  have hf : c.Values (.callable (.function ⟨m.made, x, ps, body, m.scope⟩))
      (.callable (.function ⟨m'.made, x', ps', body', m'.scope⟩)) :=
    .function hm.made hx hps hbody hm.scope
  exact c.define hx hf hmade

end

/-! ### Frames, calls and output -/

theorem inFrame {x : Run α} {y : Run β} {i i' : FrameId} {vars vars' : Bindings} (hi : i = i')
    (hvars : Bindings.Coupled c.toCorrespondence vars vars')
    (h : c.Couples L x y (m.within i vars) (m'.within i' vars')) :
    c.Couples L (inFrame i vars x) (inFrame i' vars' y) m m' := by
  subst hi
  intro hm
  rw [inFrame_eq, inFrame_eq]
  exact (h { hm with heap := hm.heap.push i hvars, scope := hm.heap.size }).mapState
    fun _ _ hm₁ => { hm₁ with scope := hm.scope }

theorem deeper {x : Run α} {y : Run β} (h : c.Couples L x y m.calling m'.calling) :
    c.Couples L (deeper x) (deeper y) m m' := by
  intro hm
  rw [deeper_eq, deeper_eq]
  exact (h { hm with depth := congrArg (· + 1) hm.depth }).mapState
    fun _ _ hm₁ => { hm₁ with depth := congrArg (· - 1) hm₁.depth }

theorem tick : c.Couples c.Values tick tick m m' := by
  intro hm
  have hnow : m'.clock m'.ticks = m.clock m.ticks := by rw [hm.clock, hm.ticks]
  rw [Run.tick, Run.tick, hnow]
  cases m.clock m.ticks with
  | none => exact .exhausted hm
  | some x => exact .ok (.num x) { hm with ticks := congrArg (· + 1) hm.ticks }

/-- As many calls are under way on both machines. -/
theorem guard {x x' : Run α} {y y' : Run β} (hx : c.Couples L x y m m')
    (hx' : m.depth < maxCallDepth → m'.depth < maxCallDepth → c.Couples L x' y' m m') :
    c.Couples L (do if maxCallDepth ≤ (← get).depth then x else x')
      (do if maxCallDepth ≤ (← get).depth then y else y') m m' := by
  intro hm
  rw [guard_eq, guard_eq]
  by_cases hdepth : maxCallDepth ≤ m.depth
  · rw [if_pos hdepth, if_pos (hm.depth ▸ hdepth)]
    exact hx hm
  · rw [if_neg hdepth, if_neg (hm.depth ▸ hdepth)]
    have hlt := Nat.not_le.mp hdepth
    exact hx' hlt (hm.depth ▸ hlt) hm

theorem printLine {t t' : Token} {e e' : Expr} {v v' : Value} {m₀ m₀' : Machine}
    (h : c.Among ⟨.exec (.print t e), m₀, k⟩ ⟨.exec (.print t' e'), m₀', k⟩)
    (he : eval n e m₀ = .ok v m) (he' : eval n e' m₀' = .ok v' m') (ht : c.Mark t t')
    (hv : c.Values v v') : c.Couples Eq (printLine t v.text) (printLine t' v'.text) m m' := by
  intro hm
  obtain ⟨hrefusal, hout⟩ := c.print h he he' hv hm.out
  rw [Run.printLine, Run.printLine]
  generalize m.out.write _ = w, m'.out.write _ = w' at hrefusal hout ⊢
  obtain ⟨r, o⟩ := w
  obtain ⟨r', o'⟩ := w'
  obtain rfl : r = r' := hrefusal
  cases r with
  | none => exact .ok rfl { hm with out := hout }
  | some r => exact .fault (.other (by simp) ht) { hm with out := hout }

/-! ### Operators -/

section
variable {op op' : Token} {a a' b b' : Value}

theorem unary (hop : c.Mark op op') (ha : c.Values a a') :
    c.Couples c.Values (unary op a) (unary op' a') m m' := by
  unfold Run.unary
  rw [c.kind hop]
  cases op'.kind with
  | minus =>
    cases ha with
    | num x => exact c.pure (.num _)
    | _ => exact c.raise (by simp) hop
  | bang =>
    simp only [ha.truthy]
    exact c.pure (.bool _)
  | _ => exact c.raise (by simp) hop

theorem onNumbers {f : Float → Float → Value} (hf : ∀ x y, c.Values (f x y) (f x y))
    (hop : c.Mark op op') (ha : c.Values a a') (hb : c.Values b b') :
    c.Couples c.Values (onNumbers op f a b) (onNumbers op' f a' b') m m' := by
  cases ha with
  | num x =>
    cases hb with
    | num y => exact c.pure (hf x y)
    | _ => exact c.raise (by simp) hop
  | _ => exact c.raise (by simp) hop

theorem plus (hop : c.Mark op op') (ha : c.Values a a') (hb : c.Values b b') :
    c.Couples c.Values (plus op a b) (plus op' a' b') m m' := by
  cases ha with
  | num x =>
    cases hb with
    | num y => exact c.pure (.num _)
    | _ => exact c.raise (by simp) hop
  | str s =>
    cases hb with
    | str t => exact c.pure (.str _)
    | _ => exact c.raise (by simp) hop
  | _ => exact c.raise (by simp) hop

theorem binary (hop : c.Mark op op') (ha : c.Values a a') (hb : c.Values b b') :
    c.Couples c.Values (binary op a b) (binary op' a' b') m m' := by
  unfold Run.binary
  rw [c.kind hop, ha.same hb]
  cases op'.kind with
  | equalEqual | bangEqual => exact c.pure (.bool _)
  | plus => exact c.plus hop ha hb
  | minus | slash | star => exact c.onNumbers (fun _ _ => .num _) hop ha hb
  | greater | greaterEqual | less | lessEqual => exact c.onNumbers (fun _ _ => .bool _) hop ha hb
  | _ => exact c.raise (by simp) hop

theorem decides_eq (hop : c.Mark op op') (ha : c.Values a a') : decides op a = decides op' a' := by
  rw [decides, decides, c.kind hop, ha.truthy]

end

section
variable
  (heval : ∀ e e' m m' k, c.Among ⟨.eval e, m, k⟩ ⟨.eval e', m', k⟩ → c.Exprs e e' →
    c.Couples c.Values (eval n e) (eval n e') m m')
  (hexec : ∀ s s' m m' k, c.Among ⟨.exec s, m, k⟩ ⟨.exec s', m', k⟩ → c.Stmts s s' →
    c.Couples c.Flows (exec n s) (exec n s') m m')

/-! ### Lists of expressions and statements, and loops -/

include heval in
theorem mapM {es es' : List Expr} (h : List.Forall₂ c.Exprs es es')
    (hA : c.Among ⟨.evalAll es, m, k⟩ ⟨.evalAll es', m', k⟩) :
    c.Couples (List.Forall₂ c.Values) (es.mapM (eval n)) (es'.mapM (eval n)) m m' := by
  induction h generalizing m m' with
  | nil => exact c.pure .nil
  | cons he _ ih =>
    rw [List.mapM_cons, List.mapM_cons]
    refine c.bind (heval _ _ _ _ _ (c.leads hA .first .first) he) fun v v' m₁ m₁' hv hv' hvv => ?_
    refine c.bind (ih (c.leads hA (.others hv) (.others hv'))) fun vs vs' m₂ m₂' _ _ hvvs => ?_
    exact c.pure (.cons hvv hvvs)

/-- A `return` does not end with the next statement. -/
theorem exec_ret_ne_next {t : Token} {e : Option Expr} {m₁ : Machine} :
    exec n (.ret t e) m ≠ .ok .next m₁ := by
  cases n with
  | zero => exact nofun
  | succ n =>
    rw [exec_succ]
    intro h
    obtain ⟨v, m₂, -, h⟩ := Step.bind_eq_ok.mp h
    cases (Step.pure_eq_ok.mp h).1

include hexec in
theorem sequence {ss ss' : List Stmt} (h : c.Body ss ss')
    (hA : c.Among ⟨.execAll ss, m, k⟩ ⟨.execAll ss', m', k⟩) :
    c.Couples c.Flows (sequence (exec n) ss) (sequence (exec n) ss') m m' := by
  induction ss generalizing ss' m m' with
  | nil =>
    cases c.body h with
    | nil => exact c.pure .next
  | cons s ss ih =>
    cases c.body h with
    | cons hs hss =>
      refine c.bind (hexec _ _ _ _ _ (c.leads hA .head .head) hs) fun _ _ m₁ m₁' hr hr' hflow => ?_
      cases hflow with
      | next => exact ih hss (c.leads hA (.tail hr) (.tail hr'))
      | returned hv => exact c.pure (.returned hv)
    | dead hs =>
      -- behind a `return` the lists may differ, but the runs end here
      refine c.bind (hexec _ _ _ _ _ (c.leads hA .head .head) hs) fun _ _ m₁ m₁' hr _ hflow => ?_
      cases hflow with
      | next => exact absurd hr exec_ret_ne_next
      | returned hv => exact c.pure (.returned hv)

include heval hexec in
theorem rounds {e e' : Expr} {s s' : Stmt} (he : c.Exprs e e') (hs : c.Stmts s s') (i : Nat)
    (hA : c.Among ⟨.exec (.loop e s), m, k⟩ ⟨.exec (.loop e' s'), m', k⟩) :
    c.Couples c.Flows (rounds (eval n e) (exec n s) i) (rounds (eval n e') (exec n s') i) m m' := by
  induction i generalizing m m' with
  | zero => exact c.exhausted
  | succ i ih =>
    refine c.bind (heval _ _ _ _ _ (c.leads hA .test .test) he) fun v v' m₁ m₁' hv hv' hvv => ?_
    by_cases htrue : v.truthy = true
    · have htrue' : v'.truthy = true := hvv.truthy ▸ htrue
      have hA₁ := c.leads hA (.round hv htrue) (.round hv' htrue')
      rw [if_pos htrue, if_pos htrue']
      refine c.bind (hexec _ _ _ _ _ hA₁ hs) fun _ _ m₂ m₂' hr hr' hflow => ?_
      cases hflow with
      | next => exact ih (c.leads hA (.again hv htrue hr) (.again hv' htrue' hr'))
      | returned hv => exact c.pure (.returned hv)
    · rw [if_neg htrue, if_neg (hvv.truthy ▸ htrue)]
      exact c.pure .next

/-! ### Calls -/

variable {t t' : Token} {vs vs' : List Value}

/-- What can be called is called on both sides or on neither. -/
theorem callable {f f' : Callable} {exec exec' : Stmt → Run Flow} (ht : c.Mark t t')
    (hf : c.Values (.callable f) (.callable f')) (hvs : List.Forall₂ c.Values vs vs')
    (hinvoke : f.arity = vs.length → f'.arity = vs'.length → m.depth < maxCallDepth →
      m'.depth < maxCallDepth →
      c.Couples c.Values (invoke exec f vs) (invoke exec' f' vs') m.calling m'.calling) :
    c.Couples c.Values (Run.call exec t (.callable f) vs) (Run.call exec' t' (.callable f') vs')
      m m' := by
  rw [Run.call, Run.call, hf.arity, hvs.length_eq]
  by_cases harity : f'.arity = vs'.length
  · rw [if_neg (not_not_intro harity), if_neg (not_not_intro harity)]
    have harity' : f.arity = vs.length := by rw [hf.arity, harity, hvs.length_eq]
    exact c.guard (c.raise (by simp) ht) fun hdepth hdepth' =>
      c.deeper (hinvoke harity' harity hdepth hdepth')
  · rw [if_pos harity, if_pos harity]
    exact c.raise (by simp) ht

include hexec in
theorem call {v v' : Value} (ht : c.Mark t t') (hv : c.Values v v')
    (hvs : List.Forall₂ c.Values vs vs')
    (hA : c.Among ⟨.call t v vs, m, k⟩ ⟨.call t' v' vs', m', k⟩) :
    c.Couples c.Values (call (exec n) t v vs) (call (exec n) t' v' vs') m m' := by
  cases hv with
  | clock => exact c.callable ht .clock hvs fun _ _ _ _ => c.tick
  | function hid hname hparams hbody hframe =>
    refine c.callable ht (.function hid hname hparams hbody hframe) hvs
      fun harity harity' hdepth hdepth' => ?_
    have hA₁ := c.leads hA (.body harity hdepth) (.body harity' hdepth')
    refine c.bind (c.inFrame hframe (.ofArguments hparams hvs) (c.sequence hexec hbody hA₁))
      fun _ _ m₁ m₁' _ _ hflow => ?_
    cases hflow with
    | next => exact c.pure .nil
    | returned hv => exact c.pure hv
  | _ => exact c.raise (by simp) ht

/-! ### One form over its parts -/

include heval hexec in
theorem exprStep {e e' : Expr} (h : c.Exprs e e')
    (hA : c.Among ⟨.eval e, m, k⟩ ⟨.eval e', m', k⟩) :
    c.Couples c.Values (exprStep (eval n) (exec n) e) (exprStep (eval n) (exec n) e') m m' := by
  cases c.expr h with
  | literal v => exact c.pure (.toValue v)
  | «variable» hx => exact c.readName hx
  | assign hx he =>
    refine c.bind (heval _ _ _ _ _ (c.leads hA .assign .assign) he) fun v v' m₁ m₁' _ _ hv => ?_
    exact c.bind (c.assign hx hv) fun _ _ _ _ _ _ _ => c.pure hv
  | unary hop he =>
    exact c.bind (heval _ _ _ _ _ (c.leads hA .unary .unary) he)
      fun v v' m₁ m₁' _ _ hv => c.unary hop hv
  | binary hl hop hr =>
    refine c.bind (heval _ _ _ _ _ (c.leads hA .left .left) hl) fun a a' m₁ m₁' ha ha' haa => ?_
    exact c.bind (heval _ _ _ _ _ (c.leads hA (.right ha) (.right ha')) hr)
      fun b b' m₂ m₂' _ _ hbb => c.binary hop haa hbb
  | @logical l l' op op' r r' hl hop hr =>
    refine c.bind (heval _ _ _ _ _ (c.leads hA .decider .decider) hl)
      fun a a' m₁ m₁' ha ha' haa => ?_
    have hsame := c.decides_eq hop haa
    by_cases hdecides : decides op a = true
    · rw [if_pos hdecides, if_pos (hsame ▸ hdecides)]
      exact c.pure haa
    · rw [if_neg hdecides, if_neg (hsame ▸ hdecides)]
      exact heval _ _ _ _ _
        (c.leads hA (.undecided ha hdecides) (.undecided ha' (hsame ▸ hdecides))) hr
  | grouping he => exact heval _ _ _ _ _ (c.leads hA .grouping .grouping) he
  | call hf ht hargs =>
    refine c.bind (heval _ _ _ _ _ (c.leads hA .callee .callee) hf) fun v v' m₁ m₁' hv hv' hvv => ?_
    refine c.bind (c.mapM heval hargs (c.leads hA (.arguments hv) (.arguments hv')))
      fun vs vs' m₂ m₂' hvs hvs' hvvs => ?_
    exact c.call hexec ht hvv hvvs (c.leads hA (.called hv hvs) (.called hv' hvs'))

include heval hexec in
theorem stmtStep {s s' : Stmt} (h : c.Stmts s s')
    (hA : c.Among ⟨.exec s, m, k⟩ ⟨.exec s', m', k⟩) :
    c.Couples c.Flows (stmtStep n (eval n) (exec n) s) (stmtStep n (eval n) (exec n) s') m m' := by
  cases c.stmt h with
  | expression he =>
    exact c.bind (heval _ _ _ _ _ (c.leads hA .expression .expression) he)
      fun _ _ _ _ _ _ _ => c.pure .next
  | print ht he =>
    refine c.bind (heval _ _ _ _ _ (c.leads hA .print .print) he) fun v v' m₁ m₁' hv hv' hvv => ?_
    exact c.bind (c.printLine hA hv hv' ht hvv) fun _ _ _ _ _ _ _ => c.pure .next
  | @var x x' init init' hx hinit =>
    have hvalue : c.Couples c.Values (evalOptional (eval n) init) (evalOptional (eval n) init')
        m m' := by
      cases hinit with
      | none => exact c.pure .nil
      | some he => exact heval _ _ _ _ _ (c.leads hA .init .init) he
    refine c.bind hvalue fun v v' m₁ m₁' _ _ hv => ?_
    exact c.bind (c.define hx hv) fun _ _ _ _ _ _ _ => c.pure .next
  | function hx hps hbody => exact c.bind (c.declare hx hps hbody) fun _ _ _ _ _ _ _ => c.pure .next
  | block hbody =>
    intro hm
    exact c.inFrame hm.scope .nil (c.sequence hexec hbody (c.leads hA .block .block)) hm
  | @branch e e' yes yes' no no' he hyes hno =>
    refine c.bind (heval _ _ _ _ _ (c.leads hA .condition .condition) he)
      fun v v' m₁ m₁' hv hv' hvv => ?_
    by_cases htrue : v.truthy = true
    · have htrue' : v'.truthy = true := hvv.truthy ▸ htrue
      rw [if_pos htrue, if_pos htrue']
      exact hexec _ _ _ _ _ (c.leads hA (.yes hv htrue) (.yes hv' htrue')) hyes
    · have hfalse' : ¬v'.truthy = true := hvv.truthy ▸ htrue
      rw [if_neg htrue, if_neg hfalse']
      cases hno with
      | none => exact c.pure .next
      | some hno => exact hexec _ _ _ _ _ (c.leads hA (.no hv htrue) (.no hv' hfalse')) hno
  | loop he hs => exact c.rounds heval hexec he hs n hA
  | @ret t t' value value' hvalue =>
    have hvalue : c.Couples c.Values (evalOptional (eval n) value) (evalOptional (eval n) value')
        m m' := by
      cases hvalue with
      | none => exact c.pure .nil
      | some he => exact heval _ _ _ _ _ (c.leads hA .ret .ret) he
    exact c.bind hvalue fun v v' m₁ m₁' _ _ hv => c.pure (.returned hv)

end

/-! ### All forms together -/

/-- Within the same number of steps, programs that correspond come to what corresponds. -/
theorem eval_exec (n : Nat) :
    (∀ e e' m m' k, c.Among ⟨.eval e, m, k⟩ ⟨.eval e', m', k⟩ → c.Exprs e e' →
      c.Couples c.Values (eval n e) (eval n e') m m') ∧
    ∀ s s' m m' k, c.Among ⟨.exec s, m, k⟩ ⟨.exec s', m', k⟩ → c.Stmts s s' →
      c.Couples c.Flows (exec n s) (exec n s') m m' := by
  induction n with
  | zero =>
    refine ⟨fun e e' m m' k _ _ => ?_, fun s s' m m' k _ _ => ?_⟩
    · rw [eval, eval]
      exact c.exhausted
    · rw [exec, exec]
      exact c.exhausted
  | succ n ih =>
    refine ⟨fun e e' m m' k hA h => ?_, fun s s' m m' k hA h => ?_⟩
    · rw [eval_succ, eval_succ]
      exact c.exprStep ih.1 ih.2 h hA
    · rw [exec_succ, exec_succ]
      exact c.stmtStep ih.1 ih.2 h hA

/-! ### Programs -/

/-- Programs that end in the same way. -/
inductive Endings : Ending → Ending → Prop where
  | finished : Endings .finished .finished
  | faulted {f f' : Fault} : c.Faults f f' → Endings (.faulted f) (.faulted f')
  | exhausted : Endings .exhausted .exhausted

theorem run {program program' : List Stmt} (h : c.Body program program') (hm : c.Machines m m')
    (hA : c.Among ⟨.execAll program, { m with scope := Heap.globals, depth := 0 }, k⟩
      ⟨.execAll program', { m' with scope := Heap.globals, depth := 0 }, k⟩) (n : Nat) :
    c.Endings (m.run n program).1 (m'.run n program').1 ∧
      c.Machines (m.run n program).2 (m'.run n program').2 := by
  have hends := c.sequence (c.eval_exec n).2 h hA { hm with scope := rfl, depth := rfl }
  rw [Machine.run, Machine.run]
  generalize Run.sequence (exec n) program _ = r, Run.sequence (exec n) program' _ = r' at hends ⊢
  cases hends with
  | ok _ hm => exact ⟨.finished, hm⟩
  | fault hf hm => exact ⟨.faulted hf, hm⟩
  | exhausted hm => exact ⟨.exhausted, hm⟩

end Coupling
end Run
end Lox
