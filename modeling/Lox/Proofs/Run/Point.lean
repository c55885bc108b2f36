import Lox.Proofs.Run.Growth
import Mathlib.Logic.Relation

/-!
Points of a run. At a point some part of a program is about to be run on a machine. From there the
run comes to the parts of this part, one after the other, and in a call to what is called. Only
results of earlier parts decide what it comes to, so that the points of programs that go on for ever
are known as well as those of programs that end.
-/

namespace Lox

/-! ### Machines in new frames and in calls -/

/-- The machine in a new frame inside `i`. -/
def Machine.within (m : Machine) (i : FrameId) (vars : Bindings) : Machine :=
  { m with heap := (m.heap.push i vars).2, scope := m.heap.frames.size }

/-- The machine with one more call under way. -/
def Machine.calling (m : Machine) : Machine := { m with depth := m.depth + 1 }

/-- A machine in the frame it was in before, with as many calls under way, and with the same
clock. -/
structure Machine.Restored (m m' : Machine) : Prop where
  scope : m'.scope = m.scope
  depth : m'.depth = m.depth
  clock : m'.clock = m.clock

namespace Machine.Restored

variable {m m₁ m₂ : Machine}

theorem refl : Restored m m := ⟨rfl, rfl, rfl⟩

theorem trans (h : Restored m m₁) (h' : Restored m₁ m₂) : Restored m m₂ where
  scope := h'.scope.trans h.scope
  depth := h'.depth.trans h.depth
  clock := h'.clock.trans h.clock

end Machine.Restored

/-- A machine after parts of a program that have ended. -/
structure Machine.Continues (m m' : Machine) : Prop extends Machine.Restored m m' where
  heap : m.heap.Extends m'.heap

namespace Machine.Continues

variable {m m₁ m₂ : Machine}

theorem refl : Continues m m := ⟨.refl, .refl⟩

theorem trans (h : Continues m m₁) (h' : Continues m₁ m₂) : Continues m m₂ :=
  ⟨h.toRestored.trans h'.toRestored, h.heap.trans h'.heap⟩

end Machine.Continues

/-- What a call gives when the body of the function has ended. -/
def Flow.value : Flow → Value
  | .returned v => v
  | .next => .nil

namespace Run
open BigStep

variable {α : Type} {m m' : Machine} {n : Nat}

/-! ### What parts of a program do -/

theorem inFrame_eq {i : FrameId} {vars : Bindings} {act : Run α} :
    inFrame i vars act m =
      Step.mapState (fun m₁ => { m₁ with scope := m.scope }) (act (m.within i vars)) := by
  simp only [inFrame, Machine.within, Heap.push]
  cases act _ <;> rfl

theorem deeper_eq {act : Run α} :
    deeper act m = Step.mapState (fun m₁ => { m₁ with depth := m₁.depth - 1 }) (act m.calling) := by
  simp only [deeper, Machine.calling]
  cases act _ <;> rfl

/-- A run whose outcomes are among some `J` is restored at its end. -/
theorem SoundFor.restored {act : Run α}
    {J : (Nat → Option Float) → FrameId → Nat → Store → Outcome α → Store → Prop}
    (hact : ∀ κ, SoundFor κ act (J κ)) {r : Outcome α} (h : act m = result r m') :
    m.Restored m' ∧ J m.clock m.scope m.depth m.store r m'.store := by
  obtain ⟨σ, rfl, hJ⟩ := hact m.clock m.scope m.depth m.store r m' h
  exact ⟨⟨rfl, rfl, rfl⟩, hJ⟩

theorem eval_outcome {e : Expr} {r : Outcome Value} (h : eval n e m = result r m') :
    m.Restored m' ∧ Evaluates m.clock m.scope m.depth e m.store r m'.store :=
  SoundFor.restored (fun κ => (eval_exec_sound κ n).1 e) h

theorem mapM_outcome {es : List Expr} {r : Outcome (List Value)}
    (h : es.mapM (eval n) m = result r m') :
    m.Restored m' ∧ EvaluatesAll m.clock m.scope m.depth es m.store r m'.store :=
  SoundFor.restored (fun κ => mapM_sound (eval_exec_sound κ n).1 es) h

theorem call_outcome {t : Token} {v : Value} {vs : List Value} {r : Outcome Value}
    (h : call (exec n) t v vs m = result r m') :
    m.Restored m' ∧ Calls m.clock m.depth t v vs m.store r m'.store :=
  SoundFor.restored (J := fun κ _ d => Calls κ d t v vs)
    (fun κ => call_sound (eval_exec_sound κ n).2 t v vs) h

theorem exec_outcome {s : Stmt} {r : Outcome Flow} (h : exec n s m = result r m') :
    m.Restored m' ∧ Executes m.clock m.scope m.depth s m.store r m'.store :=
  SoundFor.restored (fun κ => (eval_exec_sound κ n).2 s) h

theorem sequence_outcome {ss : List Stmt} {r : Outcome Flow}
    (h : sequence (exec n) ss m = result r m') :
    m.Restored m' ∧ ExecutesAll m.clock m.scope m.depth ss m.store r m'.store :=
  SoundFor.restored (fun κ => sequence_sound (eval_exec_sound κ n).2 ss) h

theorem eval_continues {e : Expr} {v : Value} (h : eval n e m = .ok v m') : m.Continues m' :=
  have h := eval_outcome (r := .ok v) h
  ⟨h.1, h.2.grows.toExtends⟩

theorem mapM_continues {es : List Expr} {vs : List Value} (h : es.mapM (eval n) m = .ok vs m') :
    m.Continues m' :=
  have h := mapM_outcome (r := .ok vs) h
  ⟨h.1, h.2.grows.toExtends⟩

theorem exec_continues {s : Stmt} {flow : Flow} (h : exec n s m = .ok flow m') : m.Continues m' :=
  have h := exec_outcome (r := .ok flow) h
  ⟨h.1, h.2.grows.toExtends⟩

/-- A call that nothing speaks against runs the body in the frame of the call, and then gives up the
frame. -/
theorem call_runs {t : Token} {f : Closure} {vs : List Value} {r : Outcome Value}
    (harity : f.params.length = vs.length) (hdepth : m.depth < maxCallDepth)
    (h : call (exec n) t (.callable (.function f)) vs m = result r m') :
    ∃ flow m₁, sequence (exec n) f.body
        (m.calling.within f.frame (.ofArguments f.params vs)) = result flow m₁ ∧
      r = flow.map Flow.value ∧ m' = { m₁ with scope := m.scope, depth := m.depth } := by
  have hcall : call (exec n) t (.callable (.function f)) vs m =
      deeper (invoke (exec n) (.function f) vs) m :=
    call_deeper (σ := m.store) (κ := m.clock) (s := m.scope) harity hdepth
  rw [hcall] at h
  obtain ⟨m₁, hinvoke, rfl⟩ := (deeper_result (σ := m.store)).mp h
  -- the body leaves as many calls under way as it found, which is one more than before the call
  have hdown {flow : Outcome Flow} {m₃ : Machine} (hbody : sequence (exec n) f.body
      (m.calling.within f.frame (.ofArguments f.params vs)) = result flow m₃) :
      m₃.depth - 1 = m.depth := by
    rw [(sequence_outcome hbody).1.depth]
    rfl
  rcases bind_result.mp hinvoke with ⟨flow, m₂, hframe, hvalue⟩ | ⟨e, hframe, rfl⟩
  · obtain ⟨m₃, hbody, rfl⟩ := (inFrame_result (σ := m.store)).mp hframe
    refine ⟨.ok flow, m₃, hbody, ?_⟩
    cases flow with
    | next | returned =>
      obtain ⟨rfl, rfl⟩ := pure_result.mp hvalue
      exact ⟨rfl, by simp only [hdown hbody]⟩
  · obtain ⟨m₃, hbody, rfl⟩ := (inFrame_result (σ := m.store)).mp hframe
    exact ⟨.error e, m₃, hbody, rfl, by simp only [hdown hbody]⟩

/-! ### Points -/

/-- What is about to be run. -/
inductive Work where
  | eval (e : Expr)
  | evalAll (es : List Expr)
  | call (paren : Token) (callee : Value) (args : List Value)
  | clock
  | exec (s : Stmt)
  | execAll (ss : List Stmt)

/-- A point of a run. -/
structure Point where
  work : Work
  machine : Machine
  /-- How many calls, of functions and of the clock, the run is inside of. -/
  running : Nat

/-- The run comes from one point to another, with nothing of the program between the two but parts
that have been run to their end. -/
inductive Leads : Point → Point → Prop where
  | assign {x e m k} : Leads ⟨.eval (.assign x e), m, k⟩ ⟨.eval e, m, k⟩
  | unary {op e m k} : Leads ⟨.eval (.unary op e), m, k⟩ ⟨.eval e, m, k⟩
  | grouping {e m k} : Leads ⟨.eval (.grouping e), m, k⟩ ⟨.eval e, m, k⟩
  | left {l op r m k} : Leads ⟨.eval (.binary l op r), m, k⟩ ⟨.eval l, m, k⟩
  | right {l op r m k n a m₁} : Run.eval n l m = .ok a m₁ →
      Leads ⟨.eval (.binary l op r), m, k⟩ ⟨.eval r, m₁, k⟩
  | decider {l op r m k} : Leads ⟨.eval (.logical l op r), m, k⟩ ⟨.eval l, m, k⟩
  | undecided {l op r m k n a m₁} : Run.eval n l m = .ok a m₁ → ¬decides op a = true →
      Leads ⟨.eval (.logical l op r), m, k⟩ ⟨.eval r, m₁, k⟩
  | callee {f t args m k} : Leads ⟨.eval (.call f t args), m, k⟩ ⟨.eval f, m, k⟩
  | arguments {f t args m k n v m₁} : Run.eval n f m = .ok v m₁ →
      Leads ⟨.eval (.call f t args), m, k⟩ ⟨.evalAll args, m₁, k⟩
  | called {f t args m k n v m₁ vs m₂} : Run.eval n f m = .ok v m₁ →
      args.mapM (Run.eval n) m₁ = .ok vs m₂ →
      Leads ⟨.eval (.call f t args), m, k⟩ ⟨.call t v vs, m₂, k⟩
  | first {e es m k} : Leads ⟨.evalAll (e :: es), m, k⟩ ⟨.eval e, m, k⟩
  | others {e es m k n v m₁} : Run.eval n e m = .ok v m₁ →
      Leads ⟨.evalAll (e :: es), m, k⟩ ⟨.evalAll es, m₁, k⟩
  | body {t f vs m k} : f.params.length = vs.length → m.depth < maxCallDepth →
      Leads ⟨.call t (.callable (.function f)) vs, m, k⟩
        ⟨.execAll f.body, m.calling.within f.frame (.ofArguments f.params vs), k + 1⟩
  | clock {t m k} : m.depth < maxCallDepth →
      Leads ⟨.call t (.callable .clock) [], m, k⟩ ⟨.clock, m.calling, k + 1⟩
  | expression {e m k} : Leads ⟨.exec (.expression e), m, k⟩ ⟨.eval e, m, k⟩
  | print {t e m k} : Leads ⟨.exec (.print t e), m, k⟩ ⟨.eval e, m, k⟩
  | init {x e m k} : Leads ⟨.exec (.var x (some e)), m, k⟩ ⟨.eval e, m, k⟩
  | ret {t e m k} : Leads ⟨.exec (.ret t (some e)), m, k⟩ ⟨.eval e, m, k⟩
  | block {ss m k} : Leads ⟨.exec (.block ss), m, k⟩ ⟨.execAll ss, m.within m.scope [], k⟩
  | condition {c yes no m k} : Leads ⟨.exec (.branch c yes no), m, k⟩ ⟨.eval c, m, k⟩
  | yes {c yes no m k n v m₁} : Run.eval n c m = .ok v m₁ → v.truthy = true →
      Leads ⟨.exec (.branch c yes no), m, k⟩ ⟨.exec yes, m₁, k⟩
  | no {c yes no m k n v m₁} : Run.eval n c m = .ok v m₁ → ¬v.truthy = true →
      Leads ⟨.exec (.branch c yes (some no)), m, k⟩ ⟨.exec no, m₁, k⟩
  | test {c body m k} : Leads ⟨.exec (.loop c body), m, k⟩ ⟨.eval c, m, k⟩
  | round {c body m k n v m₁} : Run.eval n c m = .ok v m₁ → v.truthy = true →
      Leads ⟨.exec (.loop c body), m, k⟩ ⟨.exec body, m₁, k⟩
  | again {c body m k n v m₁ m₂} : Run.eval n c m = .ok v m₁ → v.truthy = true →
      Run.exec n body m₁ = .ok .next m₂ →
      Leads ⟨.exec (.loop c body), m, k⟩ ⟨.exec (.loop c body), m₂, k⟩
  | head {s ss m k} : Leads ⟨.execAll (s :: ss), m, k⟩ ⟨.exec s, m, k⟩
  | tail {s ss m k n m₁} : Run.exec n s m = .ok .next m₁ →
      Leads ⟨.execAll (s :: ss), m, k⟩ ⟨.execAll ss, m₁, k⟩

/-- The run comes from one point to another, in any number of steps. -/
abbrev LeadsOn : Point → Point → Prop := Relation.ReflTransGen Leads

/-- What becomes of a machine between two points: parts of the program are run on it to their end,
or it gets a new frame, or a call that is still allowed is started. -/
inductive Moves : Machine → Nat → Machine → Nat → Prop where
  | finished {m k m₁} : m.Continues m₁ → Moves m k m₁ k
  | block {m k} : Moves m k (m.within m.scope []) k
  | body {m k} (i : FrameId) (vars : Bindings) : m.depth < maxCallDepth →
      Moves m k (m.calling.within i vars) (k + 1)
  | clock {m k} : m.depth < maxCallDepth → Moves m k m.calling (k + 1)

variable {p q : Point}

theorem Leads.moves (h : Leads p q) : Moves p.machine p.running q.machine q.running := by
  cases h with
  | right h | undecided h _ | arguments h | others h | yes h _ | no h _ | round h _ =>
    exact .finished (eval_continues h)
  | called hf hargs => exact .finished ((eval_continues hf).trans (mapM_continues hargs))
  | again hc _ hbody => exact .finished ((eval_continues hc).trans (exec_continues hbody))
  | tail hs => exact .finished (exec_continues hs)
  | body _ hd => exact .body _ _ hd
  | clock hd => exact .clock hd
  | block => exact .block
  | _ => exact .finished .refl

theorem Moves.kept {m₁ : Machine} {k k₁ : Nat} (h : Moves m k m₁ k₁) :
    m.heap.Extends m₁.heap := by
  cases h with
  | finished h => exact h.heap
  | block | body _ _ _ => exact .push
  | clock _ => exact .refl

/-- Frames stay between points, and keep the frames around them and their names. -/
theorem LeadsOn.kept (h : LeadsOn p q) : p.machine.heap.Extends q.machine.heap := by
  induction h with
  | refl => exact .refl
  | tail _ hq ih => exact ih.trans hq.moves.kept

/-- As many calls are under way as the run is inside of, and not too many. -/
structure Counted (m : Machine) (running : Nat) : Prop where
  depth : m.depth = running
  bounded : running ≤ maxCallDepth

theorem Moves.counted {m₁ : Machine} {k k₁ : Nat} (h : Moves m k m₁ k₁) (hm : Counted m k) :
    Counted m₁ k₁ := by
  obtain ⟨hdepth, hbounded⟩ := hm
  cases h with
  | finished h => exact ⟨h.depth.trans hdepth, hbounded⟩
  | block => exact ⟨hdepth, hbounded⟩
  | body _ _ hd | clock hd => exact ⟨congrArg (· + 1) hdepth, by omega⟩

theorem LeadsOn.counted (h : LeadsOn p q) (hp : Counted p.machine p.running) :
    Counted q.machine q.running := by
  induction h with
  | refl => exact hp
  | tail _ hq ih => exact hq.moves.counted ih

end Run
end Lox
