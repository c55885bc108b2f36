import Lox.Proofs.Run.Isolation

/-!
Lexical isolation. What is run depends on the frames that can be reached from the current one, and
changes no others. A call only depends on those around the frames in which the functions that it can
reach were declared, so that the variables of the caller are hidden from it unless a function brings
them along.
-/

namespace Lox

/-! ### What a call can reach -/

namespace Heap

/-- The frame `j` is `i` or on the way out from it. -/
def Around (h : Heap) : FrameId → FrameId → Prop := Relation.ReflTransGen h.Inside

/-- The functions that can be reached from `vs`: those among `vs`, and those that are bound in
frames around the frame in which such a function was declared. -/
inductive CanCall (h : Heap) (vs : List Value) : Closure → Prop where
  | given {f} : .callable (.function f) ∈ vs → CanCall h vs f
  | held {f i x g} : CanCall h vs f → h.Around f.frame i →
      h.own? x i = some (.callable (.function g)) → CanCall h vs g

/-- The frames that are there, but not around a frame in which such a function was declared. -/
def Beyond (h : Heap) (vs : List Value) (i : FrameId) : Prop :=
  i < h.frames.size ∧ ∀ f, h.CanCall vs f → ¬h.Around f.frame i

variable {h : Heap} {vs : List Value} {i j : FrameId}

theorem hides_beyond (h : Heap) (vs : List Value) : h.Hides (h.Beyond vs) where
  there _ hi := hi.1
  outer i j hi hij hj := by
    refine hi ⟨hij.lt_size, fun f hf hfi => ?_⟩
    exact hj.2 f hf (hfi.tail hij)
  clear i x v hi hv g hg hframe := by
    refine hi ⟨lt_size_of_own? hv, fun f hf hfi => ?_⟩
    exact hframe.2 g (.held hf hfi (hg ▸ hv)) .refl

theorem clear_beyond {v : Value} (hv : v ∈ vs) : v.Clear (h.Beyond vs) :=
  fun f hf hframe => hframe.2 f (.given (hf ▸ hv)) .refl

end Heap

namespace Run

variable {α : Type} {m : Machine} {n : Nat}

/-- Whatever `act` comes to from `m`, it leaves the frames among `U` as they are, and if those are
changed beforehand, it comes to the same and leaves the same machine but for these frames. -/
def Ignores (act : Run α) (m : Machine) (U : FrameId → Prop) : Prop :=
  ∀ r m₁, act m = result r m₁ →
    (∀ i, U i → m₁.heap.frames[i]? = m.heap.frames[i]?) ∧
    ∀ h, m.heap.Agrees U h → ∃ h₁, act { m with heap := h } = result r { m₁ with heap := h₁ } ∧
      m₁.heap.Agrees U h₁ ∧ ∀ i, U i → h₁.frames[i]? = h.frames[i]?

/-- Runs that are isolated from hidden frames ignore them. -/
theorem Ignores.of_alike {act : Run α} {U : FrameId → Prop} {R : Heap → α → Prop}
    (hact : ∀ h, m.heap.Agrees U h → Alike U m.heap h R (act m) (act { m with heap := h })) :
    Ignores act m U := by
  have hisolated : ∀ r m₁, act m = result r m₁ → ∀ h, m.heap.Agrees U h →
      ∃ h₁, act { m with heap := h } = result r { m₁ with heap := h₁ } ∧
        Isolated U m.heap h m₁ h₁ := by
    intro r m₁ hrun h hh
    have halike := hact h hh
    rw [hrun] at halike
    generalize act { m with heap := h } = y at halike ⊢
    cases r with
    | ok a =>
      cases halike with
      | ok hiso _ => exact ⟨_, rfl, hiso⟩
    | error f =>
      cases halike with
      | error hiso => exact ⟨_, rfl, hiso⟩
  intro r m₁ hrun
  obtain ⟨_, -, hiso⟩ := hisolated r m₁ hrun m.heap .refl
  refine ⟨hiso.kept, fun h hh => ?_⟩
  obtain ⟨h₁, hsame, hiso⟩ := hisolated r m₁ hrun h hh
  exact ⟨h₁, hsame, hiso.agrees, hiso.keptToo⟩

/-! ### Calls -/

theorem inFrame_scope {act : Run α} {i : FrameId} {vars : Bindings} (s : FrameId) :
    inFrame i vars act { m with scope := s } =
      Step.mapState (fun m₁ => { m₁ with scope := s }) (inFrame i vars act m) := by
  rw [inFrame_eq, inFrame_eq, show Machine.within { m with scope := s } i vars = m.within i vars
    from rfl]
  cases act (m.within i vars) <;> rfl

theorem invoke_scope {c : Callable} {vs : List Value} (s : FrameId) :
    invoke (exec n) c vs { m with scope := s } =
      Step.mapState (fun m₁ => { m₁ with scope := s }) (invoke (exec n) c vs m) := by
  cases c with
  | clock =>
    simp only [invoke, tick]
    cases m.clock m.ticks <;> rfl
  | function f =>
    rw [invoke]
    simp only [bind, EStateM.bind, inFrame_scope s]
    cases inFrame f.frame (.ofArguments f.params vs) (sequence (exec n) f.body) m with
    | ok flow m₁ => cases flow <;> rfl
    | error e m₁ => rfl

/-- A call does not look at the frame it is made from. -/
theorem call_scope {t : Token} {v : Value} {vs : List Value} (s : FrameId) :
    call (exec n) t v vs { m with scope := s } =
      Step.mapState (fun m₁ => { m₁ with scope := s }) (call (exec n) t v vs m) := by
  cases v with
  | callable c =>
    by_cases harity : c.arity = vs.length
    · simp only [call, if_neg (not_not_intro harity), guard_eq]
      split
      · rfl
      · rw [deeper_eq, deeper_eq, show Machine.calling { m with scope := s } =
          { m.calling with scope := s } from rfl, invoke_scope]
        cases invoke (exec n) c vs m.calling <;> rfl
    · rw [call_wrongArity harity]
      rfl
  | _ => rfl

theorem mapState_result {g : Machine → Machine} {x : EStateM.Result Halt Machine α} {r : Outcome α}
    {m₁ : Machine} (h : x = result r m₁) : Step.mapState g x = result r (g m₁) := by
  subst h
  cases r <;> rfl

/-- A call made from a frame that is not beyond the functions that it can reach. -/
theorem call_ignores_from {t : Token} {v : Value} {vs : List Value}
    (hscope : ¬m.heap.Beyond (v :: vs) m.scope) :
    Ignores (call (exec n) t v vs) m (m.heap.Beyond (v :: vs)) :=
  .of_alike <| (isolation _).call (k := 0) ((isolation _).eval_exec n).2
    (Heap.clear_beyond List.mem_cons_self)
    (fun _ hw => Heap.clear_beyond (List.mem_cons_of_mem _ hw)) trivial
    ⟨Heap.hides_beyond _ _, hscope⟩

/-- A call ignores the frames beyond the functions that it can reach. -/
theorem call_ignores {t : Token} {v : Value} {vs : List Value} :
    Ignores (call (exec n) t v vs) m (m.heap.Beyond (v :: vs)) := by
  -- the call is as good as one made from a frame that is not there yet
  have hignores := call_ignores_from (m := { m with scope := m.heap.frames.size }) (n := n) (t := t)
    (Heap.hides_beyond m.heap (v :: vs)).not_fresh
  intro r m₁ hrun
  have hfresh := (call_scope m.heap.frames.size).trans (mapState_result hrun)
  obtain ⟨hkept, hsame⟩ := hignores r _ hfresh
  refine ⟨hkept, fun h hh => ?_⟩
  obtain ⟨h₁, hrun₁, hagrees, hkept₁⟩ := hsame h hh
  refine ⟨h₁, ?_, hagrees, hkept₁⟩
  rw [← (call_outcome hrun).1.scope]
  exact (call_scope _).trans (mapState_result hrun₁)

end Run

/-- What is run depends on no frame that cannot be reached from the current one, and changes none.
A call of a function only depends on the frames around those in which the function was declared, or
a function that it can reach by them or by its arguments; in particular, it neither reads nor
changes the variables of its caller otherwise. -/
theorem Machine.lexically_isolated (m : Machine) :
    (∀ n e, Run.Ignores (Run.eval n e) m (m.heap.Hidden (· = m.scope))) ∧
    (∀ n s, Run.Ignores (Run.exec n s) m (m.heap.Hidden (· = m.scope))) ∧
    (∀ n t f vs, Run.Ignores (Run.call (Run.exec n) t (.callable (.function f)) vs) m
      (m.heap.Beyond (.callable (.function f) :: vs))) := by
  have hunaware : Run.Unaware (m.heap.Hidden (· = m.scope)) m :=
    ⟨Heap.hides_hidden _ _, fun hhidden => hhidden.2 (.root rfl)⟩
  refine ⟨fun n e => ?_, fun n s => ?_, fun n t f vs => Run.call_ignores⟩
  · exact .of_alike (((Run.isolation _).eval_exec n).1 e m 0 trivial hunaware)
  · exact .of_alike (((Run.isolation _).eval_exec n).2 s m 0 trivial hunaware)

/-- A global function is called in a block with a variable `x`, for which its body looks in vain. -/
theorem Machine.lexically_isolated_caller :
    let x : Token := ⟨.identifier, "x", 1, 10, 5, .nil⟩
    let f : Closure := ⟨0, ⟨.identifier, "f", 1, 4, 1, .nil⟩, [], [.expression (.variable x)], 0⟩
    let paren : Token := ⟨.rightParen, ")", 1, 25, 14, .nil⟩
    let heap (v : Value) : Heap := ⟨#[⟨[], [("f", .callable (.function f))]⟩, ⟨[0], [("x", v)]⟩]⟩
    let m : Machine := { Machine.start (fun _ => 0) .unlimited with heap := heap .nil, scope := 1 }
    m.heap.Beyond [.callable (.function f)] 1 ∧ ∀ v, ∃ m₁,
      Run.call (Run.exec 2) paren (.callable (.function f)) [] { m with heap := heap v } =
        Run.result (.error ⟨.undefinedVariable, x⟩) m₁ := by
  intro x f paren heap m
  have hinside : ∀ i, m.heap.Around 0 i → i = 0 := by
    intro i hi
    induction hi with
    | refl => rfl
    | tail _ hstep ih =>
      obtain ⟨o, ho, hmem⟩ := hstep
      rw [ih] at ho
      cases ho
      cases hmem
  have hcalled : ∀ g, m.heap.CanCall [.callable (.function f)] g → g.frame = 0 := by
    intro g hg
    induction hg with
    | given hmem =>
      cases List.mem_singleton.mp hmem
      rfl
    | @held _ i y g _ hi hv ih =>
      obtain rfl := hinside i (ih ▸ hi)
      have hv : List.lookup y [("f", Value.callable (.function f))] =
        some (.callable (.function g)) := hv
      rw [List.lookup_cons] at hv
      split at hv
      · cases hv
        rfl
      · cases hv
  have hbeyond : m.heap.Beyond [.callable (.function f)] 1 :=
    ⟨by decide, fun g hg hi => absurd (hinside 1 (hcalled g hg ▸ hi)) (by decide)⟩
  refine ⟨hbeyond, fun v => ?_⟩
  have hrun : Run.call (Run.exec 2) paren (.callable (.function f)) [] m =
      Run.result (.error ⟨.undefinedVariable, x⟩) _ := rfl
  obtain ⟨-, -, hcalls⟩ := Machine.lexically_isolated m
  obtain ⟨-, hsame⟩ := hcalls 2 paren f [] _ _ hrun
  have hagrees : m.heap.Agrees (m.heap.Beyond [.callable (.function f)]) (heap v) := by
    refine ⟨rfl, fun i hi => ?_⟩
    match i with
    | 0 => rfl
    | 1 => exact absurd hbeyond hi
    | i + 2 => rfl
  obtain ⟨h₁, hsame, -⟩ := hsame _ hagrees
  exact ⟨_, hsame⟩

end Lox
