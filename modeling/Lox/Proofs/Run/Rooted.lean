import Lox.Proofs.Run.Logic
import Mathlib.Data.List.Chain

/-!
Frames and functions that have their places. The frames around a frame go out to the global one,
older and older, and functions are declared in frames that are there. No step of a program breaks
this, whichever way it ends.
-/

namespace Lox

/-! ### Frames around frames -/

/-- The global frame has none around it, and every other frame is inside an older one. -/
structure Heap.Rooted (h : Heap) : Prop where
  globals : h.outer? Heap.globals = some []
  inner : ∀ i < h.frames.size, i ≠ Heap.globals → ∃ j < i, h.outer? i = some (h.chain j)

namespace Heap

variable {h : Heap} {i j : FrameId} {vars : Bindings} {x : String} {v : Value}

theorem chain_of_outer? {o : List FrameId} (ho : h.outer? i = some o) : h.chain i = i :: o := by
  rw [chain_eq, ho]
  rfl

theorem enclosing?_of_outer? (hj : j < h.frames.size) (ho : h.outer? i = some (h.chain j)) :
    h.enclosing? i = some j := by
  obtain ⟨o, hjo⟩ := Option.isSome_iff_exists.mp (outer?_isSome.mpr hj)
  rw [enclosing?, ho, chain_of_outer? hjo]
  rfl

namespace Rooted

theorem start : Rooted .start where
  globals := rfl
  inner _ hi hne := absurd (Nat.lt_one_iff.mp hi) hne

theorem define (hr : h.Rooted) : (h.define x v i).Rooted where
  globals := outer?_define.trans hr.globals
  inner j hj hne := by
    rw [size_define] at hj
    simpa using hr.inner j hj hne

theorem push (hr : h.Rooted) (hi : i < h.frames.size) : (h.push i vars).2.Rooted where
  globals := (outer?_push_of_lt (lt_size_of_outer? hr.globals)).trans hr.globals
  inner j hj hne := by
    rcases lt_or_eq_of_lt_push hj with hj | rfl
    · obtain ⟨l, hl, ho⟩ := hr.inner j hj hne
      refine ⟨l, hl, ?_⟩
      rw [outer?_push_of_lt hj, chain_push_of_lt (Nat.lt_trans hl hj), ho]
    · refine ⟨i, hi, ?_⟩
      rw [outer?_push_self, chain_push_of_lt hi]

/-- What holds of the global frame, and of a frame if of the one around it, holds of all frames. -/
theorem outwards (hr : h.Rooted) (P : FrameId → Prop) (hglobals : P Heap.globals)
    (hinner : ∀ i j, j < i → i < h.frames.size → h.outer? i = some (h.chain j) → P j → P i) :
    ∀ i < h.frames.size, P i := by
  intro i
  induction i using Nat.strongRecOn with
  | _ i ih =>
    intro hi
    by_cases hne : i = Heap.globals
    · rwa [hne]
    · obtain ⟨j, hj, ho⟩ := hr.inner i hi hne
      exact hinner i j hj hi ho (ih j hj (Nat.lt_trans hj hi))

theorem chain_globals (hr : h.Rooted) : h.chain Heap.globals = [Heap.globals] :=
  chain_of_outer? hr.globals

theorem enclosing?_globals (hr : h.Rooted) : h.enclosing? Heap.globals = none := by
  rw [enclosing?, hr.globals]
  rfl

theorem head?_chain (hi : i < h.frames.size) : (h.chain i).head? = some i := by
  obtain ⟨o, ho⟩ := Option.isSome_iff_exists.mp (outer?_isSome.mpr hi)
  rw [chain_of_outer? ho]
  rfl

/-- Of the frames from `i` out, each is next around the one before it. -/
theorem chain_linked (hr : h.Rooted) : ∀ i < h.frames.size,
    (h.chain i).IsChain fun a b => h.enclosing? a = some b := by
  refine hr.outwards _ ?_ fun i j hj hi ho ih => ?_
  · rw [hr.chain_globals]
    exact .singleton _
  · rw [chain_of_outer? ho, List.isChain_cons]
    refine ⟨fun b hb => ?_, ih⟩
    rw [head?_chain (Nat.lt_trans hj hi)] at hb
    obtain rfl := Option.some.inj hb
    exact enclosing?_of_outer? (Nat.lt_trans hj hi) ho

/-- The frames from `i` out are older and older. -/
theorem chain_older (hr : h.Rooted) : ∀ i < h.frames.size,
    (h.chain i).Pairwise (· > ·) ∧ ∀ j ∈ h.chain i, j ≤ i := by
  refine hr.outwards _ ?_ fun i j hj hi ho ⟨hpair, hle⟩ => ?_
  · simp [hr.chain_globals]
  · rw [chain_of_outer? ho]
    refine ⟨List.pairwise_cons.mpr ⟨fun l hl => Nat.lt_of_le_of_lt (hle l hl) hj, hpair⟩, ?_⟩
    intro l hl
    rcases List.mem_cons.mp hl with rfl | hl
    · exact Nat.le_refl _
    · exact Nat.le_trans (hle l hl) (Nat.le_of_lt hj)

theorem chain_nodup (hr : h.Rooted) (hi : i < h.frames.size) : (h.chain i).Nodup :=
  (hr.chain_older i hi).1.imp Nat.ne_of_gt

/-- The last frame from `i` out is the global one. -/
theorem getLast?_chain (hr : h.Rooted) : ∀ i < h.frames.size,
    (h.chain i).getLast? = some Heap.globals := by
  refine hr.outwards _ ?_ fun i j _ _ ho ih => ?_
  · simp [hr.chain_globals]
  · rw [chain_of_outer? ho, List.getLast?_cons, ih]
    rfl

end Rooted
end Heap

/-! ### Values in frames -/

/-- If a value is a function, it was declared in a frame that is there, and is among `D`. -/
def Value.Known (D : Closure → Prop) (h : Heap) (v : Value) : Prop :=
  ∀ f, v = .callable (.function f) → f.frame < h.frames.size ∧ D f

/-- Frames and the functions bound in them have their places. -/
structure Heap.Sound (D : Closure → Prop) (h : Heap) : Prop extends h.Rooted where
  known : ∀ i x v, h.own? x i = some v → v.Known D h

/-- A machine whose frames and functions have their places, in a frame that is there. -/
structure Machine.Sound (D : Closure → Prop) (m : Machine) : Prop where
  heap : m.heap.Sound D
  scope : m.scope < m.heap.frames.size

section
variable {D : Closure → Prop} {h h' : Heap} {x : String} {v : Value} {i : FrameId}
  {vars : Bindings}

theorem Value.Known.of_plain (hv : v.Plain) : v.Known D h := fun f hf => absurd hf (hv f)

theorem Value.Known.mono (hsize : h.frames.size ≤ h'.frames.size) (hv : v.Known D h) :
    v.Known D h' := by
  intro f hf
  obtain ⟨hframe, hD⟩ := hv f hf
  exact ⟨Nat.lt_of_lt_of_le hframe hsize, hD⟩

theorem Heap.Sound.define (hs : h.Sound D) (hv : v.Known D h) : (h.define x v i).Sound D where
  toRooted := hs.toRooted.define
  known j y w hw := by
    refine Value.Known.mono (Nat.le_of_eq size_define.symm) ?_
    rcases own?_define_cases hw with rfl | hw
    · exact hv
    · exact hs.known j y w hw

theorem Heap.Sound.push (hs : h.Sound D) (hi : i < h.frames.size)
    (hvars : ∀ x v, vars.lookup x = some v → v.Known D h) : (h.push i vars).2.Sound D where
  toRooted := hs.toRooted.push hi
  known j y w hw := by
    refine Value.Known.mono Extends.push.size ?_
    rcases own?_push_cases hw with hw | ⟨-, hw⟩
    · exact hs.known j y w hw
    · exact hvars y w hw

theorem Heap.Sound.start : Heap.start.Sound D where
  toRooted := .start
  known i x v hv := by
    have hi : i = 0 := Nat.lt_one_iff.mp (lt_size_of_own? hv)
    subst hi
    have hclock : v = .callable .clock := by
      have hv : List.lookup x [("clock", Value.callable .clock)] = some v := hv
      rw [List.lookup_cons] at hv
      split at hv
      · exact (Option.some.inj hv).symm
      · cases hv
    exact .of_plain (by rw [hclock]; exact nofun)

variable {m : Machine}

theorem Machine.Sound.within (hm : m.Sound D) (hi : i < m.heap.frames.size)
    (hvars : ∀ x v, vars.lookup x = some v → v.Known D m.heap) : (m.within i vars).Sound D where
  heap := hm.heap.push hi hvars
  scope := Nat.lt_of_lt_of_eq (Nat.lt_succ_self _) Heap.size_push.symm

theorem Value.Known.ofArguments {ps : List Token} {vs : List Value}
    (hvs : ∀ v ∈ vs, v.Known D h) (x : String) (v : Value)
    (hv : (Bindings.ofArguments ps vs).lookup x = some v) : v.Known D h :=
  hvs v (Bindings.mem_of_lookup_ofArguments hv)

theorem Machine.Sound.calling (hm : m.Sound D) : m.calling.Sound D := ⟨hm.heap, hm.scope⟩

end

/-! ### Steps of the machine -/

namespace Run

variable {α : Type}

/-- A run has ended on a machine with `P`, and with a result among `R` if it has one. -/
inductive After (P : Machine → Prop) (R : Heap → α → Prop) :
    EStateM.Result Halt Machine α → Prop where
  | ok {a m} : P m → R m.heap a → After P R (.ok a m)
  | error {e m} : P m → After P R (.error e m)

namespace After

variable {P P' : Machine → Prop} {R : Heap → α → Prop} {x : EStateM.Result Halt Machine α}

theorem imp (h : After P R x) (hP : ∀ m, P m → P' m) : After P' R x := by
  cases h with
  | ok hm hR => exact .ok (hP _ hm) hR
  | error hm => exact .error (hP _ hm)

theorem mapState (g : Machine → Machine) (h : After P R x) (hg : ∀ m, (g m).heap = m.heap)
    (hP : ∀ m, P m → P' (g m)) : After P' R (Step.mapState g x) := by
  cases h with
  | ok hm hR => exact .ok (hP _ hm) ((hg _).symm ▸ hR)
  | error hm => exact .error (hP _ hm)

end After

theorem After.of_ok {P : Machine → Prop} {R : Heap → α → Prop} {x : EStateM.Result Halt Machine α}
    {a : α} {m : Machine} (h : After P R x) (hx : x = .ok a m) : P m ∧ R m.heap a := by
  subst hx
  cases h with
  | ok hm hR => exact ⟨hm, hR⟩

/-- Where a run from `m` has come to. -/
structure Soundly (D : Closure → Prop) (m m' : Machine) : Prop extends m'.Sound D where
  size : m.heap.frames.size ≤ m'.heap.frames.size

theorem Soundly.trans {D : Closure → Prop} {m m₁ m₂ : Machine} (h : Soundly D m m₁)
    (h' : Soundly D m₁ m₂) : Soundly D m m₂ :=
  ⟨h'.toSound, Nat.le_trans h.size h'.size⟩

theorem nearest?_known {D : Closure → Prop} {h : Heap} (hs : h.Sound D) {x : String}
    {s i : FrameId} {v : Value} (hv : h.nearest? x s = some (i, v)) : v.Known D h :=
  hs.known _ _ _ (nearest?_eq_some.mp hv).own

/-- What is run in a new frame leaves the frame when it has ended. -/
theorem inFrame_soundly {D : Closure → Prop} {R : Heap → α → Prop} {x : Run α} {m : Machine}
    {outer : FrameId} {vars : Bindings} (hm : m.Sound D) (houter : outer < m.heap.frames.size)
    (hvars : ∀ x v, vars.lookup x = some v → v.Known D m.heap)
    (hx : (m.within outer vars).Sound D →
      After (Soundly D (m.within outer vars)) R (x (m.within outer vars))) :
    After (Soundly D m) R (inFrame outer vars x m) := by
  rw [inFrame_eq]
  refine (hx (hm.within houter hvars)).mapState _ (fun _ => rfl) fun m' hm' => ?_
  have hle : m.heap.frames.size ≤ m'.heap.frames.size :=
    Nat.le_trans Heap.Extends.push.size hm'.size
  exact ⟨⟨hm'.heap, Nat.lt_of_lt_of_le hm.scope hle⟩, hle⟩

/-- Steps of sound machines lead to sound machines. The functions among `D` are those that come from
declarations at the points `A`. -/
def soundness (A : Point → Prop) (leads : ∀ {p q}, A p → Leads p q → A q) (D : Closure → Prop)
    (declared : ∀ {x ps body m k}, A ⟨.exec (.function x ps body), m, k⟩ →
      D ⟨m.made, x, ps, body, m.scope⟩) : Logic where
  Among := A
  leads := leads
  Good := fun h v => v.Known D h
  plain := .of_plain
  mono := fun h => .mono h.size
  Holds := fun R x m => m.Sound D → After (Soundly D m) R (x m)
  pure := fun hR hm => .ok ⟨hm, Nat.le_refl _⟩ hR
  bind := by
    intro _ _ _ _ x f m hx hf hm
    have hx := hx hm
    cases hres : x m with
    | ok a m₁ =>
      rw [Step.bind_of_ok hres]
      rw [hres] at hx
      cases hx with
      | ok hm₁ hR => exact (hf a m₁ hres hR hm₁.toSound).imp fun _ => hm₁.trans
    | error e m₁ =>
      rw [Step.bind_of_error hres]
      rw [hres] at hx
      cases hx with
      | error hm₁ => exact .error hm₁
  exhausted := fun hm => .error ⟨hm, Nat.le_refl _⟩
  raise := fun _ _ _ hm => .error ⟨hm, Nat.le_refl _⟩
  readName := by
    intro x m hm
    rw [readName]
    cases hv : m.heap.nearest? x.lexeme m.scope with
    | none => exact .error ⟨hm, Nat.le_refl _⟩
    | some b => exact .ok ⟨hm, Nat.le_refl _⟩ (nearest?_known hm.heap hv)
  assign := by
    intro x v m hv hm
    rw [assign]
    cases m.heap.nearest? x.lexeme m.scope with
    | none => exact .error ⟨hm, Nat.le_refl _⟩
    | some b =>
      have hsize : m.heap.frames.size = (m.heap.define x.lexeme v b.1).frames.size :=
        Heap.size_define.symm
      exact .ok ⟨⟨hm.heap.define hv, hsize ▸ hm.scope⟩, Nat.le_of_eq hsize⟩
        (hv.mono (Nat.le_of_eq hsize))
  define := by
    intro x v m hv hm
    have hsize : m.heap.frames.size = (m.heap.define x v m.scope).frames.size :=
      Heap.size_define.symm
    exact .ok ⟨⟨hm.heap.define hv, hsize ▸ hm.scope⟩, Nat.le_of_eq hsize⟩ trivial
  declare := by
    intro x ps body m k hA hm
    have hsize : ∀ v, m.heap.frames.size = (m.heap.define x.lexeme v m.scope).frames.size :=
      fun _ => Heap.size_define.symm
    have hknown : (Value.callable (.function ⟨m.made, x, ps, body, m.scope⟩)).Known D m.heap := by
      rintro _ ⟨rfl⟩
      exact ⟨hm.scope, declared hA⟩
    exact .ok ⟨⟨hm.heap.define hknown, hsize _ ▸ hm.scope⟩, Nat.le_of_eq (hsize _)⟩ trivial
  printLine := by
    intro t e n v m₀ m k _ _ hm
    rw [printLine]
    cases m.out.write (v.text ++ "\n") with
    | mk refusal out =>
      cases refusal with
      | none => exact .ok ⟨⟨hm.heap, hm.scope⟩, Nat.le_refl _⟩ trivial
      | some r => exact .error ⟨⟨hm.heap, hm.scope⟩, Nat.le_refl _⟩
  tick := by
    intro m hm
    rw [tick]
    cases m.clock m.ticks with
    | none => exact .error ⟨hm, Nat.le_refl _⟩
    | some x => exact .ok ⟨⟨hm.heap, hm.scope⟩, Nat.le_refl _⟩ (.of_plain (.num x))
  block := fun hx hm => inFrame_soundly hm hm.scope nofun hx
  enter := fun hf hvs hx hm =>
    inFrame_soundly hm (hf _ rfl).1 (Value.Known.ofArguments hvs) hx
  guard := by
    intro _ _ x y m hx hy hm
    rw [guard_eq]
    split
    · next hdepth => exact hx hdepth hm
    · next hdepth => exact hy (Nat.not_le.mp hdepth) hm
  deeper := fun hx hm => deeper_eq ▸ (hx hm.calling).mapState _ (fun _ => rfl)
    fun _ hm' => ⟨⟨hm'.heap, hm'.scope⟩, hm'.size⟩

/-! ### Points -/

/-- At a point the machine has its places in order, and so have the values of a call. -/
structure Point.Sound (D : Closure → Prop) (p : Point) : Prop where
  machine : p.machine.Sound D
  call {t v vs} : p.work = .call t v vs → ∀ w ∈ v :: vs, w.Known D p.machine.heap

section
variable {A : Point → Prop} (leads : ∀ {p q}, A p → Leads p q → A q) {D : Closure → Prop}
  (declared : ∀ {x ps body m k}, A ⟨.exec (.function x ps body), m, k⟩ →
    D ⟨m.made, x, ps, body, m.scope⟩)
  {m m₁ : Machine} {k n : Nat} {p q : Point}

include leads declared

theorem eval_soundly {e : Expr} {v : Value} (hA : A ⟨.eval e, m, k⟩) (hm : m.Sound D)
    (h : eval n e m = .ok v m₁) : m₁.Sound D ∧ v.Known D m₁.heap :=
  have hafter := ((soundness A leads D declared).eval_exec n).1 e m k hA hm
  (hafter.of_ok h).imp_left Soundly.toSound

theorem mapM_soundly {es : List Expr} {vs : List Value} (hA : A ⟨.evalAll es, m, k⟩)
    (hm : m.Sound D) (h : es.mapM (eval n) m = .ok vs m₁) :
    m₁.Sound D ∧ ∀ v ∈ vs, v.Known D m₁.heap :=
  have heval := ((soundness A leads D declared).eval_exec n).1
  have hafter := (soundness A leads D declared).mapM heval es hA hm
  (hafter.of_ok h).imp_left Soundly.toSound

theorem exec_soundly {s : Stmt} {flow : Flow} (hA : A ⟨.exec s, m, k⟩) (hm : m.Sound D)
    (h : exec n s m = .ok flow m₁) : m₁.Sound D :=
  have hafter := ((soundness A leads D declared).eval_exec n).2 s m k hA hm
  (hafter.of_ok h).1.toSound

theorem sequence_soundly {ss : List Stmt} (hA : A ⟨.execAll ss, m, k⟩) (hm : m.Sound D) :
    After (Soundly D m) ((soundness A leads D declared).Ends) (sequence (exec n) ss m) :=
  (soundness A leads D declared).execAll n ss hA hm

theorem Leads.sound (h : Leads p q) (hA : A p) (hp : p.Sound D) : q.Sound D := by
  have evaluated {e v m m₁ k n} (hA : A ⟨.eval e, m, k⟩) (hm : m.Sound D)
      (h : Run.eval n e m = .ok v m₁) : m₁.Sound D := (eval_soundly leads declared hA hm h).1
  have hm := hp.machine
  cases h with
  | right h => exact ⟨evaluated (leads hA .left) hm h, nofun⟩
  | undecided h _ => exact ⟨evaluated (leads hA .decider) hm h, nofun⟩
  | arguments h => exact ⟨evaluated (leads hA .callee) hm h, nofun⟩
  | others h => exact ⟨evaluated (leads hA .first) hm h, nofun⟩
  | yes h _ | no h _ => exact ⟨evaluated (leads hA .condition) hm h, nofun⟩
  | round h _ => exact ⟨evaluated (leads hA .test) hm h, nofun⟩
  | again hc htrue hbody =>
    have hround := evaluated (leads hA .test) hm hc
    exact ⟨exec_soundly leads declared (leads hA (.round hc htrue)) hround hbody, nofun⟩
  | tail hs => exact ⟨exec_soundly leads declared (leads hA .head) hm hs, nofun⟩
  | called hf hargs =>
    obtain ⟨hm₁, hv⟩ := eval_soundly leads declared (leads hA .callee) hm hf
    obtain ⟨hm₂, hvs⟩ := mapM_soundly leads declared (leads hA (.arguments hf)) hm₁ hargs
    have hsize := (mapM_continues hargs).heap.size
    refine ⟨hm₂, fun hwork => ?_⟩
    cases hwork
    exact List.forall_mem_cons.mpr ⟨hv.mono hsize, hvs⟩
  | body _ _ =>
    obtain ⟨hf, hvs⟩ := List.forall_mem_cons.mp (hp.call rfl)
    exact ⟨hm.calling.within (hf _ rfl).1 (Value.Known.ofArguments hvs), nofun⟩
  | clock _ => exact ⟨hm.calling, nofun⟩
  | block => exact ⟨hm.within hm.scope nofun, nofun⟩
  | _ => exact ⟨hm, nofun⟩

theorem LeadsOn.sound (h : LeadsOn p q) (hA : A p) (hp : p.Sound D) : q.Sound D := by
  suffices A q ∧ q.Sound D from this.2
  induction h with
  | refl => exact ⟨hA, hp⟩
  | tail _ hq ih => exact ⟨leads ih.1 hq, hq.sound leads declared ih.1 ih.2⟩

end

end Run
end Lox
