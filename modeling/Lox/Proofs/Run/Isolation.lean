import Lox.Proofs.Run.Rooted

/-!
Frames that cannot be reached. From a frame the frames around it are reached, and from there those
of the functions that are bound in them. A run neither changes what it cannot reach nor depends on
it. For the induction, the frames that cannot be reached at the start are hidden once and for all:
what is not hidden never gets to know of them, whatever functions are made, passed and stored.
-/

namespace Lox

/-! ### What can be reached -/

namespace Heap

/-- The frame `j` is around the frame `i`. -/
def Inside (h : Heap) (i j : FrameId) : Prop := ∃ o, h.outer? i = some o ∧ j ∈ o

/-- What can be reached from `roots`: with a frame the frames around it, and those that the
functions bound in it were declared in. -/
inductive Reach (h : Heap) (roots : FrameId → Prop) : FrameId → Prop where
  | root {i} : roots i → Reach h roots i
  | outer {i j} : Reach h roots i → h.Inside i j → Reach h roots j
  | held {i x f} : Reach h roots i → h.own? x i = some (.callable (.function f)) →
      Reach h roots f.frame

/-- The frames that are there but cannot be reached. -/
def Hidden (h : Heap) (roots : FrameId → Prop) (i : FrameId) : Prop :=
  i < h.frames.size ∧ ¬h.Reach roots i

variable {h h' : Heap} {i j s : FrameId} {x : String} {v : Value} {vars : Bindings}
  {U : FrameId → Prop}

theorem Inside.lt_size (hij : h.Inside i j) : i < h.frames.size := by
  obtain ⟨o, ho, -⟩ := hij
  exact lt_size_of_outer? ho

theorem mem_chain (hj : j ∈ h.chain i) : j = i ∨ h.Inside i j := by
  rw [chain_eq] at hj
  cases ho : h.outer? i with
  | none => simp [ho] at hj
  | some o =>
    rw [ho] at hj
    exact (List.mem_cons.mp hj).imp_right fun hj => ⟨o, ho, hj⟩

end Heap

/-! ### What is hidden -/

/-- A value that does not lead to hidden frames. -/
def Value.Clear (U : FrameId → Prop) (v : Value) : Prop :=
  ∀ f, v = .callable (.function f) → ¬U f.frame

namespace Heap

/-- Frames that are there are hidden: no other frame leads to them. -/
structure Hides (U : FrameId → Prop) (h : Heap) : Prop where
  there : ∀ i, U i → i < h.frames.size
  outer : ∀ i j, ¬U i → h.Inside i j → ¬U j
  clear : ∀ i x v, ¬U i → h.own? x i = some v → v.Clear U

/-- Heaps that differ only in hidden frames. -/
structure Agrees (U : FrameId → Prop) (h h' : Heap) : Prop where
  size : h.frames.size = h'.frames.size
  frames : ∀ i, ¬U i → h.frames[i]? = h'.frames[i]?

variable {h h' : Heap} {i j s : FrameId} {x : String} {v : Value} {vars : Bindings}
  {U : FrameId → Prop}

theorem hides_hidden (h : Heap) (roots : FrameId → Prop) : h.Hides (h.Hidden roots) where
  there _ hi := hi.1
  outer i j hi hij hj := by
    have hreach : h.Reach roots i := by_contra fun hn => hi ⟨hij.lt_size, hn⟩
    exact hj.2 (.outer hreach hij)
  clear i x v hi hv f hf hframe := by
    have hreach : h.Reach roots i := by_contra fun hn => hi ⟨lt_size_of_own? hv, hn⟩
    exact hframe.2 (.held hreach (hf ▸ hv))

theorem Hides.chain (hU : h.Hides U) (hi : ¬U i) : ∀ j ∈ h.chain i, ¬U j := by
  intro j hj
  rcases mem_chain hj with rfl | hij
  · exact hi
  · exact hU.outer i j hi hij

theorem Hides.define (hU : h.Hides U) (hv : v.Clear U) : (h.define x v i).Hides U where
  there j hj := by simpa using hU.there j hj
  outer j l hj := by
    rw [Inside, outer?_define]
    exact hU.outer j l hj
  clear j y w hj hw := by
    rcases own?_define_cases hw with rfl | hw
    · exact hv
    · exact hU.clear j y w hj hw

theorem Hides.not_fresh (hU : h.Hides U) : ¬U h.frames.size :=
  fun hs => Nat.lt_irrefl _ (hU.there _ hs)

theorem Hides.push (hU : h.Hides U) (hi : ¬U i)
    (hvars : ∀ x v, vars.lookup x = some v → v.Clear U) : (h.push i vars).2.Hides U where
  there j hj := Nat.lt_of_lt_of_le (hU.there j hj) Extends.push.size
  outer j l hj hjl := by
    rcases lt_or_eq_of_lt_push hjl.lt_size with hlt | rfl
    · rw [Inside, outer?_push_of_lt hlt] at hjl
      exact hU.outer j l hj hjl
    · obtain ⟨o, ho, hl⟩ := hjl
      rw [outer?_push_self] at ho
      exact hU.chain hi l (Option.some.inj ho ▸ hl)
  clear j y w hj hw := by
    rcases own?_push_cases hw with hw | ⟨-, hw⟩
    · exact hU.clear j y w hj hw
    · exact hvars y w hw

namespace Agrees

theorem refl : Agrees U h h := ⟨rfl, fun _ _ => rfl⟩

theorem chain (ha : Agrees U h h') (hi : ¬U i) : h.chain i = h'.chain i := by
  rw [Heap.chain, Heap.chain, ha.frames i hi]

theorem nearest? (ha : Agrees U h h') (hU : h.Hides U) (hs : ¬U s) :
    h.nearest? x s = h'.nearest? x s := by
  refine nearest?_congr (ha.chain hs) fun j hj => ?_
  rw [own?_eq, own?_eq, ha.frames j (hU.chain hs j hj)]

theorem define (ha : Agrees U h h') : Agrees U (h.define x v i) (h'.define x v i) where
  size := by simpa using ha.size
  frames j hj := by
    by_cases hij : i = j
    · subst hij
      rw [frames_define_self, frames_define_self, ha.frames i hj]
    · rw [frames_define_ne hij, frames_define_ne hij, ha.frames j hj]

theorem push (ha : Agrees U h h') (hi : ¬U i) :
    Agrees U (h.push i vars).2 (h'.push i vars).2 where
  size := by simpa using ha.size
  frames j hj := by
    simp only [Heap.push, Array.getElem?_push, ha.size, ha.chain hi, ha.frames j hj]

end Agrees
end Heap

/-! ### Steps of the machine -/

namespace Run

/-- From the heaps `h` and `h'`, which differ in hidden frames, two runs have come to one machine,
but for its heap, which is `k` in the second run. -/
structure Isolated (U : FrameId → Prop) (h h' : Heap) (m : Machine) (k : Heap) : Prop where
  hides : m.heap.Hides U
  scope : ¬U m.scope
  agrees : m.heap.Agrees U k
  kept : ∀ i, U i → m.heap.frames[i]? = h.frames[i]?
  keptToo : ∀ i, U i → k.frames[i]? = h'.frames[i]?

section
variable {α : Type} {U : FrameId → Prop} {h h' : Heap} {R : Heap → α → Prop} {m m₁ : Machine}
  {k : Heap}

/-- Two runs end with one result, isolated from hidden frames. -/
inductive Alike (U : FrameId → Prop) (h h' : Heap) (R : Heap → α → Prop) :
    EStateM.Result Halt Machine α → EStateM.Result Halt Machine α → Prop where
  | ok {a m k} : Isolated U h h' m k → R m.heap a →
      Alike U h h' R (.ok a m) (.ok a { m with heap := k })
  | error {e m k} : Isolated U h h' m k →
      Alike U h h' R (.error e m) (.error e { m with heap := k })

theorem Isolated.trans {k₁ : Heap} (h₁ : Isolated U h h' m k) (h₂ : Isolated U m.heap k m₁ k₁) :
    Isolated U h h' m₁ k₁ where
  hides := h₂.hides
  scope := h₂.scope
  agrees := h₂.agrees
  kept i hi := (h₂.kept i hi).trans (h₁.kept i hi)
  keptToo i hi := (h₂.keptToo i hi).trans (h₁.keptToo i hi)

/-- A machine that does not know of hidden frames. -/
structure Unaware (U : FrameId → Prop) (m : Machine) : Prop where
  hides : m.heap.Hides U
  scope : ¬U m.scope

theorem Isolated.unaware (hi : Isolated U h h' m k) : Unaware U m := ⟨hi.hides, hi.scope⟩

theorem Isolated.refl (hm : Unaware U m) (ha : m.heap.Agrees U k) : Isolated U m.heap k m k :=
  ⟨hm.hides, hm.scope, ha, fun _ _ => rfl, fun _ _ => rfl⟩

/-- A name is bound in a frame that is not hidden. -/
theorem Isolated.define {i : FrameId} {x : String} {v : Value} (hm : Unaware U m)
    (ha : m.heap.Agrees U k) (hi : ¬U i) (hv : v.Clear U) :
    Isolated U m.heap k { m with heap := m.heap.define x v i } (k.define x v i) where
  hides := hm.hides.define hv
  scope := hm.scope
  agrees := ha.define
  kept _ hj := Heap.frames_define_ne fun hij => hi (hij ▸ hj)
  keptToo _ hj := Heap.frames_define_ne fun hij => hi (hij ▸ hj)

theorem Alike.imp {h₁ h₁' : Heap} {x y : EStateM.Result Halt Machine α}
    (hxy : Alike U h h' R x y) (hP : ∀ m k, Isolated U h h' m k → Isolated U h₁ h₁' m k) :
    Alike U h₁ h₁' R x y := by
  cases hxy with
  | ok hm hR => exact .ok (hP _ _ hm) hR
  | error hm => exact .error (hP _ _ hm)

theorem Alike.mapState {h₁ h₁' : Heap} {x y : EStateM.Result Halt Machine α} (g : Machine → Machine)
    (hxy : Alike U h₁ h₁' R x y) (hheap : ∀ m, (g m).heap = m.heap)
    (hreplaced : ∀ m k, g { m with heap := k } = { g m with heap := k })
    (hg : ∀ m k, Isolated U h₁ h₁' m k → Isolated U h h' (g m) k) :
    Alike U h h' R (Step.mapState g x) (Step.mapState g y) := by
  cases hxy with
  | @ok a m k hm hR =>
    have hend : Alike U h h' R (.ok a (g m)) (.ok a { g m with heap := k }) :=
      .ok (hg m k hm) ((hheap m).symm ▸ hR)
    rwa [← hreplaced] at hend
  | @error e m k hm =>
    have hend : Alike U h h' R (.error e (g m)) (.error e { g m with heap := k }) :=
      .error (hg m k hm)
    rwa [← hreplaced] at hend

/-- What is run in a new frame inside one that is not hidden leaves the frame when it has ended. -/
theorem Alike.inFrame {x : Run α} {i : FrameId} {vars : Bindings} (hm : Unaware U m)
    (ha : m.heap.Agrees U k) (hi : ¬U i) (hvars : ∀ x v, vars.lookup x = some v → v.Clear U)
    (hx : Unaware U (m.within i vars) → ∀ k', (m.within i vars).heap.Agrees U k' →
      Alike U (m.within i vars).heap k' R (x (m.within i vars))
        (x { m.within i vars with heap := k' })) :
    Alike U m.heap k R (Run.inFrame i vars x m) (Run.inFrame i vars x { m with heap := k }) := by
  have hwithin := hx ⟨hm.hides.push hi hvars, hm.hides.not_fresh⟩ _ (ha.push hi)
  have hsecond : Machine.within { m with heap := k } i vars =
      { m.within i vars with heap := (k.push i vars).2 } := by
    simp only [Machine.within, ha.size]
  rw [inFrame_eq, inFrame_eq, hsecond]
  refine hwithin.mapState _ (fun _ => rfl) (fun _ _ => rfl) fun m₁ k₁ h₁ => ?_
  exact { hides := h₁.hides
          scope := hm.scope
          agrees := h₁.agrees
          kept := fun j hj => (h₁.kept j hj).trans (Heap.frames_push_of_lt (hm.hides.there j hj))
          keptToo := fun j hj => (h₁.keptToo j hj).trans
            (Heap.frames_push_of_lt (ha.size ▸ hm.hides.there j hj)) }

end

/-- Runs are isolated from frames that are hidden at their start. -/
def isolation (U : FrameId → Prop) : Logic where
  Among := fun _ => True
  leads := fun _ _ => trivial
  Good := fun _ v => v.Clear U
  plain := fun hv f hf => absurd hf (hv f)
  mono := fun _ hv => hv
  Holds := fun R x m => Unaware U m → ∀ k, m.heap.Agrees U k →
    Alike U m.heap k R (x m) (x { m with heap := k })
  pure := fun hR hm _ ha => .ok (.refl hm ha) hR
  bind := by
    intro _ _ _ _ x f m hx hf hm k ha
    have hx := hx hm k ha
    cases hres : x m with
    | ok a m₁ =>
      rw [hres] at hx
      generalize hres' : x { m with heap := k } = y at hx
      cases hx with
      | ok hiso hR =>
        rw [Step.bind_of_ok hres, Step.bind_of_ok hres']
        exact (hf a m₁ hres hR hiso.unaware _ hiso.agrees).imp fun _ _ => hiso.trans
    | error e m₁ =>
      rw [hres] at hx
      generalize hres' : x { m with heap := k } = y at hx
      cases hx with
      | error hiso =>
        rw [Step.bind_of_error hres, Step.bind_of_error hres']
        exact .error hiso
  exhausted := fun hm _ ha => .error (.refl hm ha)
  raise := fun _ _ _ hm _ ha => .error (.refl hm ha)
  readName := by
    intro x m hm k ha
    rw [readName, readName, ← show m.heap.nearest? _ _ = k.nearest? _ _ from
      ha.nearest? hm.hides hm.scope]
    cases hv : m.heap.nearest? x.lexeme m.scope with
    | none => exact .error (.refl hm ha)
    | some b =>
      have hbound := nearest?_eq_some.mp hv
      exact .ok (.refl hm ha)
        (hm.hides.clear _ _ _ (hm.hides.chain hm.scope _ hbound.mem) hbound.own)
  assign := by
    intro x v m hv hm k ha
    rw [assign, assign, ← show m.heap.nearest? _ _ = k.nearest? _ _ from
      ha.nearest? hm.hides hm.scope]
    cases hx : m.heap.nearest? x.lexeme m.scope with
    | none => exact .error (.refl hm ha)
    | some b =>
      have hbound := nearest?_eq_some.mp hx
      exact .ok (.define hm ha (hm.hides.chain hm.scope _ hbound.mem) hv) hv
  define := fun _ _ _ hv hm k ha => .ok (.define hm ha hm.scope hv) trivial
  declare := by
    intro x ps body m _ _ hm k ha
    have hclear : (Value.callable (.function ⟨m.made, x, ps, body, m.scope⟩)).Clear U := by
      rintro _ ⟨rfl⟩
      exact hm.scope
    have hmade : Unaware U { m with made := m.made + 1 } := ⟨hm.hides, hm.scope⟩
    exact .ok (Isolated.define hmade ha hm.scope hclear) trivial
  printLine := by
    intro t e n v m₀ m _ _ _ hm k ha
    rw [printLine, printLine]
    cases m.out.write (v.text ++ "\n") with
    | mk refusal out =>
      have hiso : Isolated U m.heap k { m with out } k :=
        ⟨hm.hides, hm.scope, ha, fun _ _ => rfl, fun _ _ => rfl⟩
      cases refusal with
      | none => exact .ok hiso trivial
      | some r => exact .error hiso
  tick := by
    intro m hm _ ha
    rw [tick, tick]
    cases m.clock m.ticks with
    | none => exact .error (.refl hm ha)
    | some x => exact .ok ⟨hm.hides, hm.scope, ha, fun _ _ => rfl, fun _ _ => rfl⟩ nofun
  block := fun hx hm k ha => .inFrame hm ha hm.scope nofun hx
  enter := fun hf hvs hx hm k ha =>
    .inFrame hm ha (hf _ rfl) (fun _ _ hv => hvs _ (Bindings.mem_of_lookup_ofArguments hv)) hx
  guard := by
    intro _ _ x y m hx hy hm k ha
    rw [guard_eq, guard_eq]
    split
    · next hdepth => exact hx hdepth hm k ha
    · next hdepth => exact hy (Nat.not_le.mp hdepth) hm k ha
  deeper := by
    intro _ _ x m hx hm k ha
    rw [deeper_eq, deeper_eq]
    exact (hx ⟨hm.hides, hm.scope⟩ k ha).mapState _ (fun _ => rfl) (fun _ _ => rfl)
      fun _ _ h₁ => ⟨h₁.hides, h₁.scope, h₁.agrees, h₁.kept, h₁.keptToo⟩

end Run
end Lox
