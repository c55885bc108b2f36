import Lox.Proofs.Run.Rooted

/-!
What names mean. A name means its nearest binding, which is looked for from a frame outwards, one
enclosing frame after the other. Reading and assigning find the same binding, and when a frame binds
a name, only the frames from which it is now the nearest one to do so see another value.
-/

namespace Lox
open BigStep Run

/-! ### The nearest binding -/

namespace Heap

/-- Looking for `x` from the frame `i` ends at `b`: at `i` itself if it binds `x`, and otherwise
where looking from the frame around it ends. -/
inductive Nearest (h : Heap) (x : String) : FrameId → FrameId → Prop where
  | here {i} : h.Binds i x → Nearest h x i i
  | outer {i j b} : ¬h.Binds i x → h.enclosing? i = some j → Nearest h x j b → Nearest h x i b

/-- Of two heaps, the second one differs in nothing but that the frame `b` binds `x` to `v`. -/
structure Sets (x : String) (v : Value) (b : FrameId) (h h' : Heap) : Prop where
  size : h'.frames.size = h.frames.size
  others : ∀ i, i ≠ b → h'.frames[i]? = h.frames[i]?
  outer : ∀ i, h'.outer? i = h.outer? i
  own : ∀ i y, h'.own? y i = if i = b ∧ y = x then some v else h.own? y i

section
variable {h h' : Heap} {x y : String} {v : Value} {i j b c : FrameId}

theorem Nearest.binds (hn : h.Nearest x i b) : h.Binds b x := by
  induction hn with
  | here hi => exact hi
  | outer _ _ _ ih => exact ih

theorem Nearest.unique (hn : h.Nearest x i b) (hn' : h.Nearest x i c) : b = c := by
  induction hn with
  | here hi =>
    cases hn' with
    | here _ => rfl
    | outer hi' _ _ => exact absurd hi hi'
  | outer hi hj _ ih =>
    cases hn' with
    | here hi' => exact absurd hi' hi
    | outer _ hj' hn' =>
      obtain rfl := Option.some.inj (hj.symm.trans hj')
      exact ih hn'

/-- As far as frames bind the name on both sides, looking for it ends in the same frame. -/
theorem Nearest.congr {P : FrameId → Prop} (henc : ∀ i, h'.enclosing? i = h.enclosing? i)
    (hbinds : ∀ i, P i → (h.Binds i x ↔ h'.Binds i x))
    (hout : ∀ i j, P i → ¬h.Binds i x → h.enclosing? i = some j → P j) (hi : P i)
    (hn : h.Nearest x i b) : h'.Nearest x i b := by
  induction hn with
  | here hb => exact .here ((hbinds _ hi).mp hb)
  | outer hb hj _ ih =>
    exact .outer (mt (hbinds _ hi).mpr hb) ((henc _).trans hj) (ih (hout _ _ hi hb hj))

theorem nearest?_of_binds (hv : h.own? x i = some v) : h.nearest? x i = some (i, v) := by
  obtain ⟨o, ho⟩ := Option.isSome_iff_exists.mp (outer?_isSome.mpr (lt_size_of_own? hv))
  rw [nearest?, chain_of_outer? ho, List.findSome?_cons, hv]
  rfl

theorem nearest?_of_outer? (hv : h.own? x i = none) (ho : h.outer? i = some (h.chain j)) :
    h.nearest? x i = h.nearest? x j := by
  rw [nearest?, chain_of_outer? ho, List.findSome?_cons, hv]
  rfl

/-- Where frames have their places, looking a name up finds its nearest binding. -/
theorem Rooted.nearest?_eq_some (hr : h.Rooted) : ∀ i < h.frames.size, ∀ b v,
    h.nearest? x i = some (b, v) ↔ h.Nearest x i b ∧ h.own? x b = some v := by
  have here : ∀ {i w}, h.own? x i = some w → ∀ b v,
      h.nearest? x i = some (b, v) ↔ h.Nearest x i b ∧ h.own? x b = some v := by
    intro i w hw b v
    have hi : h.Binds i x := Option.isSome_iff_exists.mpr ⟨w, hw⟩
    rw [nearest?_of_binds hw, Option.some.injEq, Prod.mk.injEq]
    constructor
    · rintro ⟨rfl, rfl⟩
      exact ⟨.here hi, hw⟩
    · rintro ⟨hn, hv⟩
      obtain rfl := hn.unique (.here hi)
      exact ⟨rfl, Option.some.inj (hw.symm.trans hv)⟩
  refine hr.outwards _ ?_ fun i j hj hi ho ih => ?_
  · cases hw : h.own? x Heap.globals with
    | some w => exact here hw
    | none =>
      intro b v
      have hnone : h.nearest? x Heap.globals = none := by
        rw [nearest?, hr.chain_globals, List.findSome?_cons, hw]
        rfl
      rw [hnone]
      refine iff_of_false (Option.some_ne_none _).symm ?_
      rintro ⟨hn, -⟩
      cases hn with
      | here hb => simp [Binds, hw] at hb
      | outer _ hj _ => simp [hr.enclosing?_globals] at hj
  · cases hw : h.own? x i with
    | some w => exact here hw
    | none =>
      intro b v
      have hout := enclosing?_of_outer? (Nat.lt_trans hj hi) ho
      have hunbound : ¬h.Binds i x := by simp [Binds, hw]
      rw [nearest?_of_outer? hw ho, ih b v]
      refine and_congr_left fun _ => ⟨.outer hunbound hout, fun hn => ?_⟩
      cases hn with
      | here hb => exact absurd hb hunbound
      | outer _ hj' hn =>
        obtain rfl := Option.some.inj (hout.symm.trans hj')
        exact hn

/-! ### What changes -/

theorem sets_define (hb : b < h.frames.size) : Sets x v b h (h.define x v b) where
  size := size_define
  others _ hi := frames_define_ne (Ne.symm hi)
  outer _ := outer?_define
  own _ _ := own?_define hb

namespace Sets

theorem enclosing? (hs : Sets x v b h h') (i : FrameId) : h'.enclosing? i = h.enclosing? i := by
  rw [Heap.enclosing?, Heap.enclosing?, hs.outer]

theorem binds (hs : Sets x v b h h') : h'.Binds i y ↔ h.Binds i y ∨ i = b ∧ y = x := by
  rw [Binds, Binds, hs.own]
  split
  · next h => simp [h]
  · next h => simp [h]

/-- From where the frame is not the nearest one to bind the name now, the nearest one is the same as
before. -/
theorem nearest (hs : Sets x v b h h') (hn : ¬(y = x ∧ h'.Nearest x i b)) :
    h'.Nearest y i c ↔ h.Nearest y i c := by
  have hbinds : ∀ i, ¬(y = x ∧ h'.Nearest x i b) → (h'.Binds i y ↔ h.Binds i y) := by
    intro i hn
    refine hs.binds.trans (or_iff_left ?_)
    rintro ⟨rfl, rfl⟩
    exact hn ⟨rfl, .here (hs.binds.mpr (.inr ⟨rfl, rfl⟩))⟩
  have hout : ∀ i j, ¬(y = x ∧ h'.Nearest x i b) → ¬h'.Binds i y → h'.enclosing? i = some j →
      ¬(y = x ∧ h'.Nearest x j b) := by
    rintro i j hn hi hj ⟨rfl, hnj⟩
    exact hn ⟨rfl, .outer hi hj hnj⟩
  constructor
  · exact Nearest.congr (fun i => (hs.enclosing? i).symm) hbinds hout hn
  · refine Nearest.congr hs.enclosing? (fun i hi => (hbinds i hi).symm) (fun i j hi hb hj => ?_) hn
    exact hout i j hi (mt (hbinds i hi).mp hb) ((hs.enclosing? i).trans hj)

/-- Where the name was bound already, what is nearest stays so. -/
theorem nearest_of_binds (hs : Sets x v b h h') (hb : h.Binds b x) :
    h'.Nearest y i c ↔ h.Nearest y i c := by
  have hbinds : ∀ i, h'.Binds i y ↔ h.Binds i y := by
    intro i
    refine hs.binds.trans (or_iff_left_of_imp ?_)
    rintro ⟨rfl, rfl⟩
    exact hb
  have hsame : ∀ i, True → (h'.Binds i y ↔ h.Binds i y) := fun i _ => hbinds i
  constructor
  · exact Nearest.congr (fun i => (hs.enclosing? i).symm) hsame (fun _ _ _ _ _ => trivial) trivial
  · exact Nearest.congr hs.enclosing? (fun i hi => (hsame i hi).symm) (fun _ _ _ _ _ => trivial)
      trivial

end Sets
end

end Heap

/-! ### Reading and assigning -/

namespace Run

variable {m m' : Machine} {x : Token} {v : Value}

theorem readName_eq_ok : readName x m = .ok v m' ↔
    (∃ b, m.heap.nearest? x.lexeme m.scope = some (b, v)) ∧ m' = m := by
  rw [readName]
  cases m.heap.nearest? x.lexeme m.scope <;> simp [Prod.ext_iff, eq_comm]

theorem assign_eq_ok : assign x v m = .ok () m' ↔
    ∃ b w, m.heap.nearest? x.lexeme m.scope = some (b, w) ∧
      m' = { m with heap := m.heap.define x.lexeme v b } := by
  rw [assign]
  cases m.heap.nearest? x.lexeme m.scope <;> simp [Prod.ext_iff, eq_comm]

theorem assign_eq_error {e : Halt} : assign x v m = .error e m' ↔
    m.heap.nearest? x.lexeme m.scope = none ∧ e = .fault ⟨.undefinedVariable, x⟩ ∧ m' = m := by
  rw [assign]
  cases m.heap.nearest? x.lexeme m.scope <;> simp [eq_comm]

end Run

namespace Machine

variable {m m' : Machine} {x : String} {v : Value} {b f : FrameId} {t : Token} {r : Outcome Value}

/-- Read from the frame `f`, the name comes to `r`, and nothing changes. -/
def Gets (m : Machine) (f : FrameId) (t : Token) (r : Outcome Value) : Prop :=
  readName t { m with scope := f } = result r { m with scope := f }

theorem gets_bound (hv : m.heap.nearest? t.lexeme f = some (b, v)) : m.Gets f t r ↔ r = .ok v := by
  rw [Gets, readName, hv]
  exact (result_inj (r := .ok v)).trans ⟨fun h => h.1.symm, fun h => ⟨h.symm, rfl⟩⟩

theorem gets_unbound (hv : m.heap.nearest? t.lexeme f = none) :
    m.Gets f t r ↔ r = .error ⟨.undefinedVariable, t⟩ := by
  rw [Gets, readName, hv]
  exact (result_inj (r := .error _)).trans ⟨fun h => h.1.symm, fun h => ⟨h.symm, rfl⟩⟩

theorem gets_congr (h : m'.heap.nearest? t.lexeme f = m.heap.nearest? t.lexeme f) :
    m'.Gets f t r ↔ m.Gets f t r := by
  cases hv : m.heap.nearest? t.lexeme f with
  | some p => rw [gets_bound hv, gets_bound (h.trans hv)]
  | none => rw [gets_unbound hv, gets_unbound (h.trans hv)]

/-- In all of the machine nothing changes but that the frame `b` binds `x` to `v`: names that mean
this binding now come to `v`, and all others to what they came to before. -/
structure Rebinds (x : String) (v : Value) (b : FrameId) (m m' : Machine) : Prop where
  rest : m' = { m with heap := m'.heap }
  sets : Heap.Sets x v b m.heap m'.heap
  seen : ∀ f < m.heap.frames.size, ∀ t, t.lexeme = x → m'.heap.Nearest x f b →
    ∀ r, m'.Gets f t r ↔ r = .ok v
  unseen : ∀ f < m.heap.frames.size, ∀ t, ¬(t.lexeme = x ∧ m'.heap.Nearest x f b) →
    ∀ r, m'.Gets f t r ↔ m.Gets f t r

theorem rebinds_define (hr : m.heap.Rooted) (hb : b < m.heap.frames.size) :
    Rebinds x v b m { m with heap := m.heap.define x v b } := by
  have hsets : Heap.Sets x v b m.heap (m.heap.define x v b) := Heap.sets_define hb
  have hr' : (m.heap.define x v b).Rooted := hr.define
  have hfinds := fun y f (hf : f < m.heap.frames.size) => hr'.nearest?_eq_some (x := y) f
    (Nat.lt_of_lt_of_eq hf hsets.size.symm)
  refine ⟨rfl, hsets, ?_, ?_⟩
  · rintro f hf t rfl hn r
    refine gets_bound ((hfinds _ f hf b v).mpr ⟨hn, ?_⟩)
    rw [hsets.own, if_pos ⟨rfl, rfl⟩]
  · intro f hf t ht r
    refine gets_congr (Option.ext fun (c, w) => ?_)
    refine (hfinds _ f hf c w).trans (Iff.trans ?_ (hr.nearest?_eq_some f hf c w).symm)
    rw [hsets.nearest ht]
    refine and_congr_right fun hn => ?_
    -- A name that still means a binding in `b` is another name.
    have hc : ¬(c = b ∧ t.lexeme = x) := by
      rintro ⟨rfl, rfl⟩
      exact ht ⟨rfl, (hsets.nearest ht).mpr hn⟩
    rw [hsets.own, if_neg hc]

/-- Reading and assigning agree on what a name means. Assigning succeeds just where reading does,
and rebinds the name in the nearest frame that binds it, which leaves every name its meaning; else
it faults at the name, and changes nothing. Defining always succeeds, and rebinds the name in the
current frame. -/
theorem names_agree (m : Machine) (hr : m.heap.Rooted) (hscope : m.scope < m.heap.frames.size)
    (x : Token) (v : Value) :
    ((∃ m', assign x v m = .ok () m') ↔ ∃ w m', readName x m = .ok w m') ∧
    (∀ m', assign x v m = .ok () m' → ∃ b, m.heap.Nearest x.lexeme m.scope b ∧
      Rebinds x.lexeme v b m m' ∧ ∀ y f c, m'.heap.Nearest y f c ↔ m.heap.Nearest y f c) ∧
    (∀ e m', assign x v m = .error e m' → e = .fault ⟨.undefinedVariable, x⟩ ∧ m' = m) ∧
    ∃ m', define x.lexeme v m = .ok () m' ∧ Rebinds x.lexeme v m.scope m m' := by
  refine ⟨?_, ?_, ?_, _, rfl, rebinds_define hr hscope⟩
  · simp only [assign_eq_ok, readName_eq_ok]
    constructor
    · rintro ⟨_, b, w, hx, -⟩
      exact ⟨w, m, ⟨b, hx⟩, rfl⟩
    · rintro ⟨w, _, ⟨b, hx⟩, -⟩
      exact ⟨_, b, w, hx, rfl⟩
  · intro m' h
    obtain ⟨b, w, hx, rfl⟩ := assign_eq_ok.mp h
    obtain ⟨hn, -⟩ := (hr.nearest?_eq_some _ hscope b w).mp hx
    have hrebinds : Rebinds x.lexeme v b m { m with heap := m.heap.define x.lexeme v b } :=
      rebinds_define hr hn.binds.lt_size
    exact ⟨b, hn, hrebinds, fun y f c => hrebinds.sets.nearest_of_binds hn.binds⟩
  · intro e m' h
    exact (assign_eq_error.mp h).2

/-- In a block that has a `foo` of its own, another name of the frame around it is assigned to. The
frames see the same new value, and each still sees its own `foo`. -/
theorem names_agree_shadowed :
    let foo : Token := ⟨.identifier, "foo", 4, 1, 1, .nil⟩
    let outer : Token := ⟨.identifier, "outer", 4, 1, 1, .nil⟩
    let heap : Heap := ⟨#[⟨[], [("foo", .str "bar"), ("outer", .bool true)]⟩,
      ⟨[Heap.globals], [("foo", .str "foofoo")]⟩]⟩
    let m : Machine := { Machine.start (fun _ => 0) .unlimited with heap, scope := 1 }
    m.heap.Rooted ∧ m.scope < m.heap.frames.size ∧ ∃ m', assign outer (.bool false) m = .ok () m' ∧
      (∀ f < 2, m'.Gets f outer (.ok (.bool false))) ∧ m'.Gets 0 foo (.ok (.str "bar")) ∧
      m'.Gets 1 foo (.ok (.str "foofoo")) := by
  intro foo outer heap m
  have hr : m.heap.Rooted :=
    ⟨rfl, fun i hi hne => ⟨0, Nat.pos_of_ne_zero hne, by
      obtain rfl : i = 1 := Nat.le_antisymm (Nat.le_of_lt_succ hi) (Nat.pos_of_ne_zero hne)
      rfl⟩⟩
  have hscope : m.scope < m.heap.frames.size := by decide
  have hassign := (names_agree m hr hscope outer (.bool false)).2.1
  have hrun : assign outer (.bool false) m = .ok () _ := rfl
  obtain ⟨b, hn, hrebinds, hsame⟩ := hassign _ hrun
  have hglobal : m.heap.Nearest "outer" 0 0 := .here rfl
  have hinner : m.heap.Nearest "outer" 1 0 := .outer nofun rfl hglobal
  obtain rfl := hn.unique hinner
  have hfoo : foo.lexeme ≠ outer.lexeme := by decide
  refine ⟨hr, hscope, _, hrun, fun f hf => ?_, ?_, ?_⟩
  · have hf' : m.heap.Nearest "outer" f 0 := by
      match f, hf with
      | 0, _ => exact hglobal
      | 1, _ => exact hinner
    exact (hrebinds.seen f hf outer rfl ((hsame _ _ _).mpr hf') _).mpr rfl
  · exact (hrebinds.unseen 0 (by decide) foo (fun h => hfoo h.1) _).mpr rfl
  · exact (hrebinds.unseen 1 (by decide) foo (fun h => hfoo h.1) _).mpr rfl

end Machine
end Lox
