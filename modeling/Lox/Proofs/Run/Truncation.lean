import Lox.Proofs.Run.Logic

/-!
Output that comes to an end. A run whose output is limited goes like one without a limit up to the
first `print` that has no room for all of its line, and ends there: it has written what fits, and
everything else is as that `print` found it.
-/

namespace Lox

/-! ### Limits -/

namespace Output

/-- Only the first `N` bytes of what has been written, and no room for more than that. -/
def limit (N : Nat) (ρ : Refusal) (o : Output) : Output :=
  ⟨o.written.extract 0 N, some (N - o.written.size), ρ⟩

/-- Output without a limit, after more has been written. -/
structure GoesOn (o o' : Output) : Prop where
  room : o'.room = none
  written : ∃ w, o'.written = o.written ++ w

variable {N : Nat} {ρ : Refusal} {o o₁ o₂ : Output}

theorem GoesOn.refl (h : o.room = none) : GoesOn o o := ⟨h, .empty, ByteArray.append_empty.symm⟩

theorem GoesOn.trans (h : GoesOn o o₁) (h' : GoesOn o₁ o₂) : GoesOn o o₂ := by
  obtain ⟨w, hw⟩ := h.written
  obtain ⟨w', hw'⟩ := h'.written
  exact ⟨h'.room, w ++ w', by rw [hw', hw, ByteArray.append_assoc]⟩

theorem GoesOn.size_le (h : GoesOn o o₁) : o.written.size ≤ o₁.written.size := by
  obtain ⟨w, hw⟩ := h.written
  rw [hw, ByteArray.size_append]
  exact Nat.le_add_right _ _

theorem extract_append_of_le {a b : ByteArray} (h : N ≤ a.size) :
    (a ++ b).extract 0 N = a.extract 0 N := by
  have hb : b.extract (0 - a.size) (N - a.size) = .empty :=
    ByteArray.extract_eq_empty_iff.mpr (by omega)
  rw [ByteArray.extract_append, hb, ByteArray.append_empty]

theorem extract_of_size_le {a : ByteArray} (h : a.size ≤ N) : a.extract 0 N = a := by
  apply ByteArray.ext
  rw [ByteArray.data_extract]
  exact Array.extract_eq_self_of_le h

/-- What is written behind a limit is not seen. -/
theorem GoesOn.limit_eq (h : GoesOn o o₁) (hN : N ≤ o.written.size) :
    o₁.limit N ρ = o.limit N ρ := by
  obtain ⟨w, hw⟩ := h.written
  have hsize := h.size_le
  rw [limit, limit, hw, extract_append_of_le hN, ← hw]
  congr 2
  omega

/-- The bytes of a line. -/
def line (v : Value) : ByteArray := (v.text ++ "\n").toUTF8

theorem write_unlimited (h : o.room = none) (s : String) :
    o.write s = (none, { o with written := o.written ++ s.toUTF8 }) := by
  obtain ⟨written, room, refusal⟩ := o
  cases h
  rfl

/-- As long as nothing has been refused, a limit refuses just what would go beyond it. -/
theorem write_limit (hsize : o.written.size ≤ N) (s : String) :
    (o.limit N ρ).write s = (if (o.written ++ s.toUTF8).size ≤ N then none else some ρ,
      limit N ρ { o with written := o.written ++ s.toUTF8 }) := by
  have hwritten := extract_of_size_le hsize
  have hroom : N - o.written.size - s.toUTF8.size = N - (o.written ++ s.toUTF8).size := by
    rw [ByteArray.size_append, Nat.sub_sub]
  have hextract : (o.written ++ s.toUTF8).extract 0 N =
      o.written ++ s.toUTF8.extract 0 (N - o.written.size) := by
    rw [ByteArray.extract_append, hwritten, Nat.zero_sub]
  have hiff : s.toUTF8.size ≤ N - o.written.size ↔ (o.written ++ s.toUTF8).size ≤ N := by
    rw [ByteArray.size_append]
    omega
  rw [limit, limit, write, hwritten, hextract, ← hroom]
  by_cases hfits : s.toUTF8.size ≤ N - o.written.size
  · simp only [if_pos hfits, if_pos (hiff.mp hfits), extract_of_size_le hfits]
  · simp only [if_neg hfits, if_neg (mt hiff.mpr hfits),
      Nat.sub_eq_zero_of_le (Nat.le_of_not_le hfits)]

end Output

/-- A machine on which the output is limited. -/
def Machine.limit (N : Nat) (ρ : Refusal) (m : Machine) : Machine :=
  { m with out := m.out.limit N ρ }

namespace Run

/-! ### Runs that are cut off -/

/-- From `m` a run has come to `m'`, without a limit on the output. -/
structure Goes (m m' : Machine) : Prop where
  scope : m'.scope = m.scope
  depth : m'.depth = m.depth
  out : m.out.GoesOn m'.out

/-- The output grows beyond `N` bytes by the line of a `print`: one of those at the points `A`,
whose operand has been evaluated, which leaves `m`. What has been written in the end is `out`. -/
structure Crosses (A : Point → Prop) (N : Nat) (keyword : Token) (m : Machine) (out : Output) :
    Prop where
  room : m.out.room = none
  within : m.out.written.size ≤ N
  print : ∃ e m₀ k n v, A ⟨.exec (.print keyword e), m₀, k⟩ ∧ eval n e m₀ = .ok v m ∧
    N < (m.out.written ++ Output.line v).size ∧
    Output.GoesOn { m.out with written := m.out.written ++ Output.line v } out

/-- The state at the end of a run, whichever way it ends. -/
def final {α : Type} : EStateM.Result Halt Machine α → Machine
  | .ok _ m => m
  | .error _ m => m

theorem final_mapState {α : Type} (g : Machine → Machine) (x : EStateM.Result Halt Machine α) :
    final (Step.mapState g x) = g (final x) := by
  cases x <;> rfl

section
variable {α β : Type} {A : Point → Prop} {N : Nat} {ρ : Refusal} {m m₁ : Machine}
  {R : Heap → α → Prop} {x y : EStateM.Result Halt Machine α}

theorem Goes.trans {m₂ : Machine} (h : Goes m m₁) (h' : Goes m₁ m₂) : Goes m m₂ :=
  ⟨h'.scope.trans h.scope, h'.depth.trans h.depth, h.out.trans h'.out⟩

/-- How a run `x` from `m` without a limit and a run `y` with the limit compare: as long as `x`
stays within the limit, they are the same; otherwise `y` ends at the `print` that crosses it. -/
structure Truncates (A : Point → Prop) (N : Nat) (ρ : Refusal) (m : Machine) (R : Heap → α → Prop)
    (x y : EStateM.Result Halt Machine α) : Prop where
  goes : Goes m (final x)
  result {a m'} : x = .ok a m' → R m'.heap a
  fits : (final x).out.written.size ≤ N → y = Step.mapState (Machine.limit N ρ) x
  crosses : m.out.written.size ≤ N → N < (final x).out.written.size →
    ∃ t m₂, Crosses A N t m₂ (final x).out ∧ y = .error (.fault ⟨.output ρ, t⟩)
      { m₂ with scope := m.scope, depth := m.depth, out := (final x).out.limit N ρ }

/-- Steps that write nothing. -/
theorem Truncates.quiet (hroom : m.out.room = none) (hscope : (final x).scope = m.scope)
    (hdepth : (final x).depth = m.depth) (hout : (final x).out = m.out)
    (hR : ∀ a m', x = .ok a m' → R m'.heap a) (hy : y = Step.mapState (Machine.limit N ρ) x) :
    Truncates A N ρ m R x y where
  goes := ⟨hscope, hdepth, by rw [hout]; exact .refl hroom⟩
  result := hR _ _
  fits _ := hy
  crosses h h' := absurd h (Nat.not_le.mpr (hout ▸ h'))

theorem Crosses.goesOn {t : Token} {out out' : Output} (h : Crosses A N t m out)
    (hout : out.GoesOn out') : Crosses A N t m out' := by
  obtain ⟨e, m₀, k, n, v, hA, hv, hN, hgoes⟩ := h.print
  exact ⟨h.room, h.within, e, m₀, k, n, v, hA, hv, hN, hgoes.trans hout⟩

/-- A step after another one. It is not even started if the limit is crossed before it. -/
theorem Truncates.bind {R' : Heap → β → Prop} {act : Run α} {f : α → Run β}
    (hx : Truncates A N ρ m R (act m) (act (m.limit N ρ)))
    (hf : ∀ a m₁, act m = .ok a m₁ → R m₁.heap a → m₁.out.room = none →
      Truncates A N ρ m₁ R' (f a m₁) (f a (m₁.limit N ρ))) :
    Truncates A N ρ m R' ((act >>= f) m) ((act >>= f) (m.limit N ρ)) := by
  cases hres : act m with
  | error e m₁ =>
    rw [hres] at hx
    rw [Step.bind_of_error hres]
    exact
      { goes := hx.goes
        result := nofun
        fits := fun h => Step.bind_of_error (hx.fits h) f
        crosses := fun h h' => by
          obtain ⟨t, m₂, hcross, hy⟩ := hx.crosses h h'
          exact ⟨t, m₂, hcross, Step.bind_of_error hy f⟩ }
  | ok a m₁ =>
    rw [hres] at hx
    have hrest := hf a m₁ hres (hx.result rfl) hx.goes.out.room
    have hon : m₁.out.GoesOn (final (f a m₁)).out := hrest.goes.out
    rw [Step.bind_of_ok hres]
    refine ⟨hx.goes.trans hrest.goes, hrest.result, fun h => ?_, fun h h' => ?_⟩
    · rw [Step.bind_of_ok (hx.fits (Nat.le_trans hon.size_le h))]
      exact hrest.fits h
    · by_cases hfirst : m₁.out.written.size ≤ N
      · obtain ⟨t, m₂, hcross, hy⟩ := hrest.crosses hfirst h'
        refine ⟨t, m₂, hcross, ?_⟩
        rw [Step.bind_of_ok (hx.fits hfirst), ← hx.goes.scope, ← hx.goes.depth]
        exact hy
      · obtain ⟨t, m₂, hcross, hy⟩ := hx.crosses h (Nat.not_le.mp hfirst)
        refine ⟨t, m₂, hcross.goesOn hon, ?_⟩
        rw [Step.bind_of_error hy, hon.limit_eq (Nat.le_of_not_le hfirst)]
        rfl

/-- A step that puts something about the machine back at its end. -/
theorem Truncates.mapState (g : Machine → Machine) (hx : Truncates A N ρ m₁ R x y)
    (hout : m₁.out = m.out) (hgout : ∀ m', (g m').out = m'.out)
    (hgheap : ∀ m', (g m').heap = m'.heap)
    (hg : ∀ m', Goes m₁ m' → (g m').scope = m.scope ∧ (g m').depth = m.depth)
    (hcut : ∀ m₂ : Machine, ∀ out, g { m₂ with scope := m₁.scope, depth := m₁.depth, out } =
      { m₂ with scope := m.scope, depth := m.depth, out })
    (hlimit : ∀ m', g (m'.limit N ρ) = (g m').limit N ρ) :
    Truncates A N ρ m R (Step.mapState g x) (Step.mapState g y) := by
  have hfinal := final_mapState g x
  have hgoes := hg _ hx.goes
  refine ⟨?_, ?_, fun h => ?_, fun h h' => ?_⟩
  · rw [hfinal]
    exact ⟨hgoes.1, hgoes.2, by rw [hgout, ← hout]; exact hx.goes.out⟩
  · intro a m' ha
    cases x with
    | ok b m'' =>
      cases ha
      rw [hgheap]
      exact hx.result rfl
    | error e m'' => cases ha
  · rw [hfinal, hgout] at h
    rw [hx.fits h]
    cases x <;> simp only [Step.mapState, hlimit]
  · rw [hfinal, hgout] at h' ⊢
    obtain ⟨t, m₂, hcross, rfl⟩ := hx.crosses (hout ▸ h) h'
    refine ⟨t, m₂, hcross, ?_⟩
    rw [Step.mapState, hcut]

/-- The line of a `print`. -/
theorem Truncates.printLine {t : Token} {e : Expr} {n : Nat} {v : Value} {m₀ : Machine} {k : Nat}
    (hroom : m.out.room = none) (hA : A ⟨.exec (.print t e), m₀, k⟩)
    (hv : eval n e m₀ = .ok v m) :
    Truncates A N ρ m (fun _ _ => True) (Run.printLine t v.text m)
      (Run.printLine t v.text (m.limit N ρ)) := by
  have hrun : Run.printLine t v.text m =
      .ok () { m with out := { m.out with written := m.out.written ++ Output.line v } } := by
    rw [Run.printLine, Output.write_unlimited hroom]
    rfl
  have hgoes : m.out.GoesOn { m.out with written := m.out.written ++ Output.line v } :=
    ⟨hroom, _, rfl⟩
  rw [hrun]
  refine ⟨⟨rfl, rfl, hgoes⟩, fun _ => trivial,
    fun (h : (m.out.written ++ (v.text ++ "\n").toUTF8).size ≤ N) => ?_,
    fun h (h' : N < (m.out.written ++ (v.text ++ "\n").toUTF8).size) => ?_⟩
  · have hwrite := Output.write_limit (ρ := ρ) (Nat.le_trans hgoes.size_le h) (v.text ++ "\n")
    rw [if_pos h] at hwrite
    rw [Run.printLine, show (m.limit N ρ).out = m.out.limit N ρ from rfl, hwrite]
    rfl
  · have hwrite := Output.write_limit (ρ := ρ) h (v.text ++ "\n")
    rw [if_neg (Nat.not_le.mpr h')] at hwrite
    refine ⟨t, m, ⟨hroom, h, e, m₀, k, n, v, hA, hv, h', .refl hroom⟩, ?_⟩
    rw [Run.printLine, show (m.limit N ρ).out = m.out.limit N ρ from rfl, hwrite]
    rfl

/-- What is run in a new frame. -/
theorem Truncates.inFrame {act : Run α} {i : FrameId} {vars : Bindings}
    (h : Truncates A N ρ (m.within i vars) R (act (m.within i vars))
      (act ((m.within i vars).limit N ρ))) :
    Truncates A N ρ m R (Run.inFrame i vars act m) (Run.inFrame i vars act (m.limit N ρ)) := by
  rw [inFrame_eq, inFrame_eq]
  exact h.mapState _ rfl (fun _ => rfl) (fun _ => rfl) (fun _ hgoes => ⟨rfl, hgoes.depth⟩)
    (fun _ _ => rfl) fun _ => rfl

end

/-- A limit on the output truncates runs. -/
def truncation (A : Point → Prop) (leads : ∀ {p q}, A p → Leads p q → A q) (N : Nat)
    (ρ : Refusal) : Logic where
  Among := A
  leads := leads
  Good := fun _ _ => True
  plain := fun _ => trivial
  mono := fun _ _ => trivial
  Holds := fun R x m => m.out.room = none → Truncates A N ρ m R (x m) (x (m.limit N ρ))
  pure := fun hR h => .quiet h rfl rfl rfl (by rintro _ _ ⟨⟩; exact hR) rfl
  bind := fun hx hf h => (hx h).bind hf
  exhausted := fun h => .quiet h rfl rfl rfl nofun rfl
  raise := fun _ _ _ h => .quiet h rfl rfl rfl nofun rfl
  readName := by
    intro x m h
    rw [readName, readName, show (m.limit N ρ).heap.nearest? x.lexeme (m.limit N ρ).scope =
      m.heap.nearest? x.lexeme m.scope from rfl]
    cases m.heap.nearest? x.lexeme m.scope <;> exact .quiet h rfl rfl rfl (fun _ _ _ => trivial) rfl
  assign := by
    intro x v m _ h
    rw [assign, assign, show (m.limit N ρ).heap.nearest? x.lexeme (m.limit N ρ).scope =
      m.heap.nearest? x.lexeme m.scope from rfl]
    cases m.heap.nearest? x.lexeme m.scope <;> exact .quiet h rfl rfl rfl (fun _ _ _ => trivial) rfl
  define := fun _ _ _ _ h => .quiet h rfl rfl rfl (fun _ _ _ => trivial) rfl
  declare := fun _ h => .quiet h rfl rfl rfl (fun _ _ _ => trivial) rfl
  printLine := fun hA hv h => .printLine h hA hv
  tick := by
    intro m h
    rw [tick, tick, show (m.limit N ρ).clock (m.limit N ρ).ticks = m.clock m.ticks from rfl]
    cases m.clock m.ticks <;> exact .quiet h rfl rfl rfl (fun _ _ _ => trivial) rfl
  block := fun hx h => .inFrame (hx h)
  enter := fun _ _ hx h => .inFrame (hx h)
  guard := by
    intro _ _ x y m hx hy h
    rw [guard_eq, guard_eq, show (m.limit N ρ).depth = m.depth from rfl]
    split
    · next hdepth => exact hx hdepth h
    · next hdepth => exact hy (Nat.not_le.mp hdepth) h
  deeper := by
    intro _ _ x m hx h
    rw [deeper_eq, deeper_eq]
    exact (hx h).mapState _ rfl (fun _ => rfl) (fun _ => rfl)
      (fun _ hgoes => ⟨hgoes.scope, congrArg (· - 1) hgoes.depth⟩) (fun _ _ => rfl) fun _ => rfl

end Run
end Lox
