import Lox.Proofs.Run.BigStep
import Lox.Proofs.Step

/-!
Outcomes of runs. A run that was not cut off has an outcome, and it is put together from those of
its parts. For each step of the machine there is one lemma that says which outcomes it has.
-/

namespace Lox

/-- The machine that holds a store, in the frame `s` and with `d` calls under way. -/
def Store.on (σ : Store) (κ : Nat → Option Float) (s : FrameId) (d : Nat) : Machine where
  heap := σ.heap
  scope := s
  depth := d
  made := σ.made
  clock := κ
  ticks := σ.ticks
  out := σ.out

/-- What a machine holds that lasts. -/
def Machine.store (m : Machine) : Store := ⟨m.heap, m.made, m.ticks, m.out⟩

namespace Run
open BigStep

variable {α β : Type} {m m' : Machine} {r : Outcome α} {κ : Nat → Option Float} {s : FrameId}
  {d : Nat} {σ : Store}

/-- How a run ends with an outcome. -/
def result : Outcome α → Machine → EStateM.Result Halt Machine α
  | .ok a, m => .ok a m
  | .error f, m => .error (.fault f) m

theorem result_inj {r' : Outcome α} : result r m = result r' m' ↔ r = r' ∧ m = m' := by
  cases r <;> cases r' <;> simp [result]

theorem exhausted_ne_result :
    (.error .exhausted m : EStateM.Result Halt Machine α) ≠ result r m' := by
  cases r <;> simp [result]

/-! ### Putting together -/

theorem pure_result {a : α} : (pure a : Run α) m = result r m' ↔ r = .ok a ∧ m' = m := by
  rw [show (pure a : Run α) m = result (.ok a) m from rfl, result_inj, eq_comm, @eq_comm _ m]

theorem raise_result {c : FaultCause} {t : Token} :
    (raise c t : Run α) m = result r m' ↔ r = .error ⟨c, t⟩ ∧ m' = m := by
  rw [show (raise c t : Run α) m = result (.error ⟨c, t⟩) m from rfl, result_inj, eq_comm,
    @eq_comm _ m]

/-- Either both parts have outcomes, or the first one has a fault. -/
theorem bind_result {x : Run α} {f : α → Run β} {r : Outcome β} :
    (x >>= f) m = result r m' ↔
      (∃ a m₁, x m = result (.ok a) m₁ ∧ f a m₁ = result r m') ∨
        ∃ e, x m = result (.error e) m' ∧ r = .error e := by
  cases hx : x m with
  | ok a m₁ =>
    rw [Step.bind_of_ok hx]
    constructor
    · exact fun h => .inl ⟨a, m₁, rfl, h⟩
    · rintro (⟨_, _, ha, h⟩ | ⟨_, he, -⟩)
      · obtain ⟨rfl, rfl⟩ := EStateM.Result.ok.inj ha
        exact h
      · cases he
  | error e m₁ =>
    rw [Step.bind_of_error hx]
    constructor
    · intro h
      cases r with
      | ok b => cases h
      | error f =>
        obtain ⟨rfl, rfl⟩ := EStateM.Result.error.inj h
        exact .inr ⟨f, rfl, rfl⟩
    · rintro (⟨_, _, ha, -⟩ | ⟨_, he, rfl⟩)
      · cases ha
      · obtain ⟨rfl, rfl⟩ := EStateM.Result.error.inj he
        rfl

/-- Something about the machine is put back, whichever way a run ends. -/
theorem restored_result {x : EStateM.Result Halt Machine α} (g : Machine → Machine) :
    (match x with
      | .ok a m => .ok a (g m)
      | .error e m => .error e (g m) : EStateM.Result Halt Machine α) = result r m' ↔
      ∃ m₁, x = result r m₁ ∧ m' = g m₁ := by
  cases x with
  | ok a m₁ =>
    constructor
    · intro h
      obtain ⟨rfl, rfl⟩ := (result_inj (r := .ok a)).mp h
      exact ⟨m₁, rfl, rfl⟩
    · rintro ⟨m₂, h, rfl⟩
      obtain ⟨rfl, rfl⟩ := (result_inj (r := .ok a)).mp h
      rfl
  | error e m₁ =>
    cases r with
    | ok a => simp [result]
    | error f => simp [result, eq_comm, and_assoc]

/-- A run in a frame of its own comes back to the frame around it. -/
theorem inFrame_result {outer : FrameId} {vars : Bindings} {act : Run α} :
    inFrame outer vars act (σ.on κ s d) = result r m' ↔
      ∃ m₁, act ((σ.within outer vars).on κ σ.fresh d) = result r m₁ ∧
        m' = { m₁ with scope := s } :=
  restored_result _

theorem deeper_result {act : Run α} :
    deeper act (σ.on κ s d) = result r m' ↔
      ∃ m₁, act (σ.on κ s (d + 1)) = result r m₁ ∧ m' = { m₁ with depth := m₁.depth - 1 } :=
  restored_result _

/-! ### Names -/

theorem nearest?_eq_some {h : Heap} {x : String} {i : FrameId} {v : Value} :
    h.nearest? x s = some (i, v) ↔ Bound h x (h.chain s) i v := by
  rw [Heap.nearest?]
  induction h.chain s with
  | nil => exact ⟨nofun, nofun⟩
  | cons j is ih =>
    rw [List.findSome?_cons]
    cases hj : h.own? x j with
    | none =>
      refine ih.trans ⟨.outer hj, fun h => ?_⟩
      cases h with
      | here h => simp [hj] at h
      | outer _ h => exact h
    | some w =>
      simp only [Option.map_some, Option.some.injEq, Prod.mk.injEq]
      constructor
      · rintro ⟨rfl, rfl⟩
        exact .here hj
      · intro h
        cases h with
        | here h => exact ⟨rfl, by simpa [hj] using h⟩
        | outer h => simp [hj] at h

theorem nearest?_eq_none {h : Heap} {x : String} : h.nearest? x s = none ↔ Unbound h x s := by
  rw [Heap.nearest?, List.findSome?_eq_none_iff]
  simp [Unbound]

theorem readName_bound {x : Token} {i : FrameId} {v : Value}
    (h : Bound σ.heap x.lexeme (σ.heap.chain s) i v) :
    readName x (σ.on κ s d) = result (.ok v) (σ.on κ s d) := by
  have h : (σ.on κ s d).heap.nearest? x.lexeme (σ.on κ s d).scope = _ := nearest?_eq_some.mpr h
  rw [readName, h]
  rfl

theorem readName_unbound {x : Token} (h : Unbound σ.heap x.lexeme s) :
    readName x (σ.on κ s d) = result (.error ⟨.undefinedVariable, x⟩) (σ.on κ s d) := by
  have h : (σ.on κ s d).heap.nearest? x.lexeme (σ.on κ s d).scope = _ := nearest?_eq_none.mpr h
  rw [readName, h]
  rfl

theorem assign_bound {x : Token} {i : FrameId} {v w : Value}
    (h : Bound σ.heap x.lexeme (σ.heap.chain s) i w) :
    assign x v (σ.on κ s d) = result (.ok ())
      (Store.on { σ with heap := σ.heap.define x.lexeme v i } κ s d) := by
  have h : (σ.on κ s d).heap.nearest? x.lexeme (σ.on κ s d).scope = _ := nearest?_eq_some.mpr h
  rw [assign, h]
  rfl

theorem assign_unbound {x : Token} {v : Value} (h : Unbound σ.heap x.lexeme s) :
    assign x v (σ.on κ s d) = result (.error ⟨.undefinedVariable, x⟩) (σ.on κ s d) := by
  have h : (σ.on κ s d).heap.nearest? x.lexeme (σ.on κ s d).scope = _ := nearest?_eq_none.mpr h
  rw [assign, h]
  rfl

/-- A name is bound somewhere or nowhere. -/
theorem bound_or_unbound (h : Heap) (x : String) (s : FrameId) :
    (∃ i v, Bound h x (h.chain s) i v) ∨ Unbound h x s := by
  cases hn : h.nearest? x s with
  | none => exact .inr (nearest?_eq_none.mp hn)
  | some b => exact .inl ⟨b.1, b.2, nearest?_eq_some.mp hn⟩

/-! ### Operators -/

theorem truthy_iff {v : Value} : v.truthy = true ↔ ¬Falsy v := by
  cases v with
  | bool b => cases b <;> simp [Value.truthy, Falsy]
  | _ => simp [Value.truthy, Falsy]

theorem not_truthy_iff {v : Value} : ¬v.truthy = true ↔ Falsy v := by
  rw [truthy_iff, Classical.not_not]

theorem decides_iff {op : Token} {a : Value} : decides op a = true ↔ Decides op a := by
  rw [decides, Decides, ← truthy_iff, beq_iff_eq, Bool.eq_iff_iff, beq_iff_eq]

/-- A prefix operator makes something of any value. -/
theorem exists_applies (op : Token) (a : Value) : ∃ r, Applies op a r := by
  by_cases hminus : op.kind = .minus
  · by_cases ha : ∃ x, a = .num x
    · obtain ⟨x, rfl⟩ := ha
      exact ⟨_, .negated x hminus⟩
    · exact ⟨_, .notNumber hminus fun x hx => ha ⟨x, hx⟩⟩
  · by_cases hbang : op.kind = .bang
    · by_cases ha : Falsy a
      · exact ⟨_, .falsy hbang ha⟩
      · exact ⟨_, .truthy hbang ha⟩
    · exact ⟨_, .notUnary a hminus hbang⟩

theorem unary_applies {op : Token} {a : Value} {r : Outcome Value} (h : Applies op a r) :
    unary op a m = result r m := by
  cases h with
  | negated x hk =>
    simp only [unary, hk]
    rfl
  | notNumber hk ha =>
    cases a with
    | num x => exact absurd rfl (ha x)
    | _ =>
      simp only [unary, hk]
      rfl
  | falsy hk ha =>
    simp only [unary, hk, Bool.eq_false_iff.mpr (not_truthy_iff.mpr ha)]
    rfl
  | truthy hk ha =>
    simp only [unary, hk, truthy_iff.mpr ha]
    rfl
  | notUnary a hm hb =>
    unfold unary
    cases hk : op.kind with
    | minus => exact absurd hk hm
    | bang => exact absurd hk hb
    | _ => rfl

theorem exists_combines (op : Token) (a b : Value) : ∃ r, Combines op a b r := by
  by_cases heq : op.kind = .equalEqual
  · exact ⟨_, .equal a b heq⟩
  by_cases hne : op.kind = .bangEqual
  · exact ⟨_, .unequal a b hne⟩
  by_cases hn : Numbers a b
  · obtain ⟨x, y, rfl, rfl⟩ := hn
    by_cases hplus : op.kind = .plus
    · exact ⟨_, .sum x y hplus⟩
    · cases hf : arithmetic op.kind with
      | none => exact ⟨_, .notBinary _ _ heq hne hplus hf⟩
      | some f => exact ⟨_, .numbers x y hf⟩
  · by_cases hplus : op.kind = .plus
    · by_cases hs : Strings a b
      · obtain ⟨s, t, rfl, rfl⟩ := hs
        exact ⟨_, .joined s t hplus⟩
      · exact ⟨_, .notAddable hplus hn hs⟩
    · cases hf : arithmetic op.kind with
      | none => exact ⟨_, .notBinary _ _ heq hne hplus hf⟩
      | some f => exact ⟨_, .notNumbers hf hn⟩

theorem onNumbers_fault {op : Token} {f : Float → Float → Value} {a b : Value}
    (h : ¬Numbers a b) : onNumbers op f a b m = result (.error ⟨.numberOperands, op⟩) m := by
  unfold onNumbers
  split
  · next x y => exact absurd ⟨x, y, rfl, rfl⟩ h
  · rfl

theorem plus_fault {op : Token} {a b : Value} (hn : ¬Numbers a b) (hs : ¬Strings a b) :
    plus op a b m = result (.error ⟨.addOperands, op⟩) m := by
  unfold plus
  split
  · next x y => exact absurd ⟨x, y, rfl, rfl⟩ hn
  · next s t => exact absurd ⟨s, t, rfl, rfl⟩ hs
  · rfl

/-- The arithmetic operators work on numbers alone. -/
theorem binary_arithmetic {op : Token} {f : Float → Float → Value}
    (hf : arithmetic op.kind = some f) (a b : Value) : binary op a b = onNumbers op f a b := by
  unfold binary
  cases hk : op.kind <;> simp only [arithmetic, hk, Option.some.injEq, reduceCtorEq] at hf <;>
    subst hf <;> rfl

theorem binary_combines {op : Token} {a b : Value} {r : Outcome Value} (h : Combines op a b r) :
    binary op a b m = result r m := by
  cases h with
  | equal a b hk | unequal a b hk | sum x y hk | joined s t hk =>
    simp only [binary, hk]
    rfl
  | notAddable hk hn hs =>
    simp only [binary, hk]
    exact plus_fault hn hs
  | numbers x y hf =>
    rw [binary_arithmetic hf]
    rfl
  | notNumbers hf hn =>
    rw [binary_arithmetic hf]
    exact onNumbers_fault hn
  | notBinary a b heq hne hplus hf =>
    unfold binary
    cases hk : op.kind with
    | equalEqual => exact absurd hk heq
    | bangEqual => exact absurd hk hne
    | plus => exact absurd hk hplus
    | minus | slash | star | greater | greaterEqual | less | lessEqual =>
      rw [hk] at hf
      cases hf
    | _ => rfl

/-- A step that always has one of the outcomes `J` has no other. -/
theorem only_result {act : Run α} {J : Outcome α → Prop} (hex : ∃ r, J r)
    (hact : ∀ r, J r → act m = result r m) : act m = result r m' ↔ J r ∧ m' = m := by
  constructor
  · intro h
    obtain ⟨r₀, hr₀⟩ := hex
    obtain ⟨rfl, rfl⟩ := result_inj.mp ((hact r₀ hr₀).symm.trans h)
    exact ⟨hr₀, rfl⟩
  · rintro ⟨hr, rfl⟩
    exact hact r hr

theorem unary_result {op : Token} {a : Value} {r : Outcome Value} :
    unary op a m = result r m' ↔ Applies op a r ∧ m' = m :=
  only_result (exists_applies op a) fun _ => unary_applies

theorem binary_result {op : Token} {a b : Value} {r : Outcome Value} :
    binary op a b m = result r m' ↔ Combines op a b r ∧ m' = m :=
  only_result (exists_combines op a b) fun _ => binary_combines

/-! ### Output -/

theorem printLine_written {k : Token} {t : String} {out : Output}
    (h : σ.out.write (t ++ "\n") = (none, out)) :
    printLine k t (σ.on κ s d) = result (.ok ()) (Store.on { σ with out } κ s d) := by
  have h : (σ.on κ s d).out.write (t ++ "\n") = _ := h
  rw [printLine, h]
  rfl

theorem printLine_refused {k : Token} {t : String} {r : Refusal} {out : Output}
    (h : σ.out.write (t ++ "\n") = (some r, out)) :
    printLine k t (σ.on κ s d) =
      result (.error ⟨.output r, k⟩) (Store.on { σ with out } κ s d) := by
  have h : (σ.on κ s d).out.write (t ++ "\n") = _ := h
  rw [printLine, h]
  rfl

/-! ### Calls -/

theorem tick_result {r : Outcome Value} :
    tick m = result r m' ↔ ∃ x, m.clock m.ticks = some x ∧ r = .ok (.num x) ∧
      m' = { m with ticks := m.ticks + 1 } := by
  cases hx : m.clock m.ticks with
  | none =>
    rw [show tick m = .error .exhausted m by rw [tick, hx]]
    exact ⟨fun h => absurd h exhausted_ne_result, nofun⟩
  | some x =>
    rw [show tick m = result (.ok (.num x)) { m with ticks := m.ticks + 1 } by rw [tick, hx]; rfl,
      result_inj]
    constructor
    · rintro ⟨rfl, rfl⟩
      exact ⟨x, rfl, rfl, rfl⟩
    · rintro ⟨_, ⟨rfl⟩, rfl, rfl⟩
      exact ⟨rfl, rfl⟩

section
variable {exec : Stmt → Run Flow} {paren : Token} {c : Callable} {vs : List Value}

theorem call_notCallable {v : Value} (h : ∀ c, v ≠ .callable c) :
    call exec paren v vs = raise .notCallable paren := by
  cases v with
  | callable c => exact absurd rfl (h c)
  | _ => rfl

theorem call_wrongArity (h : c.arity ≠ vs.length) :
    call exec paren (.callable c) vs = raise (.wrongArity c.arity vs.length) paren := by
  rw [call, if_pos h]

theorem call_stackOverflow (h : c.arity = vs.length) (hd : maxCallDepth ≤ d) :
    call exec paren (.callable c) vs (σ.on κ s d) = raise .stackOverflow paren (σ.on κ s d) := by
  have hget : (get : Run Machine) (σ.on κ s d) = .ok (σ.on κ s d) (σ.on κ s d) := rfl
  rw [call, if_neg (not_not_intro h), Step.bind_of_ok hget]
  exact congrFun (if_pos hd) _

theorem call_deeper (h : c.arity = vs.length) (hd : d < maxCallDepth) :
    call exec paren (.callable c) vs (σ.on κ s d) = deeper (invoke exec c vs) (σ.on κ s d) := by
  have hget : (get : Run Machine) (σ.on κ s d) = .ok (σ.on κ s d) (σ.on κ s d) := rfl
  rw [call, if_neg (not_not_intro h), Step.bind_of_ok hget]
  exact congrFun (if_neg (Nat.not_le.mpr hd)) _

end

end Run
end Lox
