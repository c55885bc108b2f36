import Lox.Proofs.Run.BigStepSound
import Mathlib

/-!
Equality of values. Doubles are equal by the rules for doubles, by which `NaN` differs from itself
and the two zeros are equal; for all other values equality is as good as identity. Comparing values
never faults.
-/

namespace Lox

/-! ### Values -/

namespace Value

/-- Which values are equal, kind by kind: functions are by their numbers. -/
inductive Equal : Value → Value → Prop where
  | nil : Equal .nil .nil
  | bool (b : Bool) : Equal (.bool b) (.bool b)
  | num {x y : Float} : (x == y) = true → Equal (.num x) (.num y)
  | str (s : String) : Equal (.str s) (.str s)
  | clock : Equal (.callable .clock) (.callable .clock)
  | function {f g : Closure} : f.id = g.id →
      Equal (.callable (.function f)) (.callable (.function g))

variable {a b c : Value}

theorem same_iff : a.same b = true ↔ Equal a b := by
  constructor
  · intro h
    cases a with
    | nil =>
      cases b with
      | nil => exact .nil
      | _ => cases h
    | bool p =>
      cases b with
      | bool => exact eq_of_beq h ▸ .bool p
      | _ => cases h
    | num x =>
      cases b with
      | num => exact .num h
      | _ => cases h
    | str s =>
      cases b with
      | str => exact eq_of_beq h ▸ .str s
      | _ => cases h
    | callable f =>
      cases b with
      | callable g =>
        cases f with
        | clock =>
          cases g with
          | clock => exact .clock
          | function => cases h
        | function f =>
          cases g with
          | clock => cases h
          | function g => exact .function (eq_of_beq h)
      | _ => cases h
  · intro h
    cases h with
    | nil | clock => rfl
    | num h => exact h
    | bool | str => exact beq_self_eq_true _
    | function h => exact beq_iff_eq.mpr h

theorem same_symm (h : a.same b = true) : b.same a = true := by
  rw [same_iff] at h ⊢
  cases h with
  | nil => exact .nil
  | bool p => exact .bool p
  | num h => exact .num (BEq.symm h)
  | str s => exact .str s
  | clock => exact .clock
  | function h => exact .function h.symm

theorem same_trans (h : a.same b = true) (h' : b.same c = true) : a.same c = true := by
  rw [same_iff] at h h' ⊢
  cases h with
  | nil | bool | str | clock => exact h'
  | num h =>
    cases h' with
    | num h' => exact .num (BEq.trans h h')
  | function h =>
    cases h' with
    | function h' => exact .function (h.trans h')

/-- Every value is equal to itself, but for `NaN`. -/
theorem same_self : a.same a = true ↔ ¬∃ x, a = .num x ∧ x.isNaN = true := by
  rw [same_iff]
  constructor
  · rintro h ⟨x, rfl, hx⟩
    rw [Float.isNaN_eq_decide_eq_nan, decide_eq_true_eq] at hx
    cases h with
    | num h => exact Float.beq_self_iff.mp h hx
  · intro h
    cases a with
    | nil => exact .nil
    | bool b => exact .bool b
    | num x =>
      refine .num (Float.beq_self_iff.mpr fun hx => h ⟨x, rfl, ?_⟩)
      rw [Float.isNaN_eq_decide_eq_nan, decide_eq_true hx]
    | str s => exact .str s
    | callable c =>
      cases c with
      | clock => exact .clock
      | function f => exact .function rfl

end Value

/-! ### Operators -/

namespace Run

variable {op : Token} {a b : Value} {m m₁ m₂ : Machine} {l r : Expr} {n : Nat}

theorem eval_binary (ha : eval n l m = .ok a m₁) (hb : eval n r m₁ = .ok b m₂) :
    eval (n + 1) (.binary l op r) m = binary op a b m₂ := by
  rw [eval_succ]
  exact (Step.bind_of_ok ha _).trans (Step.bind_of_ok hb _)

/-- Once it has its operands, `==` says whether they are equal. -/
theorem eval_equal (hop : op.kind = .equalEqual) (ha : eval n l m = .ok a m₁)
    (hb : eval n r m₁ = .ok b m₂) :
    eval (n + 1) (.binary l op r) m = .ok (.bool (a.same b)) m₂ := by
  rw [eval_binary ha hb]
  simp only [binary, hop]
  rfl

/-- Once it has its operands, `!=` says whether they are not equal. -/
theorem eval_unequal (hop : op.kind = .bangEqual) (ha : eval n l m = .ok a m₁)
    (hb : eval n r m₁ = .ok b m₂) :
    eval (n + 1) (.binary l op r) m = .ok (.bool (!a.same b)) m₂ := by
  rw [eval_binary ha hb]
  simp only [binary, hop]
  rfl

end Run
end Lox
