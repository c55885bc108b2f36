import Lox.Proofs.Run.Logic
import Lox.Proofs.Session.Joined

/-!
Readings of the clock. A run that is not cut off has found all the readings it asks for, so it goes
the same on every clock that shows these. A source can therefore be run on the readings that are
known, and again with one more whenever it is cut off: the run that ends is the one it has on the
clock that they were read from.
-/

namespace Lox

namespace Run

section
variable {α β : Type} {κ κ' : Nat → Option Float} {R : Heap → α → Prop}
  {x y : EStateM.Result Halt Machine α}

/-- How a run on the clock `κ` compares to one on `κ'`, which shows more: unless the first is cut
off, they are the same. -/
inductive Foreseen (κ κ' : Nat → Option Float) (R : Heap → α → Prop) :
    EStateM.Result Halt Machine α → EStateM.Result Halt Machine α → Prop where
  | ok {a m} : m.clock = κ → R m.heap a → Foreseen κ κ' R (.ok a m) (.ok a (m.onClock κ'))
  | fault {f m} : Foreseen κ κ' R (.error (.fault f) m) (.error (.fault f) (m.onClock κ'))
  | cutOff {m y} : Foreseen κ κ' R (.error .exhausted m) y

theorem Foreseen.mapState {g g' : Machine → Machine} (h : Foreseen κ κ' R x y)
    (hclock : ∀ m, (g m).clock = m.clock) (hheap : ∀ m, (g m).heap = m.heap)
    (hg : ∀ m, g' (m.onClock κ') = (g m).onClock κ') :
    Foreseen κ κ' R (Step.mapState g x) (Step.mapState g' y) := by
  cases h with
  | ok hm hR =>
    simp only [Step.mapState, hg]
    exact .ok ((hclock _).trans hm) (by rwa [hheap])
  | fault =>
    simp only [Step.mapState, hg]
    exact .fault
  | cutOff => exact .cutOff

/-- A step after another one. It is not started if that one is cut off. -/
theorem Foreseen.bind {R' : Heap → β → Prop} {act : Run α} {f : α → Run β} {m : Machine}
    (hx : Foreseen κ κ' R (act m) (act (m.onClock κ')))
    (hf : ∀ a m₁, act m = .ok a m₁ → R m₁.heap a → m₁.clock = κ →
      Foreseen κ κ' R' (f a m₁) (f a (m₁.onClock κ'))) :
    Foreseen κ κ' R' ((act >>= f) m) ((act >>= f) (m.onClock κ')) := by
  generalize hres : act m = x, hres' : act (m.onClock κ') = y at hx
  cases hx with
  | ok hm hR =>
    rw [Step.bind_of_ok hres, Step.bind_of_ok hres']
    exact hf _ _ hres hR hm
  | fault =>
    rw [Step.bind_of_error hres, Step.bind_of_error hres']
    exact .fault
  | cutOff =>
    rw [Step.bind_of_error hres]
    exact .cutOff

theorem Foreseen.inFrame {act : Run α} {m : Machine} {i : FrameId} {vars : Bindings}
    (h : Foreseen κ κ' R (act (m.within i vars)) (act ((m.within i vars).onClock κ'))) :
    Foreseen κ κ' R (Run.inFrame i vars act m) (Run.inFrame i vars act (m.onClock κ')) := by
  rw [inFrame_eq, inFrame_eq]
  exact h.mapState (fun _ => rfl) (fun _ => rfl) fun _ => rfl

end

/-- A clock that shows more makes no difference to a run that is not cut off. -/
def foresight (κ κ' : Nat → Option Float) (hκ : ∀ i t, κ i = some t → κ' i = some t) : Logic where
  Among := fun _ => True
  leads := fun _ _ => trivial
  Good := fun _ _ => True
  plain := fun _ => trivial
  mono := fun _ _ => trivial
  Holds := fun R x m => m.clock = κ → Foreseen κ κ' R (x m) (x (m.onClock κ'))
  pure := fun hR hm => .ok hm hR
  bind := fun hx hf hm => (hx hm).bind hf
  exhausted := fun _ => .cutOff
  raise := fun _ _ _ _ => .fault
  readName := by
    intro x m hm
    rw [readName, readName, show (m.onClock κ').heap.nearest? x.lexeme (m.onClock κ').scope =
      m.heap.nearest? x.lexeme m.scope from rfl]
    cases m.heap.nearest? x.lexeme m.scope with
    | none => exact .fault
    | some b => exact .ok hm trivial
  assign := by
    intro x v m _ hm
    rw [assign, assign, show (m.onClock κ').heap.nearest? x.lexeme (m.onClock κ').scope =
      m.heap.nearest? x.lexeme m.scope from rfl]
    cases m.heap.nearest? x.lexeme m.scope with
    | none => exact .fault
    | some b => exact .ok hm trivial
  define := fun _ _ _ _ hm => .ok hm trivial
  declare := fun _ hm => .ok hm trivial
  printLine := by
    intro t e n v m₀ m k _ _ hm
    rw [printLine, printLine, show (m.onClock κ').out = m.out from rfl]
    cases m.out.write (v.text ++ "\n") with
    | mk refusal out =>
      cases refusal with
      | none => exact .ok hm trivial
      | some r => exact .fault
  tick := by
    intro m hm
    cases hread : m.clock m.ticks with
    | none =>
      rw [show tick m = .error .exhausted m by rw [tick, hread]]
      exact .cutOff
    | some t =>
      have hread' : (m.onClock κ').clock (m.onClock κ').ticks = some t := hκ _ _ (hm ▸ hread)
      rw [tick, tick, hread, hread']
      exact .ok hm trivial
  block := fun hx hm => .inFrame (hx hm)
  enter := fun _ _ hx hm => .inFrame (hx hm)
  guard := by
    intro _ _ x y m hx hy hm
    rw [guard_eq, guard_eq, show (m.onClock κ').depth = m.depth from rfl]
    split
    · next hdepth => exact hx hdepth hm
    · next hdepth => exact hy (Nat.not_le.mp hdepth) hm
  deeper := by
    intro _ _ x m hx hm
    rw [deeper_eq, deeper_eq]
    exact (hx hm).mapState (fun _ => rfl) (fun _ => rfl) fun _ => rfl

end Run

open Run

/-- A source that is not cut off goes the same on a clock that shows more, and so on the one that
the readings it found were taken from. -/
theorem Session.run_onClock {s : Session} {n : Nat} {src : String} {clock : Nat → Option Float}
    (hclock : ∀ i t, s.machine.clock i = some t → clock i = some t)
    (h : (s.run n src).1.result ≠ .exhausted) :
    (s.onClock clock).run n src = ((s.run n src).1, (s.run n src).2.onClock clock) := by
  cases hparse : parseSource src with
  | error errors => simp only [run, hparse]
  | ok program =>
    have hseen := (foresight s.machine.clock clock hclock).execAll (m := s.machine.ready) (k := 0) n
      program trivial rfl
    rw [run_of_parse hparse] at h ⊢
    rw [run_of_parse hparse,
      show (s.onClock clock).machine.ready = s.machine.ready.onClock clock from rfl]
    generalize sequence (exec n) program s.machine.ready = x, sequence (exec n) program
      (s.machine.ready.onClock clock) = y at h hseen ⊢
    cases hseen with
    | ok _ _ | fault => rfl
    | cutOff => exact absurd rfl h

end Lox
