import Lox.Proofs.Run.Frames
import Mathlib.Data.List.Forall2
import Mathlib.Data.Option.Basic

/-!
Values and frames in two runs that correspond. Names may be spelled differently, as long as what is
one name in one of the runs is one name in the other, and functions may have other bodies. Where
frames correspond, a name is found in the same frame on both sides, with values that correspond.
-/

namespace Lox

/-- What stands for what in two runs: names and their spellings, and bodies of functions. -/
structure Correspondence where
  Name : Token → Token → Prop
  Key : String → String → Prop
  Body : List Stmt → List Stmt → Prop
  key {x x' : Token} : Name x x' → Key x.lexeme x'.lexeme
  one_to_one {x x' y y' : String} : Key x x' → Key y y' → (x = y ↔ x' = y')

/-- Names are spelled alike in both runs. -/
def Correspondence.spelled (Name : Token → Token → Prop) (Body : List Stmt → List Stmt → Prop)
    (hname : ∀ {x x'}, Name x x' → x.lexeme = x'.lexeme) : Correspondence where
  Name := Name
  Key := Eq
  Body := Body
  key := hname
  one_to_one hx hy := hx ▸ hy ▸ Iff.rfl

/-! ### Values, frames and heaps -/

section
variable (c : Correspondence)

/-- Functions correspond when they were made at the same time and in the same frame, by declarations
that correspond. Other values only correspond to themselves. -/
inductive Value.Coupled : Value → Value → Prop where
  | nil : Coupled .nil .nil
  | bool (b : Bool) : Coupled (.bool b) (.bool b)
  | num (x : Float) : Coupled (.num x) (.num x)
  | str (s : String) : Coupled (.str s) (.str s)
  | clock : Coupled (.callable .clock) (.callable .clock)
  | function {f f' : Closure} : f.id = f'.id → c.Name f.name f'.name →
      List.Forall₂ c.Name f.params f'.params → c.Body f.body f'.body → f.frame = f'.frame →
      Coupled (.callable (.function f)) (.callable (.function f'))

/-- Bindings of names that correspond to values that do. -/
def Bindings.Coupled (b b' : Bindings) : Prop :=
  List.Forall₂ (fun p p' => c.Key p.1 p'.1 ∧ Value.Coupled c p.2 p'.2) b b'

/-- Frames at the same place, with bindings that correspond. -/
structure Frame.Coupled (f f' : Frame) : Prop where
  outer : f.outer = f'.outer
  vars : Bindings.Coupled c f.vars f'.vars

/-- Heaps of as many frames, which correspond one by one. -/
structure Heap.Coupled (h h' : Heap) : Prop where
  size : h.frames.size = h'.frames.size
  frame (i : FrameId) : Option.Rel (Frame.Coupled c) h.frames[i]? h'.frames[i]?

end

variable {c : Correspondence}

/-! ### What is seen of a value -/

namespace Value.Coupled

variable {a a' b b' : Value}

theorem truthy (h : Value.Coupled c a a') : a.truthy = a'.truthy := by
  cases h <;> rfl

theorem same (ha : Value.Coupled c a a') (hb : Value.Coupled c b b') : a.same b = a'.same b' := by
  cases ha with
  | function hid =>
    cases hb with
    | function hid' => simp only [Value.same, Callable.same, hid, hid']
    | _ => rfl
  | _ => cases hb <;> rfl

/-- Where names are spelled alike, values look alike. -/
theorem text {Name : Token → Token → Prop} {Body : List Stmt → List Stmt → Prop}
    {hname : ∀ {x x'}, Name x x' → x.lexeme = x'.lexeme}
    (h : Value.Coupled (.spelled Name Body hname) a a') : a.text = a'.text := by
  cases h with
  | function _ hx => simp only [Value.text, Callable.text, hname hx]
  | _ => rfl

theorem arity {f f' : Callable} (h : Value.Coupled c (.callable f) (.callable f')) :
    f.arity = f'.arity := by
  cases h with
  | clock => rfl
  | function _ _ hparams => exact hparams.length_eq

theorem toValue (v : Literal) : Value.Coupled c v.toValue v.toValue := by
  cases v with
  | nil => exact .nil
  | bool b => exact .bool b
  | num x => exact .num x
  | str s => exact .str s

end Value.Coupled

/-! ### Bindings -/

namespace Bindings.Coupled

variable {b b' : Bindings} {x x' : String} {v v' : Value}

theorem lookup (h : Bindings.Coupled c b b') (hx : c.Key x x') :
    Option.Rel (Value.Coupled c) (b.lookup x) (b'.lookup x') := by
  induction h with
  | nil => exact .none
  | @cons p p' b b' hp _ ih =>
    obtain ⟨y, v⟩ := p
    obtain ⟨y', v'⟩ := p'
    obtain ⟨hy, hv⟩ := hp
    rw [List.lookup_cons, List.lookup_cons,
      show (x == y) = (x' == y') from decide_eq_decide.mpr (c.one_to_one hx hy)]
    cases x' == y' with
    | true => exact .some hv
    | false => exact ih

theorem put (h : Bindings.Coupled c b b') (hx : c.Key x x') (hv : Value.Coupled c v v') :
    Bindings.Coupled c (b.put x v) (b'.put x' v') := by
  induction h with
  | nil => exact .cons ⟨hx, hv⟩ .nil
  | @cons p p' b b' hp hb ih =>
    obtain ⟨y, w⟩ := p
    obtain ⟨y', w'⟩ := p'
    obtain ⟨hy, hw⟩ := hp
    rw [Bindings.put, Bindings.put,
      show (y == x) = (y' == x') from decide_eq_decide.mpr (c.one_to_one hy hx)]
    by_cases hyx : (y' == x') = true
    · rw [if_pos hyx, if_pos hyx]
      exact .cons ⟨hy, hv⟩ hb
    · rw [if_neg hyx, if_neg hyx]
      exact .cons ⟨hy, hw⟩ ih

theorem ofArguments {ps ps' : List Token} (hps : List.Forall₂ c.Name ps ps')
    {vs vs' : List Value} (hvs : List.Forall₂ (Value.Coupled c) vs vs') :
    Bindings.Coupled c (.ofArguments ps vs) (.ofArguments ps' vs') := by
  suffices h : ∀ b b', Bindings.Coupled c b b' → Bindings.Coupled c
      ((ps.zip vs).foldl (fun b p => b.put p.1.lexeme p.2) b)
      ((ps'.zip vs').foldl (fun b p => b.put p.1.lexeme p.2) b') from h _ _ .nil
  induction hps generalizing vs vs' with
  | nil => exact fun b b' hb => hb
  | cons hp _ ih =>
    intro b b' hb
    cases hvs with
    | nil => exact hb
    | cons hv hvs => exact ih hvs _ _ (hb.put (c.key hp) hv)

end Bindings.Coupled

/-! ### Heaps -/

namespace Heap.Coupled

variable {h h' : Heap} {x x' : String} {v v' : Value}

theorem chain (hh : Heap.Coupled c h h') (i : FrameId) : h.chain i = h'.chain i := by
  rw [Heap.chain, Heap.chain]
  have hi := hh.frame i
  generalize h.frames[i]? = f, h'.frames[i]? = f' at hi ⊢
  cases hi with
  | none => rfl
  | some hi => simp only [hi.outer]

theorem own? (hh : Heap.Coupled c h h') (hx : c.Key x x') (i : FrameId) :
    Option.Rel (Value.Coupled c) (h.own? x i) (h'.own? x' i) := by
  rw [Heap.own?, Heap.own?]
  have hi := hh.frame i
  generalize h.frames[i]? = f, h'.frames[i]? = f' at hi ⊢
  cases hi with
  | none => exact .none
  | some hi => exact hi.vars.lookup hx

theorem nearest? (hh : Heap.Coupled c h h') (hx : c.Key x x') (i : FrameId) :
    Option.Rel (fun b b' => b.1 = b'.1 ∧ Value.Coupled c b.2 b'.2) (h.nearest? x i)
      (h'.nearest? x' i) := by
  rw [Heap.nearest?, Heap.nearest?, hh.chain i]
  induction h'.chain i with
  | nil => exact .none
  | cons j is ih =>
    rw [List.findSome?_cons, List.findSome?_cons]
    have hj := hh.own? hx j
    generalize h.own? x j = v, h'.own? x' j = v' at hj ⊢
    cases hj with
    | none => exact ih
    | some hj => exact .some ⟨rfl, hj⟩

theorem define (hh : Heap.Coupled c h h') (hx : c.Key x x') (hv : Value.Coupled c v v')
    (i : FrameId) : Heap.Coupled c (h.define x v i) (h'.define x' v' i) where
  size := by rw [size_define, size_define, hh.size]
  frame j := by
    have hj := hh.frame j
    by_cases hij : i = j
    · subst hij
      rw [frames_define_self, frames_define_self]
      generalize h.frames[i]? = f, h'.frames[i]? = f' at hj ⊢
      cases hj with
      | none => exact .none
      | some hj => exact .some ⟨hj.outer, hj.vars.put hx hv⟩
    · rwa [frames_define_ne hij, frames_define_ne hij]

theorem push (hh : Heap.Coupled c h h') (i : FrameId) {vars vars' : Bindings}
    (hvars : Bindings.Coupled c vars vars') :
    Heap.Coupled c (h.push i vars).2 (h'.push i vars').2 where
  size := by rw [size_push, size_push, hh.size]
  frame j := by
    simp only [Heap.push, Array.getElem?_push, hh.size]
    by_cases hj : j = h'.frames.size
    · rw [if_pos hj, if_pos hj]
      exact .some ⟨hh.chain i, hvars⟩
    · rw [if_neg hj, if_neg hj]
      exact hh.frame j

theorem start (hclock : c.Key "clock" "clock") : Heap.Coupled c .start .start where
  size := rfl
  frame i := by
    cases i with
    | zero => exact .some ⟨rfl, .cons ⟨hclock, .clock⟩ .nil⟩
    | succ i => exact .none

end Heap.Coupled
end Lox
