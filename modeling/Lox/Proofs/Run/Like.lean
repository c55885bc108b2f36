import Lox.Proofs.Grammar.Like
import Lox.Run.Machine

/-!
Runs of one shape. Machines are alike when they hold the same, but for the tokens of their
functions, and when one of them may have written something before. Runs are alike when from machines
that are alike they come to results that are, and leave machines that are alike again.
-/

namespace Lox

/-! ### Values, frames and machines -/

section
variable (R : Token → Token → Prop)

/-- Values that are alike, with tokens related by `R`. -/
inductive Value.Like : Value → Value → Prop where
  | nil : Like .nil .nil
  | bool (b : Bool) : Like (.bool b) (.bool b)
  | num (x : Float) : Like (.num x) (.num x)
  | str (s : String) : Like (.str s) (.str s)
  | clock : Like (.callable .clock) (.callable .clock)
  | function {f f' : Closure} : f.id = f'.id → R f.name f'.name →
      List.Forall₂ R f.params f'.params → List.Forall₂ (Stmt.Like R) f.body f'.body →
      f.frame = f'.frame →
      Like (.callable (.function f)) (.callable (.function f'))

/-- Bindings of the same names to values that are alike. -/
def Bindings.Like (b b' : Bindings) : Prop :=
  List.Forall₂ (fun p p' => p.1 = p'.1 ∧ Value.Like R p.2 p'.2) b b'

/-- Frames at the same place, with bindings that are alike. -/
structure Frame.Like (f f' : Frame) : Prop where
  outer : f.outer = f'.outer
  vars : Bindings.Like R f.vars f'.vars

/-- Heaps of as many frames, which are alike one by one. -/
structure Heap.Like (h h' : Heap) : Prop where
  size : h.frames.size = h'.frames.size
  frame (i : FrameId) : Option.Rel (Frame.Like R) h.frames[i]? h'.frames[i]?

/-- Output that is alike, except that one of the two starts with `w`. -/
structure Output.Behind (w : ByteArray) (o o' : Output) : Prop where
  written : o'.written = w ++ o.written
  room : o.room = o'.room
  refusal : o.refusal = o'.refusal

/-- Machines that are alike, except that one of the two has written `w` before. -/
structure Machine.Like (w : ByteArray) (m m' : Machine) : Prop where
  heap : Heap.Like R m.heap m'.heap
  scope : m.scope = m'.scope
  depth : m.depth = m'.depth
  made : m.made = m'.made
  clock : m.clock = m'.clock
  ticks : m.ticks = m'.ticks
  out : Output.Behind w m.out m'.out

/-- Faults that say the same, at tokens that are related. -/
structure Fault.Like (f f' : Fault) : Prop where
  cause : f.cause = f'.cause
  token : R f.token f'.token

namespace Run

/-- Steps that end alike, with results related by `L`. -/
inductive Same {α β : Type} (w : ByteArray) (L : α → β → Prop) :
    EStateM.Result Halt Machine α → EStateM.Result Halt Machine β → Prop where
  | ok {a b m m'} : L a b → Machine.Like R w m m' → Same w L (.ok a m) (.ok b m')
  | fault {f f' m m'} : Fault.Like R f f' → Machine.Like R w m m' →
      Same w L (.error (.fault f) m) (.error (.fault f') m')
  | exhausted {m m'} : Machine.Like R w m m' → Same w L (.error .exhausted m) (.error .exhausted m')

/-- From machines that are alike, `x` and `y` end alike. -/
def Simulates {α β : Type} (w : ByteArray) (L : α → β → Prop) (x : Run α) (y : Run β) : Prop :=
  ∀ m m', Machine.Like R w m m' → Same R w L (x m) (y m')

end Run
end

/-- Related tokens are of one kind and written alike. -/
structure Faithful (R : Token → Token → Prop) : Prop where
  kind {t t' : Token} : R t t' → t.kind = t'.kind
  lexeme {t t' : Token} : R t t' → t.lexeme = t'.lexeme

section
variable {R : Token → Token → Prop} {w : ByteArray}

/-! ### Tokens of functions -/

/-- The tokens that a value keeps; only functions have any. -/
def Value.kept : Value → List Token
  | .callable (.function f) => f.name :: (f.params ++ Stmt.allKept f.body)
  | _ => []

/-- Some function in a heap keeps the token. -/
def Heap.Keeps (h : Heap) (t : Token) : Prop := ∃ f ∈ h.frames, ∃ p ∈ f.vars, t ∈ p.2.kept

/-- A value is like itself when its tokens are related to themselves. -/
theorem Value.Like.refl (v : Value) (h : ∀ t ∈ v.kept, R t t) : Value.Like R v v := by
  cases v with
  | nil => exact .nil
  | bool b => exact .bool b
  | num x => exact .num x
  | str s => exact .str s
  | callable c =>
    cases c with
    | clock => exact .clock
    | function f =>
      simp only [kept, List.forall_mem_cons, List.forall_mem_append] at h
      obtain ⟨hname, hparams, hbody⟩ := h
      exact .function rfl hname (List.forall₂_same.mpr hparams) (Stmt.Like.allRefl _ hbody) rfl

theorem Heap.Like.refl {h : Heap} (hR : ∀ t, h.Keeps t → R t t) : Heap.Like R h h where
  size := rfl
  frame i := by
    cases hf : h.frames[i]? with
    | none => exact .none
    | some f =>
      refine .some ⟨rfl, List.forall₂_same.mpr fun p hp => ⟨rfl, .refl _ fun t ht => ?_⟩⟩
      exact hR t ⟨f, Array.mem_of_getElem? hf, p, hp, ht⟩

/-! ### Output -/

theorem Output.Behind.write {o o' : Output} (h : Output.Behind w o o') (s : String) :
    (o.write s).1 = (o'.write s).1 ∧ Output.Behind w (o.write s).2 (o'.write s).2 := by
  obtain ⟨written, room, refusal⟩ := o
  obtain ⟨written', room', refusal'⟩ := o'
  obtain ⟨hw, hroom, hrefusal⟩ := h
  simp only at hw hroom hrefusal
  subst hw hroom hrefusal
  cases room with
  | none => exact ⟨rfl, ByteArray.append_assoc, rfl, rfl⟩
  | some n =>
    simp only [Output.write]
    split
    · exact ⟨rfl, ByteArray.append_assoc, rfl, rfl⟩
    · exact ⟨rfl, ByteArray.append_assoc, rfl, rfl⟩

end
end Lox
