import Lox.Run.Value

/-!
Frames of variables. A frame binds names to values and knows the frames around it, from the nearest
one out to the global frame. A name means its nearest binding, both when it is read and when it is
assigned to. Frames are never given up, because functions may remember them.
-/

namespace Lox

/-- What a frame binds, each name once. -/
abbrev Bindings := List (String × Value)

/-- Bind a name, in place of what it was bound to. -/
def Bindings.put (x : String) (v : Value) : Bindings → Bindings
  | [] => [(x, v)]
  | (y, w) :: r => if y == x then (y, v) :: r else (y, w) :: put x v r

/-- Each parameter with its argument; of a name that occurs twice the last argument counts. -/
def Bindings.ofArguments (params : List Token) (args : List Value) : Bindings :=
  (params.zip args).foldl (fun b p => b.put p.1.lexeme p.2) []

/-- The variables of one block, one call, or the whole program. -/
structure Frame where
  /-- The frames around this one, the nearest first. -/
  outer : List FrameId
  vars : Bindings

/-- All frames made so far; a frame is named by its place. -/
structure Heap where
  frames : Array Frame

namespace Heap

/-- The frame that is around all others. -/
def globals : FrameId := 0

/-- What a frame itself binds a name to. -/
def own? (h : Heap) (x : String) (i : FrameId) : Option Value :=
  match h.frames[i]? with
  | some f => f.vars.lookup x
  | none => none

/-- A frame and the frames around it. -/
def chain (h : Heap) (i : FrameId) : List FrameId :=
  match h.frames[i]? with
  | some f => i :: f.outer
  | none => []

/-- The nearest binding of a name as seen from a frame: the frame that has it, and the value. -/
def nearest? (h : Heap) (x : String) (i : FrameId) : Option (FrameId × Value) :=
  (h.chain i).findSome? fun j => (h.own? x j).map (j, ·)

/-- Bind a name in a frame itself. -/
def define (h : Heap) (x : String) (v : Value) (i : FrameId) : Heap :=
  ⟨h.frames.modify i fun f => { f with vars := f.vars.put x v }⟩

/-- A new frame inside `i`. -/
def push (h : Heap) (i : FrameId) (vars : Bindings) : FrameId × Heap :=
  let id := h.frames.size
  let outer := h.chain i
  (id, ⟨h.frames.push ⟨outer, vars⟩⟩)

/-- The global frame alone, which binds the clock. -/
def start : Heap := ⟨#[⟨[], [("clock", .callable .clock)]⟩]⟩

end Heap
end Lox
