/-!
Output that may come to an end. It takes bytes up to a limit, and refuses the first one beyond it;
what fitted before is written all the same.
-/

namespace Lox

/-- Why no more bytes are taken, in the words of what refuses them. -/
structure Refusal where
  message : String
  deriving DecidableEq, Repr

/-- There is no room left. -/
def Refusal.full : Refusal := ⟨"disk full"⟩

/-- Nothing is taken, and no reason is given. -/
def Refusal.stuck : Refusal := ⟨"failed to write whole buffer"⟩

/-- What has been written, and what may still be. -/
structure Output where
  written : ByteArray
  /-- How many more bytes are taken; there may be no limit. -/
  room : Option Nat
  refusal : Refusal

/-- Output without a limit. -/
def Output.unlimited : Output := ⟨.empty, none, .full⟩

/-- Write a text, or as much of it as there is room for. -/
def Output.write (o : Output) (s : String) : Option Refusal × Output :=
  let bytes := s.toUTF8
  match o with
  | ⟨written, none, refusal⟩ => (none, ⟨written ++ bytes, none, refusal⟩)
  | ⟨written, some n, refusal⟩ =>
    if bytes.size ≤ n then (none, ⟨written ++ bytes, some (n - bytes.size), refusal⟩)
    else (some refusal, ⟨written ++ bytes.extract 0 n, some 0, refusal⟩)

end Lox
