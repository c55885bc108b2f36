/-!
Lines of bytes. A line keeps the newline that ends it; bytes after the last newline are a line too,
unless there are none.
-/

namespace Lox.Text

/-- The byte that ends a line. -/
def newline : UInt8 := 10

/-- Put a byte in front of the first line, or make it a line if it is a newline. -/
def consByte (b : UInt8) (ls : List (List UInt8)) : List (List UInt8) :=
  match ls with
  | l :: ls => if b = newline then [b] :: l :: ls else (b :: l) :: ls
  | [] => [[b]]

/-- The lines of some bytes. -/
def lines (bytes : List UInt8) : List (List UInt8) := bytes.foldr consByte []

end Lox.Text
