import Lox.Decimal.Shortest

/-!
Numbers as text. Writing never uses an exponent: whole numbers have no point, others have digits on
both sides of it. Reading takes digits with an optional fraction to the nearest double.
-/

namespace Lox.Decimal

/-- How the doubles that are no numbers on the line are written. -/
structure Spelling where
  nan : String
  posInf : String
  negInf : String

/-- All digits of a decimal, with zeros put in where the point is far from them. -/
def Scaled.text (d : Scaled) : List Char :=
  let ds := Nat.toDigits 10 d.digits
  let places := (-d.exp).toNat
  if places = 0 then ds ++ List.replicate d.exp.toNat '0'
  else if places < ds.length then
    ds.take (ds.length - places) ++ '.' :: ds.drop (ds.length - places)
  else '0' :: '.' :: (List.replicate (places - ds.length) '0' ++ ds)

/-- The text of a double without its sign, from its bits below the sign bit. -/
def magnitude (b : Nat) : List Char := if b = 0 then ['0'] else (Binary.ofBits b).shortest.text

/-- The text of a double: the shortest decimal that reads back as the same double. -/
def text (sp : Spelling) (x : Float) : String :=
  let b := x.toBits.toNat
  let inf := 0x7FF0000000000000
  let neg := 0x8000000000000000 ≤ b
  let m := b % 0x8000000000000000
  if inf < m then sp.nan
  else if m = inf then (if neg then sp.negInf else sp.posInf)
  else String.ofList (if neg then '-' :: magnitude m else magnitude m)

/-- The number that decimal digits spell. -/
def natural (ds : List Char) : Nat := ds.foldl (fun n c => 10 * n + (c.toNat - '0'.toNat)) 0

/-- The double nearest to digits with an optional point and fraction. -/
def read (cs : List Char) : Float :=
  let whole := cs.takeWhile (· != '.')
  let places := (cs.dropWhile (· != '.')).drop 1
  Float.ofScientific (natural (whole ++ places)) true places.length

end Lox.Decimal
