/-!
Shortest decimals. A positive double stands for every real that rounds to it, an interval around the
double. Of all decimals in that interval the one to print has the fewest digits: it lies on the
coarsest grid of multiples of a power of ten that has a point in the interval. Everything is counted
in whole numbers, so nothing is lost to rounding.
-/

namespace Lox.Decimal

/-- The number `digits · 10 ^ exp`. -/
structure Scaled where
  digits : Nat
  exp : Int
  deriving DecidableEq, Repr

/-- A positive double `mant · 2 ^ exp`. At an `edge` the next smaller double is only half as far
away as the next larger one. -/
structure Binary where
  mant : Nat
  exp : Int
  edge : Bool
  deriving DecidableEq, Repr

/-- The number of mantissas that share an exponent. -/
def mantissas : Nat := 0x10000000000000

/-- The parts of the double with the bits `b`, whose sign bit is clear. -/
def Binary.ofBits (b : Nat) : Binary :=
  let e : Nat := b / mantissas
  let m : Nat := b % mantissas
  if e = 0 then ⟨m, -1074, false⟩ else ⟨mantissas + m, e - 1075, m == 0 && e != 1⟩

/-- The interval of reals that round to `mid`; its ends belong to it when it is `closed`. -/
structure Span where
  low : Nat
  mid : Nat
  high : Nat
  closed : Bool

/-- Whether a number lies in the interval. -/
def Span.has (s : Span) (x : Nat) : Bool :=
  if s.closed then s.low ≤ x && x ≤ s.high else s.low < x && x < s.high

/-- Whether one of the two multiples of `g` next to the middle lies in the interval. -/
def Span.meets (s : Span) (g : Nat) : Bool :=
  s.has (s.mid / g * g) || s.has ((s.mid / g + 1) * g)

/-- Make the grid ten times coarser for as long as it still meets the interval. -/
def Span.coarsen (s : Span) : Nat → Nat → Int → Nat × Int
  | 0, g, k => (g, k)
  | n + 1, g, k => if s.meets (10 * g) then s.coarsen n (10 * g) (k + 1) else (g, k)

/-- Which multiple of `g` is nearest to the middle among those in the interval; halfway goes up. -/
def Span.nearest (s : Span) (g : Nat) : Nat :=
  let d := s.mid / g
  let up := s.has ((d + 1) * g) && (d + 1) * g - s.mid ≤ s.mid - d * g
  if s.has (d * g) && !up then d else d + 1

/-- The interval of a double in units of `10 ^ k / g`, where `g` is the second part. A quarter of
the last binary digit is a whole number of these units. -/
def Binary.span (b : Binary) (k : Int) : Span × Nat :=
  let q := b.exp - 2
  let unit := Nat.pow 2 q.toNat * Nat.pow 10 (-k).toNat
  (⟨(4 * b.mant - if b.edge then 1 else 2) * unit, 4 * b.mant * unit, (4 * b.mant + 2) * unit,
      b.mant % 2 == 0⟩,
    Nat.pow 10 k.toNat * Nat.pow 2 (-q).toNat)

/-- An exponent of ten whose power is about a quarter of the last binary digit, so that its grid is
fine enough to meet the interval. -/
def Binary.fine (b : Binary) : Int := (b.exp - 2) * 30103 / 100000

/-- The decimal with the fewest digits that rounds to the double, and of those the nearest. From the
fine grid it is fewer than twenty powers of ten up to the whole number, so the rounds suffice. -/
def Binary.shortest (b : Binary) : Scaled :=
  let (s, g) := b.span b.fine
  let (g, k) := s.coarsen 32 g b.fine
  ⟨s.nearest g, k⟩

end Lox.Decimal
