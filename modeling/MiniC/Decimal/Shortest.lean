/-!
# Shortest decimals

The decimal with the fewest digits that still reads back as a given binary floating-point number.
The reals that round to `mantissa * 2 ^ exponent` form an interval around it; the search goes
through the grids of multiples of a power of ten, from the coarsest on, and stops at the first grid
that has a point in the interval. All arithmetic is exact.
-/

namespace MiniC.Decimal

set_option autoImplicit false

/-- A floating-point number taken apart; the sign says whether it is negative. -/
inductive Parts where
  | notANumber
  | infinite (negative : Bool)
  | finite (negative : Bool) (mantissa : Nat) (exponent : Int) (halfGapBelow : Bool)
  deriving DecidableEq, Repr

/-- The leading bit of a mantissa, which the 52 bits of the fraction leave out. -/
def hiddenBit : Nat :=
  0x10000000000000

/-- The parts of a double. The gap to the next lower magnitude is half the gap to the next higher
one where the mantissa starts a new binade. -/
def parts (x : Float) : Parts :=
  let bits := x.toBits.toNat
  let negative := bits.testBit 63
  let exponent := bits / hiddenBit % 2048
  let fraction := bits % hiddenBit
  if exponent = 2047 then
    if fraction = 0 then .infinite negative else .notANumber
  else if exponent = 0 then .finite negative fraction (-1074) false
  else .finite negative (hiddenBit + fraction) ((exponent : Int) - 1075)
    (fraction = 0 ∧ 1 < exponent)

/-- The number `digits * 10 ^ exponent`. -/
structure Scaled where
  digits : Nat
  exponent : Int
  deriving DecidableEq, Repr

/-- The interval that rounds to a number, on the grid of multiples of `10 ^ k`: the number is
`value / unit`, the ends of the interval are `low / unit` and `high / unit`, all in steps of the
grid. The ends belong to it when `closed` holds. -/
structure OnGrid where
  value : Nat
  low : Nat
  high : Nat
  unit : Nat
  closed : Bool

/-- `mantissa * 2 ^ exponent` and its interval, on the grid of multiples of `10 ^ k`. -/
def onGrid (mantissa : Nat) (exponent : Int) (halfGapBelow : Bool) (k : Int) : OnGrid :=
  let scale := Nat.pow 2 exponent.toNat * Nat.pow 10 (-k).toNat
  { value := 4 * mantissa * scale
    low := (4 * mantissa - if halfGapBelow then 1 else 2) * scale
    high := (4 * mantissa + 2) * scale
    unit := 4 * Nat.pow 2 (-exponent).toNat * Nat.pow 10 k.toNat
    closed := mantissa % 2 = 0 }

def OnGrid.holds (g : OnGrid) (n : Nat) : Bool :=
  if g.closed then g.low ≤ n * g.unit && n * g.unit ≤ g.high
  else g.low < n * g.unit && n * g.unit < g.high

/-- The grid point in the interval that is nearest to the number; of two equally near ones, the
upper. -/
def OnGrid.nearest? (g : OnGrid) : Option Nat :=
  let below := g.value / g.unit
  let upperNearer := (below + 1) * g.unit - g.value ≤ g.value - below * g.unit
  if g.holds below && !(g.holds (below + 1) && upperNearer) then some below
  else if g.holds (below + 1) then some (below + 1)
  else none

/-- The powers of ten whose grids are searched, the coarsest first. They reach from above the
largest double to seventeen digits below the smallest. -/
def gridExponents : List Int :=
  (List.range 700).map fun (i : Nat) => 310 - (i : Int)

/-- The shortest decimal that reads back as `mantissa * 2 ^ exponent`. -/
def shortest (mantissa : Nat) (exponent : Int) (halfGapBelow : Bool) : Scaled :=
  (gridExponents.findSome? fun k =>
    ((onGrid mantissa exponent halfGapBelow k).nearest?).map fun n => ⟨n, k⟩).getD ⟨0, 0⟩

end MiniC.Decimal
