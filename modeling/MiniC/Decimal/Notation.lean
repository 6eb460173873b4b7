import MiniC.Decimal.Shortest

/-!
# Written floating-point numbers

Two ways to write a double, both with its shortest digits. The plain way never uses an exponent and
drops the point of a whole number. The marked way always shows that the number is not an integer:
it keeps `.0`, and writes very large and very small magnitudes with an exponent.
-/

namespace MiniC.Decimal

set_option autoImplicit false

def digitChars (n : Nat) : List Char :=
  Nat.toDigits 10 n

/-- `d` without an exponent; a whole number has no point. -/
def Scaled.positional (d : Scaled) : List Char :=
  let ds := digitChars d.digits
  let whole := (ds.length : Int) + d.exponent
  if 0 ≤ d.exponent then ds ++ List.replicate d.exponent.toNat '0'
  else if 0 < whole then ds.take whole.toNat ++ '.' :: ds.drop whole.toNat
  else '0' :: '.' :: List.replicate (-whole).toNat '0' ++ ds

/-- The exponent of `d` when one digit stands before the point. -/
def Scaled.magnitude (d : Scaled) : Int :=
  (digitChars d.digits).length - 1 + d.exponent

/-- `d` with one digit before the point and the exponent behind an `e`. -/
def Scaled.scientific (d : Scaled) : List Char :=
  let mantissa := match digitChars d.digits with
    | first :: second :: more => first :: '.' :: second :: more
    | single => single
  mantissa ++ 'e' :: (toString d.magnitude).toList

/-- How finite magnitudes are written: zero, and every other magnitude from its shortest decimal. -/
structure Layout where
  zero : List Char
  other : Scaled → List Char

/-- No exponent, and no point in a whole number. -/
def Layout.plain : Layout where
  zero := ['0']
  other := Scaled.positional

/-- An exponent below `10 ^ -4` and from `10 ^ 16` on, and else at least one place. -/
def Layout.marked : Layout where
  zero := ['0', '.', '0']
  other d :=
    if d.magnitude < -4 ∨ 16 ≤ d.magnitude then d.scientific
    else if 0 ≤ d.exponent then d.positional ++ ['.', '0']
    else d.positional

/-- The text of `x` in a layout. A zero keeps its sign; all NaNs are written alike. -/
def Layout.write (layout : Layout) (x : Float) : List Char :=
  let signed (negative : Bool) (text : List Char) := if negative then '-' :: text else text
  match parts x with
  | .notANumber => ['N', 'a', 'N']
  | .infinite negative => signed negative ['i', 'n', 'f']
  | .finite negative mantissa exponent halfGapBelow =>
    signed negative
      (if mantissa = 0 then layout.zero
      else layout.other (shortest mantissa exponent halfGapBelow))

/-- `x` without an exponent: `2`, `1.5`, `-0`, `1000000000000000000000`. -/
def plain (x : Float) : String :=
  String.ofList (Layout.plain.write x)

/-- `x` so that it does not look like an integer: `2.0`, `1.5e-5`, `1e16`. -/
def marked (x : Float) : String :=
  String.ofList (Layout.marked.write x)

end MiniC.Decimal
