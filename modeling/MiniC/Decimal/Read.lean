/-!
# Reading numbers

The values of numeric texts. An integer is an optional sign and decimal digits, and has to fit in
64 bits. A floating-point text is an optional sign and either one of the words `inf`, `infinity` and
`nan`, or digits with an optional point and an optional exponent; it is rounded to the nearest double.
-/

namespace MiniC

set_option autoImplicit false

def Word.ofInt? (n : Int) : Option Int64 :=
  if Int64.minValue.toInt ≤ n ∧ n ≤ Int64.maxValue.toInt then some (Int64.ofInt n) else none

namespace Decimal

def digitsValue (cs : List Char) : Nat :=
  cs.foldl (fun value c => 10 * value + (c.toNat - '0'.toNat)) 0

def readNat? (cs : List Char) : Option Nat :=
  if cs ≠ [] ∧ cs.all Char.isDigit then some (digitsValue cs) else none

/-- Whether a minus sign leads, and what follows the optional sign. -/
def splitSign : List Char → Bool × List Char
  | '+' :: cs => (false, cs)
  | '-' :: cs => (true, cs)
  | cs => (false, cs)

def readInt? (cs : List Char) : Option Int :=
  let (negative, digits) := splitSign cs
  (readNat? digits).map fun n => if negative then -(n : Int) else n

def readInt64? (cs : List Char) : Option Int64 :=
  (readInt? cs).bind Word.ofInt?

/-- A number without a sign, as its digits stand before and after the point, and its exponent. -/
structure Unsigned where
  whole : List Char
  fraction : List Char
  exponent : Int

/-- The exponent after an optional `e`; without one it is zero. -/
def readExponent? : List Char → Option Int
  | [] => some 0
  | c :: cs => if c = 'e' ∨ c = 'E' then readInt? cs else none

/-- Takes a number without a sign apart. A point needs a digit on one of its sides. -/
def readUnsigned? (cs : List Char) : Option Unsigned :=
  let whole := cs.takeWhile Char.isDigit
  let (fraction, tail) := match cs.dropWhile Char.isDigit with
    | '.' :: rest => (rest.takeWhile Char.isDigit, rest.dropWhile Char.isDigit)
    | rest => ([], rest)
  if whole = [] ∧ fraction = [] then none
  else (readExponent? tail).map fun exponent => ⟨whole, fraction, exponent⟩

/-- The double nearest to a number. Exponents beyond any double are decided without a power of ten. -/
def Unsigned.toFloat (u : Unsigned) : Float :=
  let digits := u.whole ++ u.fraction
  let mantissa := digitsValue digits
  let exponent := u.exponent - u.fraction.length
  if mantissa = 0 then 0.0
  else if 400 < exponent then 1.0 / 0.0
  else if exponent < -(400 + digits.length : Int) then 0.0
  else Float.ofScientific mantissa (exponent < 0) exponent.natAbs

def readFloat? (cs : List Char) : Option Float :=
  let (negative, body) := splitSign cs
  let word := String.ofList (body.map Char.toLower)
  let magnitude? :=
    if word = "inf" ∨ word = "infinity" then some (1.0 / 0.0)
    else if word = "nan" then some (0.0 / 0.0)
    else (readUnsigned? body).map Unsigned.toFloat
  magnitude?.map fun x => if negative then -x else x

end Decimal

end MiniC
