import MapNest.Float.Format

/-!
# `MapNest.Float.Shortest`: the fewest digits that read back

A reader of decimals rounds to the nearest value of the format, a point halfway between two values
going to the one with an even significand. The decimals that round to a given value therefore fill
an interval (`Magnitude.ReadsBack`), and `Magnitude.shortest` picks from it a decimal with as few
digits as possible and, among those, one nearest to the value; of two equally near ones it takes
the larger.

The search goes over the grids of multiples of a power of ten, coarsest first. If a grid has a
point in the interval, then one of the two grid points next to the value lies in it, so those two
are all that is tested. All is exact arithmetic on naturals.
-/

set_option autoImplicit false

namespace MapNest

/-- The decimal `digits * 10 ^ exponent`. -/
structure Decimal where
  /-- The digits, read as one number. -/
  digits : Nat
  /-- The power of ten. -/
  exponent : Int
deriving DecidableEq

namespace Magnitude

/-- The factors `(a, b)` that compare multiples of `10 ^ p` with multiples of `2 ^ q`:
`x * 10 ^ p ≤ y * 2 ^ q` exactly when `x * a ≤ y * b`. -/
def factors (p q : Int) : Nat × Nat :=
  (Nat.pow 10 p.toNat * Nat.pow 2 (-q).toNat, Nat.pow 10 (-p).toNat * Nat.pow 2 q.toNat)

/-- The lower end of the interval of a value, in quarters of its unit. -/
def lowerEnd (v : Magnitude) : Nat :=
  4 * v.significand - (if v.narrowBelow then 1 else 2)

/-- The upper end of the interval of a value, in quarters of its unit. -/
def upperEnd (v : Magnitude) : Nat := 4 * v.significand + 2

/-- A decimal reads back as a value when it lies between the points halfway to the neighbours, the
ends included if the value's significand is even. -/
def ReadsBack (v : Magnitude) (d : Decimal) : Prop :=
  let (a, b) := factors d.exponent (v.exponent - 2)
  (v.lowerEnd * b < d.digits * a ∧ d.digits * a < v.upperEnd * b) ∨
    (v.significand % 2 = 0 ∧ (v.lowerEnd * b = d.digits * a ∨ d.digits * a = v.upperEnd * b))

instance (v : Magnitude) (d : Decimal) : Decidable (v.ReadsBack d) :=
  inferInstanceAs (Decidable (_ ∨ _))

/-- The point nearest to the value among those of the two multiples of `10 ^ p` around it that read
back; the larger one on a tie. -/
def nearest? (v : Magnitude) (p : Int) : Option Decimal :=
  let (a, b) := factors p (v.exponent - 2)
  let below : Decimal := ⟨4 * v.significand * b / a, p⟩
  let above : Decimal := ⟨below.digits + 1, p⟩
  if v.ReadsBack below ∧ v.ReadsBack above then
    -- Twice the value against the sum of the two points decides which is nearer.
    if 8 * v.significand * b < (below.digits + above.digits) * a then some below else some above
  else if v.ReadsBack below then some below
  else if v.ReadsBack above then some above
  else none

/-- The exponents `high, high - 1, …`, `count` of them. -/
def descending (high : Int) (count : Nat) : List Int :=
  (List.range count).map fun (i : Nat) => high - i

/-- The powers of ten that can be needed. No finite value of the 64-bit format reaches `10 ^ 309`,
and any two of its values are further apart than `10 ^ -324`. -/
def grids : List Int := descending 308 633

/-- A decimal with the fewest digits among those that read back, nearest to the value. Zero has
the digit zero. -/
def shortest (v : Magnitude) : Decimal :=
  if v.significand = 0 then ⟨0, 0⟩
  else (grids.findSome? v.nearest?).getD ⟨0, 0⟩

end Magnitude

/-- Positional notation: no exponent, no fraction if there is none, and a zero before the point of
a number below one. -/
def Decimal.positional (d : Decimal) : String :=
  let digits := toString d.digits
  if 0 ≤ d.exponent then digits ++ String.ofList (List.replicate d.exponent.toNat '0')
  else
    let places := (-d.exponent).toNat
    let cs := digits.toList
    if places < cs.length then
      String.ofList (cs.take (cs.length - places)) ++ "." ++
        String.ofList (cs.drop (cs.length - places))
    else "0." ++ String.ofList (List.replicate (places - cs.length) '0') ++ digits

/-- The sign of a number, written before its digits. -/
def signText (negative : Bool) : String := if negative then "-" else ""

/-- The text of a value: the shortest decimal in positional notation. Zeros and infinities keep
their sign, a NaN has none. -/
def FloatValue.text : FloatValue → String
  | nan => "NaN"
  | infinite negative => signText negative ++ "inf"
  | finite negative magnitude => signText negative ++ magnitude.shortest.positional

end MapNest
