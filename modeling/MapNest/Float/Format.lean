/-!
# `MapNest.Float.Format`: binary floating-point patterns

A floating-point constant is kept as its bit pattern. A `FloatFormat` says how a pattern of its
width is read: a sign bit, a biased exponent and a fraction. `FloatFormat.decode` gives the value
that a pattern stands for, and `FloatFormat.equal` compares two patterns as numbers, so that the
two zeros are equal and a NaN differs from everything, itself included.
-/

set_option autoImplicit false

namespace MapNest

/-- The field widths of a binary floating-point format. -/
structure FloatFormat where
  /-- The number of exponent bits. -/
  exponentBits : Nat
  /-- The number of fraction bits. -/
  fractionBits : Nat

/-- A finite magnitude `significand * 2 ^ exponent`. -/
structure Magnitude where
  /-- The integer part of the product. -/
  significand : Nat
  /-- The power of two. -/
  exponent : Int
  /-- The next smaller value of the format is only half as far away as the next larger one. -/
  narrowBelow : Bool
deriving DecidableEq

/-- What a bit pattern stands for. -/
inductive FloatValue where
  /-- No number. -/
  | nan
  /-- An infinity. -/
  | infinite (negative : Bool)
  /-- A number. -/
  | finite (negative : Bool) (magnitude : Magnitude)
deriving DecidableEq

namespace FloatFormat

/-- The 32-bit format. -/
def binary32 : FloatFormat := ⟨8, 23⟩

/-- The 64-bit format. -/
def binary64 : FloatFormat := ⟨11, 52⟩

/-- The fraction field of a pattern. -/
def fraction (f : FloatFormat) (bits : Nat) : Nat := bits % Nat.pow 2 f.fractionBits

/-- The exponent field of a pattern. -/
def biasedExponent (f : FloatFormat) (bits : Nat) : Nat :=
  bits / Nat.pow 2 f.fractionBits % Nat.pow 2 f.exponentBits

/-- The sign bit of a pattern. -/
def isNegative (f : FloatFormat) (bits : Nat) : Bool :=
  bits / Nat.pow 2 (f.fractionBits + f.exponentBits) % 2 = 1

/-- The exponent field of the infinities and NaNs. -/
def specialExponent (f : FloatFormat) : Nat := Nat.pow 2 f.exponentBits - 1

/-- The magnitude of a finite pattern. A pattern whose exponent field is zero is subnormal: it has
the exponent of the field value one, and no leading bit. -/
def magnitude (f : FloatFormat) (bits : Nat) : Magnitude :=
  let e := f.biasedExponent bits
  let frac := f.fraction bits
  let bias : Int := Int.pow 2 (f.exponentBits - 1) - 1 + f.fractionBits
  if e = 0 then ⟨frac, 1 - bias, false⟩
  else ⟨Nat.pow 2 f.fractionBits + frac, e - bias, frac = 0 ∧ 1 < e⟩

/-- The value that a bit pattern stands for. -/
def decode (f : FloatFormat) (bits : Nat) : FloatValue :=
  if f.biasedExponent bits = f.specialExponent then
    if f.fraction bits = 0 then .infinite (f.isNegative bits) else .nan
  else .finite (f.isNegative bits) (f.magnitude bits)

/-- Equality of the numbers that two patterns stand for. -/
def equal (f : FloatFormat) (a b : Nat) : Bool :=
  match f.decode a, f.decode b with
  | .nan, _ => false
  | _, .nan => false
  | .infinite s, .infinite t => s == t
  | .finite s x, .finite t y => x == y && (s == t || x.significand == 0)
  | _, _ => false

example : binary64.equal 0 (2 ^ 63) = true := by decide
example : binary32.equal 0x7FC00000 0x7FC00000 = false := by decide

end FloatFormat

end MapNest
