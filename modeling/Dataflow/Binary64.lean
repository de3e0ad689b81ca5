import Dataflow.Decimal.Layout

/-! # Binary floating point numbers

  A 64-bit floating point number is its bit pattern: one sign bit, eleven exponent
  bits, fifty-two fraction bits. Equality is numeric equality: a NaN differs from
  every number, itself included, and the two zeros are equal.

  The text of a number is the shortest decimal that rounds to it, written
  positionally from `0.0001` up to sixteen digits before the point, with a tilde
  for the sign.
-/

namespace Dataflow

/-- A 64-bit floating point number, given by its bits. -/
structure Binary64 where
  /-- Sign, exponent and fraction, from the top bit down. -/
  bits : UInt64
  deriving DecidableEq

namespace Binary64

/-! ### Fields -/

/-- Whether the sign bit is set. -/
def negative (x : Binary64) : Bool := decide (Nat.pow 2 63 ≤ x.bits.toNat)

/-- The biased exponent, from 0 to 2047. -/
def exponent (x : Binary64) : Nat := x.bits.toNat / Nat.pow 2 52 % 2048

/-- The fraction, without the implicit leading bit. -/
def fraction (x : Binary64) : Nat := x.bits.toNat % Nat.pow 2 52

/-- Not a number: all exponent bits set and a fraction that is not zero. -/
def isNaN (x : Binary64) : Bool := x.exponent == 2047 && x.fraction != 0

/-- Positive or negative infinity. -/
def isInfinite (x : Binary64) : Bool := x.exponent == 2047 && x.fraction == 0

/-- Positive or negative zero. -/
def isZero (x : Binary64) : Bool := x.exponent == 0 && x.fraction == 0

/-! ### Numeric equality -/

/-- Numeric equality: the same bits, or two zeros, and never a NaN. -/
def numEq (x y : Binary64) : Bool :=
  !x.isNaN && !y.isNaN && (x.bits == y.bits || (x.isZero && y.isZero))

/-! ### Text -/

/-- The reals that round to a positive finite number, counted in quarters of its last place.
    Below a power of two the neighbour is half as far away. The ends round to the number
    exactly when its significand is even. -/
def span (x : Binary64) : Decimal.Span :=
  let significand := if x.exponent = 0 then x.fraction else x.fraction + Nat.pow 2 52
  let mid := 4 * significand
  { low := if x.fraction = 0 ∧ 1 < x.exponent then mid - 1 else mid - 2
    mid := mid
    high := mid + 2
    scale := max x.exponent 1 - 1077
    closed := significand % 2 == 0 }

/-- Numbers from `0.0001` up to sixteen digits before the point are written positionally. -/
def layout : Decimal.Layout := ⟨-4, 15⟩

/-- The text of the magnitude. -/
def magnitude (x : Binary64) : String :=
  if x.isNaN then "NaN"
  else if x.isInfinite then "inf"
  else if x.isZero then Decimal.Scientific.text layout ⟨0, 0⟩
  else Decimal.Scientific.text layout x.span.shortest

/-- The text of a number: a tilde for a set sign bit, except on a NaN, then the magnitude. -/
def text (x : Binary64) : String :=
  if x.negative && !x.isNaN then "~" ++ x.magnitude else x.magnitude

end Binary64

end Dataflow
