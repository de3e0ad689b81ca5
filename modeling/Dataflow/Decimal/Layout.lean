import Dataflow.Decimal.Shortest

/-! # Writing decimals

  A decimal is written positionally (`0.25`, `1200.0`) while the exponent of its
  first digit stays within the bounds of a layout, and with an exponent mark
  (`1.5e-7`, `1e16`) outside of them. Positional text always has a point with a
  digit on either side; text with an exponent has a point only between digits.
-/

namespace Dataflow.Decimal

/-- The exponents of the first digit that are written positionally. -/
structure Layout where
  /-- The least such exponent. -/
  lowest : Int
  /-- The greatest such exponent. -/
  highest : Int
  deriving DecidableEq

/-- The text of an integer, with a hyphen before a negative one. -/
def intText (i : Int) : String :=
  if i < 0 then "-" ++ Nat.repr i.natAbs else Nat.repr i.natAbs

/-- A text of `n` zeros. -/
def zeros (n : Nat) : String := String.ofList (List.replicate n '0')

namespace Scientific

/-- The digits as characters. -/
def chars (d : Scientific) : List Char := Nat.toDigits 10 d.digits

/-- The exponent of the first digit. -/
def leading (d : Scientific) : Int := d.exponent + d.chars.length - 1

/-- The text without an exponent mark. -/
def positional (d : Scientific) : String :=
  let point := d.chars.length + d.exponent
  if 0 ≤ d.exponent then
    String.ofList d.chars ++ zeros d.exponent.toNat ++ ".0"
  else if 0 < point then
    String.ofList (d.chars.take point.toNat) ++ "." ++ String.ofList (d.chars.drop point.toNat)
  else
    "0." ++ zeros (-point).toNat ++ String.ofList d.chars

/-- The text with an exponent mark. -/
def marked (d : Scientific) : String :=
  let first := String.ofList (d.chars.take 1)
  let rest := d.chars.drop 1
  let fraction := if rest.isEmpty then "" else "." ++ String.ofList rest
  first ++ fraction ++ "e" ++ intText d.leading

/-- The text of a decimal under a layout. -/
def text (layout : Layout) (d : Scientific) : String :=
  if layout.lowest ≤ d.leading ∧ d.leading ≤ layout.highest then d.positional else d.marked

end Scientific

end Dataflow.Decimal
