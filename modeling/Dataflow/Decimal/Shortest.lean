/-! # Shortest decimals

  A binary number owns a span of the real line: the reals that round to it.
  Its *shortest decimal* is the decimal with the fewest digits inside that span;
  of two such decimals it is the one nearer to the number, and an exact half goes
  up. Everything is computed on natural numbers, so no rounding takes place here.

  The search goes through the grids of multiples of `10 ^ k`, from a grid coarser
  than the whole number to one finer than the span's own unit, and takes the first
  grid that meets the span.
-/

namespace Dataflow.Decimal

/-! ### Decimals and spans -/

/-- The decimal `digits * 10 ^ exponent`. -/
structure Scientific where
  /-- The digits, read as one natural number. -/
  digits : Nat
  /-- The power of ten of the last digit. -/
  exponent : Int
  deriving DecidableEq

/-- The reals that round to one positive binary number, as multiples of `2 ^ scale`. -/
structure Span where
  low : Nat
  mid : Nat
  high : Nat
  /-- The binary exponent of the unit that the three are counted in. -/
  scale : Int
  /-- Whether the two ends round to the number as well. -/
  closed : Bool
  deriving DecidableEq

namespace Span

/-! ### Comparing a span with a decimal grid

  `n` units of the span and `d` steps of the grid `10 ^ k` are compared as
  `n * s.unit k` and `d * s.step k`, two natural numbers with a common factor. -/

/-- One unit of the span on the scale shared with the grid `10 ^ k`. -/
def unit (s : Span) (k : Int) : Nat := Nat.pow 2 s.scale.toNat * Nat.pow 10 (-k).toNat

/-- One step of the grid `10 ^ k` on the scale shared with the span. -/
def step (s : Span) (k : Int) : Nat := Nat.pow 2 (-s.scale).toNat * Nat.pow 10 k.toNat

/-- Whether `d * 10 ^ k` lies in the span. -/
def holds (s : Span) (k : Int) (d : Nat) : Bool :=
  let x := d * s.step k
  let lo := s.low * s.unit k
  let hi := s.high * s.unit k
  if s.closed then decide (lo ≤ x ∧ x ≤ hi) else decide (lo < x ∧ x < hi)

/-- The multiple of `10 ^ k` in the span that is nearest to the number, if there is one.
    If any multiple lies in the span, so does one of the two around the number. -/
def nearest? (s : Span) (k : Int) : Option Nat :=
  let below := s.mid * s.unit k / s.step k
  let rest := s.mid * s.unit k % s.step k
  match s.holds k below, s.holds k (below + 1) with
  | true, true => some (if 2 * rest < s.step k then below else below + 1)
  | true, false => some below
  | false, true => some (below + 1)
  | false, false => none

/-! ### The search -/

/-- A power of ten above the whole span: `10 ^ (n / 3 + 1)` exceeds every number of `n` bits. -/
def top (s : Span) : Nat := Nat.log2 (s.high * Nat.pow 2 s.scale.toNat) / 3 + 1

/-- Tries the grids `10 ^ k`, `10 ^ (k - 1)`, … and stops at the first that meets the span. -/
def search (s : Span) : Nat → Int → Scientific
  | 0, k => ⟨s.mid * s.unit k / s.step k, k⟩
  | n + 1, k =>
    match s.nearest? k with
    | some d => ⟨d, k⟩
    | none => s.search n (k - 1)

/-- The shortest decimal in the span. The search ends before its steps run out, since
    `10 ^ k ≤ 2 ^ k` at every exponent `k` below zero. -/
def shortest (s : Span) : Scientific :=
  s.search (s.top + (-s.scale).toNat + 1) s.top

end Span

end Dataflow.Decimal
