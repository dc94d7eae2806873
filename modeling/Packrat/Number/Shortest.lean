import Packrat.Number.Binary64

/-!
# The fewest digits that read back

Every finite real other than zero has an interval of exact values that are read as it: up to
half-way to each neighbour, the ends included exactly when the significand is even. The shortest
decimal of the real is the one with the fewest digits in that interval, and of those the nearest
to the real. If any decimal with `n` digits lies in the interval then so does one of the two next
to the real, so it is enough to try those two for `n = 1, 2, …`; seventeen digits always suffice.

All comparisons are made on whole numbers. Values are counted in units of `2 ^ (-1076)`, a quarter
of the smallest real, so that the ends of the interval are whole too.
-/

namespace Packrat

/-- A decimal `digits * 10 ^ exponent`. -/
structure Decimal where
  /-- The digits, read as one whole number. -/
  digits : Nat
  /-- The power of ten that they are multiplied by. -/
  exponent : Int
deriving DecidableEq

/-- Which of two equally near decimals is taken. -/
inductive Tie where
  /-- The larger one. -/
  | up
  /-- The one whose last digit is even. -/
  | even
deriving DecidableEq

/-- How many decimal digits a number has; zero has none. -/
def digitCount (n : Nat) : Nat :=
  if n = 0 then 0 else (Nat.toDigits 10 n).length

/-- Move the zeros at the end of the digits, at most `fuel` of them, into the exponent. -/
def Decimal.trim : Nat → Decimal → Decimal
  | 0, d => d
  | fuel + 1, d =>
    if d.digits ≠ 0 ∧ d.digits % 10 = 0 then trim fuel ⟨d.digits / 10, d.exponent + 1⟩ else d

namespace Binary64

/-- One quarter of the smallest positive real goes this many times into one. -/
def quartersPerOne : Nat :=
  Nat.pow 2 1076

/-- The magnitude, in quarters of the smallest positive real. -/
def quarters (x : Binary64) : Nat :=
  4 * (x.significand * Nat.pow 2 x.scale)

/-- The lower end of the interval read as `x`. The gap below a power of two is half the gap
above it. -/
def lowerEnd (x : Binary64) : Nat :=
  if x.fractionField = 0 ∧ 1 < x.exponentField then x.quarters - Nat.pow 2 x.scale
  else x.quarters - 2 * Nat.pow 2 x.scale

/-- The upper end of the interval read as `x`. -/
def upperEnd (x : Binary64) : Nat :=
  x.quarters + 2 * Nat.pow 2 x.scale

/-- The power of ten of the leading digit of a non-zero magnitude. -/
def leadingExponent (x : Binary64) : Int :=
  if quartersPerOne ≤ x.quarters then digitCount (x.quarters / quartersPerOne) - 1
  else -(digitCount ((quartersPerOne + x.quarters - 1) / x.quarters - 1) : Int)

/-- Whether `d * 10 ^ exponent` is read as `x`. -/
def reads (x : Binary64) (d : Nat) (exponent : Int) : Bool :=
  let value := d * Nat.pow 10 exponent.toNat * quartersPerOne
  let stretch := Nat.pow 10 (-exponent).toNat
  if x.significand % 2 = 0 then x.lowerEnd * stretch ≤ value && value ≤ x.upperEnd * stretch
  else x.lowerEnd * stretch < value && value < x.upperEnd * stretch

/-- Of the two decimals around `x` on the grid of `10 ^ exponent`, the one to write if either is
read as `x`. -/
def onGrid? (tie : Tie) (x : Binary64) (exponent : Int) : Option Decimal :=
  let value := x.quarters * Nat.pow 10 (-exponent).toNat
  let step := Nat.pow 10 exponent.toNat * quartersPerOne
  let below := value / step
  let rest := value % step
  let goUp := step < 2 * rest ∨ (step = 2 * rest ∧ (tie = .up ∨ below % 2 = 1))
  match x.reads below exponent, x.reads (below + 1) exponent with
  | true, true => some ⟨if goUp then below + 1 else below, exponent⟩
  | true, false => some ⟨below, exponent⟩
  | false, true => some ⟨below + 1, exponent⟩
  | false, false => none

/-- The magnitude of `x` with all its digits: a quarter of the smallest real is a power of five
over a power of ten. -/
def allDigits (x : Binary64) : Decimal :=
  ⟨x.quarters * Nat.pow 5 1076, -1076⟩

/-- The shortest decimal that is read as the magnitude of `x`, without zeros at its end. Should
seventeen digits not be enough, all digits are taken. -/
def shortest (tie : Tie) (x : Binary64) : Decimal :=
  let found := (List.range 17).findSome? fun (n : Nat) =>
    x.onGrid? tie (x.leadingExponent - n)
  (found.getD x.allDigits).trim 17

end Binary64

end Packrat
