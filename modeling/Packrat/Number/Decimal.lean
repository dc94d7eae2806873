import Packrat.Number.Binary64

/-!
# Reading decimals

A literal is a run of digits, or two runs with a point between them. It is read as the real
nearest to its exact value; of two equally near reals the one with the even significand is taken,
and a value beyond the largest finite real is read as infinity.

The bit patterns of the non-negative reals are ordered as the reals are, one pattern per step, and
the step doubles at each power of two. So once the binary places to shift by are known, rounding
the quotient and adding gives the pattern, and a quotient that rounds up to the next power of two
carries into the exponent field by itself.
-/

namespace Packrat

/-- The whole number nearest to `a / b`; a tie goes to the even one. -/
def roundHalfEven (a b : Nat) : Nat :=
  let q := a / b
  let r := a % b
  if b < 2 * r ∨ (b = 2 * r ∧ q % 2 = 1) then q + 1 else q

namespace Binary64

/-- The real nearest to the quotient of two whole numbers. -/
def ofRatio (num den : Nat) : Binary64 :=
  let units := num * Nat.pow 2 1074
  let shift := (units / den).log2 - 52
  let pattern := shift * Nat.pow 2 52 + roundHalfEven units (den * Nat.pow 2 shift)
  ⟨(min pattern infinityBits).toUInt64⟩

end Binary64

/-- Whether a character is one of the ten decimal digits. -/
def isDecimalDigit (c : Char) : Bool :=
  '0' ≤ c && c ≤ '9'

/-- The number that a run of decimal digits writes. -/
def decimalValue (digits : List Char) : Nat :=
  digits.foldl (fun n c => 10 * n + (c.toNat - '0'.toNat)) 0

/-- The real that a whole part and a fraction write together; the fraction may be empty, and
nothing but digits is read. -/
def Binary64.ofLiteral? (whole fraction : List Char) : Option Binary64 :=
  if whole.isEmpty || !(whole ++ fraction).all isDecimalDigit then none
  else some (Binary64.ofRatio (decimalValue (whole ++ fraction)) (Nat.pow 10 fraction.length))

end Packrat
