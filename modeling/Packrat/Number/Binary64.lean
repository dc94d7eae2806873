/-!
# Reals in the 64-bit binary format

A real is held as its bit pattern: a sign, an exponent field of eleven bits and a fraction field
of fifty-two. Two reals are equal when their patterns are, so the two zeros differ and a pattern
that is not a number equals itself.

A finite real has the magnitude `significand * 2 ^ scale / 2 ^ 1074`: all finite magnitudes are
whole multiples of the smallest one, and `scale` says by how many binary places the significand is
shifted above it.
-/

namespace Packrat

/-- A real in the 64-bit binary format, as its bit pattern. -/
structure Binary64 where
  /-- The bit pattern: sign, exponent field, fraction field. -/
  bits : UInt64
deriving DecidableEq, Inhabited

namespace Binary64

/-- Whether the sign bit is set. -/
def isNegative (x : Binary64) : Bool :=
  Nat.pow 2 63 ≤ x.bits.toNat

/-- The eleven bits below the sign. -/
def exponentField (x : Binary64) : Nat :=
  x.bits.toNat / Nat.pow 2 52 % Nat.pow 2 11

/-- The fifty-two lowest bits. -/
def fractionField (x : Binary64) : Nat :=
  x.bits.toNat % Nat.pow 2 52

/-- Whether the pattern stands for a number: neither an infinity nor "not a number". -/
def isFinite (x : Binary64) : Bool :=
  x.exponentField ≠ 2047

/-- Whether the pattern is "not a number". -/
def isNaN (x : Binary64) : Bool :=
  x.exponentField = 2047 && x.fractionField ≠ 0

/-- The whole number that is shifted by `scale`; its leading bit is implied above the lowest
exponent field. -/
def significand (x : Binary64) : Nat :=
  if x.exponentField = 0 then x.fractionField else Nat.pow 2 52 + x.fractionField

/-- The binary places by which the significand is shifted. -/
def scale (x : Binary64) : Nat :=
  x.exponentField - 1

/-- The pattern of positive infinity, read as a number. -/
def infinityBits : Nat :=
  2047 * Nat.pow 2 52

/-- Positive infinity. -/
def infinity : Binary64 :=
  ⟨infinityBits.toUInt64⟩

end Binary64

end Packrat
