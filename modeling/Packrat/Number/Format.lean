import Packrat.Number.Shortest

/-!
# Writing reals

A real is written with its shortest digits. What is left to a format is where the point or an
exponent goes: which exponents are written out in full, whether a whole number keeps a `.0`, which
way a tie between two shortest decimals goes, and the words for the patterns that are no numbers.
-/

namespace Packrat

/-- The choices of a number format. -/
structure NumberFormat where
  /-- Which of two equally near decimals is written. -/
  tie : Tie
  /-- Whether a number with this power of ten at its leading digit is written without an
  exponent. -/
  inFull : Int → Bool
  /-- What follows a whole number that is written in full. -/
  afterWhole : String
  /-- The word for "not a number". -/
  notANumber : String
  /-- The word for positive infinity. -/
  infinite : String
  /-- The word for negative infinity. -/
  negativeInfinite : String

/-- Digits with the point where it belongs, and no exponent. -/
def Decimal.inFull (afterWhole : String) (d : Decimal) : String :=
  let ds := Nat.toDigits 10 d.digits
  let below := (-d.exponent).toNat
  if below = 0 then String.ofList (ds ++ List.replicate d.exponent.toNat '0') ++ afterWhole
  else
    let padded := List.replicate (below + 1 - ds.length) '0' ++ ds
    String.ofList (padded.take (padded.length - below)) ++ "."
      ++ String.ofList (padded.drop (padded.length - below))

/-- One digit, the others after a point, and the power of ten with its sign. -/
def Decimal.scientific (d : Decimal) : String :=
  let ds := Nat.toDigits 10 d.digits
  let power := d.exponent + (ds.length - 1 : Nat)
  let point := if ds.length = 1 then "" else "."
  let sign := if power < 0 then "e-" else "e+"
  String.ofList (ds.take 1) ++ point ++ String.ofList (ds.drop 1) ++ sign
    ++ String.ofList (Nat.toDigits 10 power.natAbs)

/-- The text of a finite magnitude. -/
def NumberFormat.magnitude (f : NumberFormat) (x : Binary64) : String :=
  if x.significand = 0 then "0" ++ f.afterWhole
  else
    let d := x.shortest f.tie
    if f.inFull (d.exponent + (digitCount d.digits - 1 : Nat)) then d.inFull f.afterWhole
    else d.scientific

/-- The text of a real. -/
def NumberFormat.write (f : NumberFormat) (x : Binary64) : String :=
  if x.isFinite then (if x.isNegative then "-" else "") ++ f.magnitude x
  else if x.isNaN then f.notANumber
  else if x.isNegative then f.negativeInfinite
  else f.infinite

end Packrat
