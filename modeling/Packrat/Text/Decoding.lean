/-!
# Text from bytes

Bytes are text when they are a well-formed UTF-8 sequence: every character is encoded in as few
bytes as it needs, and no code point is a surrogate or beyond the last one.
-/

namespace Packrat.Text

/-- The six bits that a continuation byte carries, if the byte is one. -/
def continuation? (b : UInt8) : Option Nat :=
  if 0x80 ≤ b ∧ b < 0xC0 then some (b.toNat - 0x80) else none

/-- The character with a code point, if it lies in a range and is no surrogate. -/
def charIn? (low high n : Nat) : Option Char :=
  if low ≤ n ∧ n ≤ high ∧ ¬(0xD800 ≤ n ∧ n ≤ 0xDFFF) then some (Char.ofNat n) else none

/-- The character that two bytes encode. -/
def twoBytes? (a b : UInt8) : Option Char := do
  if 0xC0 ≤ a ∧ a < 0xE0 then
    charIn? 0x80 0x7FF ((a.toNat - 0xC0) * 64 + (← continuation? b))
  else none

/-- The character that three bytes encode. -/
def threeBytes? (a b c : UInt8) : Option Char := do
  if 0xE0 ≤ a ∧ a < 0xF0 then
    charIn? 0x800 0xFFFF
      (((a.toNat - 0xE0) * 64 + (← continuation? b)) * 64 + (← continuation? c))
  else none

/-- The character that four bytes encode. -/
def fourBytes? (a b c d : UInt8) : Option Char := do
  if 0xF0 ≤ a ∧ a < 0xF8 then
    charIn? 0x10000 0x10FFFF
      ((((a.toNat - 0xF0) * 64 + (← continuation? b)) * 64 + (← continuation? c)) * 64
        + (← continuation? d))
  else none

/-- The text that some bytes encode, if they encode one. -/
def decode? : List UInt8 → Option (List Char)
  | [] => some []
  | a :: bytes =>
    if a < 0x80 then (decode? bytes).map (Char.ofNat a.toNat :: ·)
    else
      match bytes with
      | [] => none
      | b :: bytes =>
        match twoBytes? a b with
        | some char => (decode? bytes).map (char :: ·)
        | none =>
          match bytes with
          | [] => none
          | c :: bytes =>
            match threeBytes? a b c with
            | some char => (decode? bytes).map (char :: ·)
            | none =>
              match bytes with
              | [] => none
              | d :: bytes =>
                match fourBytes? a b c d with
                | some char => (decode? bytes).map (char :: ·)
                | none => none

end Packrat.Text
