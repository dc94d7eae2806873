/-!
# Faults

A fault is a breach of a contract that no grammar can react to: it ends the operation that it
occurs in. It is not an answer about the text, unlike a hard failure, which is.
-/

namespace Packrat

/-- What can break while a grammar is built or run. -/
inductive Fault where
  /-- A repeated parser matched without moving. -/
  | stalled (offset : Nat)
  /-- A cursor was moved past the end of its text or into the middle of a character. -/
  | invalidAdvance (offset size : Nat)
  /-- A cursor was moved beyond the largest offset there is. -/
  | offsetOverflow
  /-- A text was cut past its end or in the middle of a character. -/
  | badCut
  /-- An operator level was given an operator without a token. -/
  | emptyToken
  /-- A part of a grammar's description, or of a request, could not be read. -/
  | unreadable (reason : String)
  /-- The evaluator's budget ran out. -/
  | exhausted
deriving DecidableEq

/-- What is said about a fault, for those that carry a message. -/
def Fault.message? : Fault → Option String
  | .stalled offset => some ("repeated parser matched empty input at offset " ++ toString offset)
  | .invalidAdvance offset size =>
    some ("cursor advanced to invalid offset " ++ toString offset ++ " (input length "
      ++ toString size ++ ")")
  | .emptyToken => some "operator tokens must not be empty"
  | .unreadable reason => some reason
  | .offsetOverflow => none
  | .badCut => none
  | .exhausted => none

end Packrat
