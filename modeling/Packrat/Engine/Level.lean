import Packrat.Engine.Grammar
import Packrat.Sorting

/-!
# Operator levels

A level of binary operators that bind alike, over one operand parser. The operators are tried
longest token first, and in the order they were given among tokens of equal length, so that a token
is never cut short by another one that begins it.

A left-associative level reads an operand and then any number of steps, each a token with its
operand; a right-associative one reads any number of steps, each an operand with its token, and
then a last operand. Either falls back to a single operand. Each step carries the number of its
operator, by which the operands are folded afterwards.
-/

namespace Packrat

/-- A binary operator. -/
structure Operator where
  /-- The text that the operator is written as. -/
  token : String
  /-- What the operator makes of its two operands. -/
  reduce : Value → Value → Value

/-- Which way a chain of operators groups. -/
inductive Assoc where
  | left
  | right
deriving DecidableEq

namespace Operator

/-- The length of the token in bytes. -/
def width (op : Operator) : Nat :=
  Text.byteLength op.token.toList

/-- Longer tokens first; tokens of equal length keep their order. -/
def longestFirst (ops : List Operator) : List Operator :=
  sortWith (fun a b => b.width ≤ a.width) ops

/-- Apply the operator with the given number to two operands. -/
def apply (ops : List Operator) (index : Nat) (lhs rhs : Value) : Value :=
  match ops[index]? with
  | some op => op.reduce lhs rhs
  | none => lhs

/-- Fold a first operand and the steps after it, from the left. -/
def foldLeft (ops : List Operator) : Value → Value
  | .pair first (.list steps) =>
    steps.foldl (fun lhs step =>
      match step with
      | .pair (.number index) rhs => apply ops index lhs rhs
      | _ => lhs) first
  | v => v

/-- Fold the steps before a last operand, from the right. -/
def foldRight (ops : List Operator) : Value → Value
  | .pair (.list steps) last =>
    steps.foldr (fun step rhs =>
      match step with
      | .pair (.number index) lhs => apply ops index lhs rhs
      | _ => rhs) last
  | v => v

end Operator

/-- One step of a chain: the operator with the given number, and the operand on its inner side. -/
def Assoc.step (assoc : Assoc) (operand : Grammar) (index : Nat) (token : String) : Grammar :=
  .map (.pair (.number index)) <|
    match assoc with
    | .left => .right (.literal token) operand
    | .right => .left operand (.literal token)

/-- Each step of a level is cached on its own. -/
def Assoc.steps (assoc : Assoc) (operand : Grammar) (ops : List Operator)
    (caches : List CacheId) : Grammar :=
  .oneOf ((ops.zip caches).zipIdx.map fun ((op, cache), index) =>
    .memo cache (assoc.step operand index op.token))

/-- The parser of a level: a chain, or else a single operand. -/
def Assoc.level (assoc : Assoc) (operand : Grammar) (ops : List Operator)
    (caches : List CacheId) : Grammar :=
  let steps := Grammar.rep (assoc.steps operand ops caches)
  let chain :=
    match assoc with
    | .left => Grammar.map (Operator.foldLeft ops) (.seq operand steps)
    | .right => Grammar.map (Operator.foldRight ops) (.seq steps operand)
  .alt chain operand

end Packrat
