import Packrat.Number.Decimal
import Packrat.Text.Utf8
import Packrat.Tree.Sexp

/-!
# Values

The values that grammars produce: the text they matched, what sequences and repetitions make of
several values, the results of operators and tags, and the trees of the expression language.
-/

namespace Packrat

/-- What a grammar produces for a match. -/
inductive Value where
  /-- Matched text. -/
  | text (s : String)
  /-- A number. -/
  | number (n : Nat)
  /-- Text that is shown as it is. -/
  | raw (s : String)
  /-- The two values of a sequence. -/
  | pair (first second : Value)
  /-- The values of a repetition. -/
  | list (items : List Value)
  /-- A named operation on two values. -/
  | operation (name : String) (lhs rhs : Value)
  /-- A value with a tag. -/
  | tagged (tag : String) (value : Value)
  /-- An expression. -/
  | expr (e : Expr)
  /-- A binding. -/
  | binding (b : Binding)
  /-- A whole module. -/
  | program (m : Module)

namespace Value

/-- The first of a pair; any other value stays as it is. -/
def first : Value → Value
  | .pair a _ => a
  | v => v

/-- The second of a pair; any other value stays as it is. -/
def second : Value → Value
  | .pair _ b => b
  | v => v

mutual

/-- A value in one line of text. -/
def shown : Value → String
  | .text s => "'" ++ s ++ "'"
  | .number n => toString n
  | .raw s => s
  | .pair a b => "<" ++ a.shown ++ "," ++ b.shown ++ ">"
  | .list items => "[" ++ shownItems items ++ "]"
  | .operation name lhs rhs => "(" ++ name ++ " " ++ lhs.shown ++ " " ++ rhs.shown ++ ")"
  | .tagged tag v => tag ++ "\x7b" ++ v.shown ++ "\x7d"
  | .expr e => e.sexp
  | .binding b => b.sexp
  | .program m => m.sexp

/-- Some values, with commas between them. -/
def shownItems : List Value → String
  | [] => ""
  | [v] => v.shown
  | v :: vs => v.shown ++ "," ++ shownItems vs

end

/-- The length in bytes of matched text; zero for any other value. -/
def byteCount : Value → Value
  | .text s => .number (Text.byteLength s.toList)
  | _ => .number 0

/-- The number below `2 ^ 32` that a text writes: decimal digits, with an optional plus sign. -/
def word32? (cs : List Char) : Option Nat :=
  let ds := if cs.head? = some '+' then cs.tail else cs
  let n := decimalValue ds
  if !ds.isEmpty && ds.all isDecimalDigit && n < Nat.pow 2 32 then some n else none

/-- Read matched text as a number below `2 ^ 32`. -/
def toWord32 : Value → Except String Value
  | .text s =>
    match word32? s.toList with
    | some n => .ok (.number n)
    | none => .error ("not a u32: " ++ s)
  | _ => .error "not a string"

end Value

end Packrat
