import Packrat.Number.Format
import Packrat.Text.Unicode
import Packrat.Tree.Expr

/-!
# Trees as JSON

A JSON document has two written forms: the compact one without any blanks, and the indented one
with an item to a line. A tree becomes a document in which every expression is an object with one
field, named for its kind, and the fields of a record keep their order.
-/

namespace Packrat

/-- A JSON document; numbers are held as they are written. -/
inductive Json where
  /-- A number, or the word `null` where there is none to write. -/
  | number (written : String)
  /-- A string. -/
  | string (value : String)
  /-- A list of documents. -/
  | array (items : List Json)
  /-- Named documents, in order. -/
  | object (fields : List (String × Json))

namespace Json

/-- Numbers have at least one digit after the point, and an exponent outside 10⁻⁵ to 10¹⁵. What
is no number is written `null`. -/
def real : NumberFormat where
  tie := .even
  inFull := fun e => -5 ≤ e && e ≤ 15
  afterWhole := ".0"
  notANumber := "null"
  infinite := "null"
  negativeInfinite := "null"

/-! ## Strings -/

/-- How one character is written in a string: quotes, backslashes and control characters are
escaped, and nothing else is. -/
def stringChar (c : Char) : List Char :=
  if c = '"' then ['\\', '"']
  else if c = '\\' then ['\\', '\\']
  else if c.toNat = 0x08 then ['\\', 'b']
  else if c.toNat = 0x0C then ['\\', 'f']
  else if c = '\n' then ['\\', 'n']
  else if c = '\r' then ['\\', 'r']
  else if c = '\t' then ['\\', 't']
  else if c.toNat < 0x10 then ['\\', 'u', '0', '0', '0'] ++ Text.hexDigits c.toNat
  else if c.toNat < 0x20 then ['\\', 'u', '0', '0'] ++ Text.hexDigits c.toNat
  else [c]

/-- A string between quotes. -/
def quote (s : String) : String :=
  String.ofList ('"' :: s.toList.flatMap stringChar ++ ['"'])

/-! ## The compact form -/

mutual

/-- A document without blanks. -/
def compact : Json → String
  | .number written => written
  | .string value => quote value
  | .array items => "[" ++ compactItems items ++ "]"
  | .object fields => "\x7b" ++ compactFields fields ++ "\x7d"

/-- The items of an array, with commas between them. -/
def compactItems : List Json → String
  | [] => ""
  | [item] => item.compact
  | item :: items => item.compact ++ "," ++ compactItems items

/-- The fields of an object, with commas between them. -/
def compactFields : List (String × Json) → String
  | [] => ""
  | [(name, value)] => quote name ++ ":" ++ value.compact
  | (name, value) :: fields => quote name ++ ":" ++ value.compact ++ "," ++ compactFields fields

end

/-! ## The indented form -/

/-- A line feed and two blanks for each level. -/
def newline (depth : Nat) : String :=
  String.ofList ('\n' :: List.replicate (2 * depth) ' ')

mutual

/-- A document with an item or field to a line, standing at the given depth. Empty arrays and
objects stay on one line. -/
def pretty (depth : Nat) : Json → String
  | .number written => written
  | .string value => quote value
  | .array [] => "[]"
  | .array items => "[" ++ prettyItems (depth + 1) items ++ newline depth ++ "]"
  | .object [] => "\x7b\x7d"
  | .object fields => "\x7b" ++ prettyFields (depth + 1) fields ++ newline depth ++ "\x7d"

/-- The items of an array, each on a line of its own. -/
def prettyItems (depth : Nat) : List Json → String
  | [] => ""
  | [item] => newline depth ++ item.pretty depth
  | item :: items => newline depth ++ item.pretty depth ++ "," ++ prettyItems depth items

/-- The fields of an object, each on a line of its own. -/
def prettyFields (depth : Nat) : List (String × Json) → String
  | [] => ""
  | [(name, value)] => newline depth ++ quote name ++ ": " ++ value.pretty depth
  | (name, value) :: fields =>
    newline depth ++ quote name ++ ": " ++ value.pretty depth ++ "," ++ prettyFields depth fields

end

end Json

/-! ## Documents of trees -/

/-- The name of an operator in a document. -/
def BinOp.title : BinOp → String
  | .add => "Add"
  | .subtract => "Subtract"
  | .multiply => "Multiply"
  | .divide => "Divide"

mutual

/-- The document of an expression. -/
def Expr.json : Expr → Json
  | .real x => .object [("Real", .number (Json.real.write x))]
  | .ref name => .object [("Ref", .string name)]
  | .call callee argument =>
    .object [("Call", .object [("callee", callee.json), ("argument", argument.json)])]
  | .fn param bindings body =>
    .object [("FnDef", .object
      [("param", .string param), ("bindings", .array (Binding.jsons bindings)),
       ("body", body.json)])]
  | .bin op lhs rhs =>
    .object [("BinaryOp", .object
      [("op", .string op.title), ("lhs", lhs.json), ("rhs", rhs.json)])]

/-- The document of a binding. -/
def Binding.json : Binding → Json
  | .mk name value => .object [("name", .string name), ("value", value.json)]

/-- The documents of some bindings. -/
def Binding.jsons : List Binding → List Json
  | [] => []
  | b :: bs => b.json :: Binding.jsons bs

end

/-- The document of a module. -/
def Module.json (m : Module) : Json :=
  .object [("declarations", .array (Binding.jsons m.declarations))]

end Packrat
