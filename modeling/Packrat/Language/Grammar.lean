import Packrat.Engine.Blueprint
import Packrat.Number.Decimal

/-!
# The grammar of modules

```text
module     := binding+
binding    := "let " name "=" expression
expression := product (("+" | "-") product)*
product    := call (("*" | "/") call)*
call       := atom ("(" expression ")")*
atom       := number | function | "(" expression ")" | name
function   := "(" name ")" "->" binding* expression
number     := digit+ ("." digit+)?
name       := letter+
```

Blanks may stand around names, atoms, arrows, parentheses and declarations. Once `let ` has been
read, a binding has to follow; once a parenthesis has been opened and filled, it has to be closed;
and once an arrow has been read, a body has to follow. Expressions are one recursive rule, which
bindings and atoms come back to.
-/

namespace Packrat.Language

open Blueprint

/-! ## What is made of the parts -/

/-- A number from its whole part and its fraction. -/
def makeNumber : Value → Except String Value
  | .pair (.text whole) (.text fraction) =>
    match Binary64.ofLiteral? whole.toList fraction.toList with
    | some x => .ok (.expr (.real x))
    | none =>
      let literal := if fraction.isEmpty then whole else whole ++ "." ++ fraction
      .error ("Invalid number literal '" ++ literal ++ "'")
  | v => .ok v

/-- A reference from a name. -/
def makeReference : Value → Value
  | .text name => .expr (.ref name)
  | v => v

/-- The bindings among some values. -/
def bindingsOf (vs : List Value) : List Binding :=
  vs.filterMap fun
    | .binding b => some b
    | _ => none

/-- A function from its parameter, its bindings and its body. -/
def makeFunction : Value → Value
  | .pair (.pair (.text param) (.list bindings)) (.expr body) =>
    .expr (.fn param (bindingsOf bindings) body)
  | v => v

/-- Calls from a callee and its arguments, folded to the left. -/
def makeCalls : Value → Value
  | .pair (.expr callee) (.list arguments) =>
    .expr (arguments.foldl (fun f v =>
      match v with
      | .expr argument => .call f argument
      | _ => f) callee)
  | v => v

/-- A binary operation from its two operands. -/
def makeBinary (op : BinOp) : Value → Value → Value
  | .expr lhs, .expr rhs => .expr (.bin op lhs rhs)
  | v, _ => v

/-- A binding from its name and its value. -/
def makeBinding : Value → Value
  | .pair (.text name) (.expr value) => .binding (.mk name value)
  | v => v

/-- A module from its declarations. -/
def makeModule : Value → Value
  | .list declarations => .program ⟨bindingsOf declarations⟩
  | v => v

/-! ## The rules -/

/-- A parser with blanks allowed on both sides. -/
def spaced (p : Blueprint) : Blueprint :=
  .padded .spaces p

/-- A name. -/
def name : Blueprint :=
  spaced (.chars .letters)

/-- A binding whose value is read by the given parser. -/
def binding (value : Blueprint) : Blueprint :=
  .map makeBinding <|
    .seq
      (.left
        (.right (.literal "let ") (.required "Expected a name after 'let'" name))
        (.required "Expected '=' after the binding name" (.literal "=")))
      (.required "Expected an expression after '='" value)

/-- The name of the rule of expressions. -/
def expressionName : String :=
  "expression"

/-- An expression, inside the rule of expressions. -/
def inner : Blueprint :=
  .self expressionName

/-- A number. -/
def number : Blueprint :=
  .tryMap makeNumber <|
    .seq (.chars .digits) (.alt (.right (.literal ".") (.chars .digits)) (.accept (.text "")))

/-- A reference. -/
def reference : Blueprint :=
  .map makeReference (.chars .letters)

/-- As often as it matches, or not at all. -/
def many (p : Blueprint) : Blueprint :=
  .alt (.rep p) (.accept (.list []))

/-- A function. -/
def function : Blueprint :=
  .map makeFunction <|
    .seq
      (.seq
        (.left
          (.left (.right (.literal "(") name) (.literal ")"))
          (spaced (.literal "->")))
        (many (.memo none (binding inner))))
      (.required "Expected a function body after '->'" inner)

/-- An expression in parentheses. -/
def group : Blueprint :=
  .left
    (.right (.literal "(") inner)
    (.required "Expected ')' to close the group" (spaced (.literal ")")))

/-- What operators and calls are made of. -/
def atom : Blueprint :=
  .memo none (spaced (.alt (.alt (.alt number function) group) reference))

/-- The argument of a call. -/
def argument : Blueprint :=
  .left
    (.right (spaced (.literal "(")) inner)
    (.required "Expected ')' after the call argument" (spaced (.literal ")")))

/-- An atom with the arguments it is called with. -/
def call : Blueprint :=
  .map makeCalls (.seq atom (many argument))

/-- The operators that bind tighter. -/
def product : Blueprint :=
  .level .left [⟨"*", makeBinary .multiply⟩, ⟨"/", makeBinary .divide⟩] true call

/-- The operators that bind looser. -/
def sum : Blueprint :=
  .level .left [⟨"+", makeBinary .add⟩, ⟨"-", makeBinary .subtract⟩] true product

/-- An expression. -/
def expression : Blueprint :=
  .rule ⟨expressionName, false, none⟩ sum

/-- A module. -/
def program : Blueprint :=
  .map makeModule (.rep (spaced (binding expression)))

end Packrat.Language
