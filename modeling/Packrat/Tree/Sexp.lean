import Packrat.Number.Format
import Packrat.Tree.Expr

/-!
# Trees as S-expressions

Calls and binary operations are written as groups with the callee or the operator first, a
function as `(fn param (bindings) body)`, a binding as `(let name value)`, and a module as its
declarations, one to a line.
-/

namespace Packrat

/-- Numbers are written in full, without a point when they are whole. -/
def Sexp.number : NumberFormat where
  tie := .up
  inFull := fun _ => true
  afterWhole := ""
  notANumber := "NaN"
  infinite := "inf"
  negativeInfinite := "-inf"

mutual

/-- The S-expression of an expression. -/
def Expr.sexp : Expr → String
  | .real x => Sexp.number.write x
  | .ref name => name
  | .call callee argument => "(" ++ callee.sexp ++ " " ++ argument.sexp ++ ")"
  | .fn param bindings body =>
    "(fn " ++ param ++ " (" ++ Binding.sexps " " bindings ++ ") " ++ body.sexp ++ ")"
  | .bin op lhs rhs => "(" ++ op.symbol ++ " " ++ lhs.sexp ++ " " ++ rhs.sexp ++ ")"

/-- The S-expression of a binding. -/
def Binding.sexp : Binding → String
  | .mk name value => "(let " ++ name ++ " " ++ value.sexp ++ ")"

/-- The S-expressions of some bindings, with a separator between each two. -/
def Binding.sexps (separator : String) : List Binding → String
  | [] => ""
  | b :: bs => b.sexp ++ Binding.moreSexps separator bs

/-- The S-expressions of some bindings, each after a separator. -/
def Binding.moreSexps (separator : String) : List Binding → String
  | [] => ""
  | b :: bs => separator ++ b.sexp ++ Binding.moreSexps separator bs

end

/-- The S-expressions of a module's declarations, one to a line. -/
def Module.sexp (m : Module) : String :=
  Binding.sexps "\n" m.declarations

end Packrat
