import Packrat.Number.Binary64

/-!
# Syntax trees

A module is a list of bindings, each of a name to an expression. Expressions are reals, references,
calls with one argument, functions of one parameter with local bindings, and the four binary
operations. Equality of trees is decidable; reals are compared by bit pattern.
-/

namespace Packrat

/-- The binary operators. -/
inductive BinOp where
  | add
  | subtract
  | multiply
  | divide
deriving DecidableEq

/-- The sign that an operator is written with. -/
def BinOp.symbol : BinOp → String
  | .add => "+"
  | .subtract => "-"
  | .multiply => "*"
  | .divide => "/"

mutual

/-- An expression. -/
inductive Expr where
  /-- A number. -/
  | real (value : Binary64)
  /-- A name that stands for a binding or a parameter. -/
  | ref (name : String)
  /-- A call with one argument. -/
  | call (callee argument : Expr)
  /-- A function of one parameter, with bindings of its own before the body. -/
  | fn (param : String) (bindings : List Binding) (body : Expr)
  /-- A binary operation. -/
  | bin (op : BinOp) (lhs rhs : Expr)

/-- A name bound to an expression. -/
inductive Binding where
  /-- Bind a name to a value. -/
  | mk (name : String) (value : Expr)

end

instance : Inhabited Expr := ⟨.ref ""⟩

instance : Inhabited Binding := ⟨.mk "" default⟩

/-- The name that is bound. -/
def Binding.name : Binding → String
  | .mk name _ => name

/-- The expression that the name is bound to. -/
def Binding.value : Binding → Expr
  | .mk _ value => value

/-- A list of top-level bindings. -/
structure Module where
  /-- The bindings, in the order of the text. -/
  declarations : List Binding

/-- The first declaration with the given name. -/
def Module.binding? (m : Module) (name : String) : Option Binding :=
  m.declarations.find? fun b => b.name = name

/-! ## Equality -/

mutual

/-- Decide whether two expressions are the same tree. -/
def Expr.decEq : (a b : Expr) → Decidable (a = b)
  | .real x, .real y =>
    if h : x = y then .isTrue (by rw [h]) else .isFalse fun e => h (by injection e)
  | .ref x, .ref y =>
    if h : x = y then .isTrue (by rw [h]) else .isFalse fun e => h (by injection e)
  | .call f x, .call g y =>
    match Expr.decEq f g, Expr.decEq x y with
    | .isTrue hf, .isTrue hx => .isTrue (by rw [hf, hx])
    | .isFalse hf, _ => .isFalse fun e => hf (by injection e)
    | _, .isFalse hx => .isFalse fun e => hx (by injection e)
  | .fn p bs x, .fn q cs y =>
    if h : p = q then
      match Binding.decEqList bs cs, Expr.decEq x y with
      | .isTrue hb, .isTrue hx => .isTrue (by rw [h, hb, hx])
      | .isFalse hb, _ => .isFalse fun e => hb (by injection e)
      | _, .isFalse hx => .isFalse fun e => hx (by injection e)
    else .isFalse fun e => h (by injection e)
  | .bin o x y, .bin o' x' y' =>
    if h : o = o' then
      match Expr.decEq x x', Expr.decEq y y' with
      | .isTrue hx, .isTrue hy => .isTrue (by rw [h, hx, hy])
      | .isFalse hx, _ => .isFalse fun e => hx (by injection e)
      | _, .isFalse hy => .isFalse fun e => hy (by injection e)
    else .isFalse fun e => h (by injection e)
  | .real _, .ref _ => .isFalse nofun
  | .real _, .call _ _ => .isFalse nofun
  | .real _, .fn _ _ _ => .isFalse nofun
  | .real _, .bin _ _ _ => .isFalse nofun
  | .ref _, .real _ => .isFalse nofun
  | .ref _, .call _ _ => .isFalse nofun
  | .ref _, .fn _ _ _ => .isFalse nofun
  | .ref _, .bin _ _ _ => .isFalse nofun
  | .call _ _, .real _ => .isFalse nofun
  | .call _ _, .ref _ => .isFalse nofun
  | .call _ _, .fn _ _ _ => .isFalse nofun
  | .call _ _, .bin _ _ _ => .isFalse nofun
  | .fn _ _ _, .real _ => .isFalse nofun
  | .fn _ _ _, .ref _ => .isFalse nofun
  | .fn _ _ _, .call _ _ => .isFalse nofun
  | .fn _ _ _, .bin _ _ _ => .isFalse nofun
  | .bin _ _ _, .real _ => .isFalse nofun
  | .bin _ _ _, .ref _ => .isFalse nofun
  | .bin _ _ _, .call _ _ => .isFalse nofun
  | .bin _ _ _, .fn _ _ _ => .isFalse nofun

/-- Decide whether two bindings are the same. -/
def Binding.decEq : (a b : Binding) → Decidable (a = b)
  | .mk m x, .mk n y =>
    if h : m = n then
      match Expr.decEq x y with
      | .isTrue hx => .isTrue (by rw [h, hx])
      | .isFalse hx => .isFalse fun e => hx (by injection e)
    else .isFalse fun e => h (by injection e)

/-- Decide whether two lists of bindings are the same. -/
def Binding.decEqList : (as bs : List Binding) → Decidable (as = bs)
  | [], [] => .isTrue rfl
  | [], _ :: _ => .isFalse nofun
  | _ :: _, [] => .isFalse nofun
  | a :: as, b :: bs =>
    match Binding.decEq a b, Binding.decEqList as bs with
    | .isTrue ha, .isTrue hs => .isTrue (by rw [ha, hs])
    | .isFalse ha, _ => .isFalse fun e => ha (by injection e)
    | _, .isFalse hs => .isFalse fun e => hs (by injection e)

end

instance : DecidableEq Expr := Expr.decEq

instance : DecidableEq Binding := Binding.decEq

deriving instance DecidableEq for Module

end Packrat
