import Packrat.Engine.Level

/-!
# Blueprints

A blueprint describes a grammar before it is built. Building gives each cache and each recursive
rule of the description an identity of its own in a workspace; names in the description are looked
up at that moment. The body of a recursive rule stays a blueprint until the rule is first parsed.
-/

namespace Packrat

/-- What a recursive rule is called, and what its construction makes known. -/
structure RuleLabel where
  /-- The name that the body refers to the rule by. -/
  name : String
  /-- Whether a weak handle of the rule is made known under its name when it is built. -/
  exposed : Bool
  /-- A text on which the rule is tried out while it is being built. -/
  probe : Option String

/-- The description of a grammar. -/
inductive Blueprint where
  /-- Exactly this text. -/
  | literal (token : String)
  /-- The longest run of members of a class, at least one. -/
  | chars (cls : CharClass)
  /-- Nothing at all, with a value of its own. -/
  | accept (value : Value)
  /-- The same match with another value. -/
  | map (f : Value → Value) (p : Blueprint)
  /-- The same match with another value, or a hard failure. -/
  | tryMap (f : Value → Except String Value) (p : Blueprint)
  /-- One after the other. -/
  | seq (first second : Blueprint)
  /-- The first one that matches. -/
  | alt (first second : Blueprint)
  /-- As often as it matches, at least once. -/
  | rep (p : Blueprint)
  /-- A hard failure in place of no match. -/
  | required (message : String) (p : Blueprint)
  /-- Cached by position; a named cache is registered. -/
  | memo (name : Option String) (p : Blueprint)
  /-- Calls counted under a name. -/
  | count (name : String) (p : Blueprint)
  /-- A level of operators over an operand, which may be cached. -/
  | level (assoc : Assoc) (ops : List Operator) (cached : Bool) (operand : Blueprint)
  /-- A recursive rule. -/
  | rule (label : RuleLabel) (body : Blueprint)
  /-- The weak handle of the innermost enclosing rule of that name. -/
  | self (name : String)
  /-- The weak handle that was last exposed under that name. -/
  | exposed (name : String)
  /-- The grammar registered under that name. -/
  | registered (name : String)
  /-- The parser and cache registered under that name. -/
  | registeredMemo (name : String)
  /-- A part of the description that could not be read. -/
  | unreadable (reason : String)

namespace Blueprint

/-- Both, keeping the first value. -/
def left (a b : Blueprint) : Blueprint :=
  .map Value.first (.seq a b)

/-- Both, keeping the second value. -/
def right (a b : Blueprint) : Blueprint :=
  .map Value.second (.seq a b)

/-- A parser that matches nothing. -/
def never : Blueprint :=
  .chars .empty

/-- A run of members of a class, or nothing. -/
def skip (cls : CharClass) : Blueprint :=
  .alt (.chars cls) (.accept (.text ""))

/-- A parser with members of a class allowed on both sides. -/
def padded (cls : CharClass) (p : Blueprint) : Blueprint :=
  .right (skip cls) (.left p (skip cls))

/-- The first of many that matches, each of them cached. -/
def oneOf (options : List Blueprint) : Blueprint :=
  options.foldr (fun p rest => .alt (.memo none p) rest) .never

/-- How many recursive rules a blueprint describes, in rule bodies too. -/
def ruleCount : Blueprint → Nat
  | .map _ p => p.ruleCount
  | .tryMap _ p => p.ruleCount
  | .seq a b => a.ruleCount + b.ruleCount
  | .alt a b => a.ruleCount + b.ruleCount
  | .rep p => p.ruleCount
  | .required _ p => p.ruleCount
  | .memo _ p => p.ruleCount
  | .count _ p => p.ruleCount
  | .level _ _ _ operand => operand.ruleCount
  | .rule _ body => body.ruleCount + 1
  | .literal _ => 0
  | .chars _ => 0
  | .accept _ => 0
  | .self _ => 0
  | .exposed _ => 0
  | .registered _ => 0
  | .registeredMemo _ => 0
  | .unreadable _ => 0

end Blueprint

end Packrat
