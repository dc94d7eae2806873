import Packrat.Engine.CharClass
import Packrat.Engine.Value

/-!
# Grammars

A grammar is a tree of parsers that is ready to run. Caches, call counters and recursive rules live
outside the tree, in the workspace it was built in, and are referred to by number or name; so a
grammar can be shared, and all its copies share what they have learned.

Only a few forms are primitive. Sequences that keep one of their two values, padding, choice among
many and operator levels are all made of these.
-/

namespace Packrat

/-- Names a cache of a workspace. -/
abbrev CacheId := Nat

/-- Names a recursive rule of a workspace. -/
abbrev RuleId := Nat

/-- How a grammar refers to a recursive rule. -/
inductive Hold where
  /-- The reference keeps the rule alive. -/
  | owned
  /-- The reference may outlive the rule. -/
  | weak
deriving DecidableEq

/-- A parser, ready to run. -/
inductive Grammar where
  /-- Exactly this text. -/
  | literal (token : String)
  /-- The longest run of members of a class, at least one. -/
  | chars (cls : CharClass)
  /-- Nothing at all, with a value of its own. -/
  | accept (value : Value)
  /-- The same match with another value. -/
  | map (f : Value → Value) (p : Grammar)
  /-- The same match with another value, or a hard failure where the match began. -/
  | tryMap (f : Value → Except String Value) (p : Grammar)
  /-- One after the other; the value is the pair. -/
  | seq (first second : Grammar)
  /-- The first one that matches. -/
  | alt (first second : Grammar)
  /-- As often as it matches, at least once; the value is the list. -/
  | rep (p : Grammar)
  /-- A hard failure in place of no match. -/
  | required (message : String) (p : Grammar)
  /-- The same parser, run at most once per position. -/
  | memo (cache : CacheId) (p : Grammar)
  /-- The same parser, with its calls counted. -/
  | count (counter : String) (p : Grammar)
  /-- A recursive rule. -/
  | rule (hold : Hold) (id : RuleId)

namespace Grammar

/-- Both, keeping the first value. -/
def left (a b : Grammar) : Grammar :=
  .map Value.first (.seq a b)

/-- Both, keeping the second value. -/
def right (a b : Grammar) : Grammar :=
  .map Value.second (.seq a b)

/-- A parser that matches nothing. -/
def never : Grammar :=
  .chars .empty

/-- A parser that always fails hard. -/
def fail (message : String) : Grammar :=
  .tryMap (fun _ => .error message) (.accept (.text ""))

/-- The first of many that matches. -/
def oneOf (options : List Grammar) : Grammar :=
  options.foldr .alt .never

/-- The rules that a grammar keeps alive by itself. -/
def ownedRules : Grammar → List RuleId
  | .literal _ => []
  | .chars _ => []
  | .accept _ => []
  | .map _ p => p.ownedRules
  | .tryMap _ p => p.ownedRules
  | .seq a b => a.ownedRules ++ b.ownedRules
  | .alt a b => a.ownedRules ++ b.ownedRules
  | .rep p => p.ownedRules
  | .required _ p => p.ownedRules
  | .memo _ p => p.ownedRules
  | .count _ p => p.ownedRules
  | .rule .owned id => [id]
  | .rule .weak _ => []

end Grammar

end Packrat
