import Packrat.Engine.Workspace

/-!
# Who keeps a rule alive

A recursive rule lives while it has an owner: a registered grammar, a registered cache's parser, an
entry of the owned rules, a grammar of the running operation, the rule itself while it is being
parsed, or the built definition of a living rule. Ownership is counted, not traced, so rules that
own each other in a circle stay alive. Weak handles own nothing, and neither does a definition that
has not been built.

Owners only disappear between operations, when names are dropped or replaced and the grammars of an
operation are let go, and there `settle` retires the rules that lost their last owner. The one
exception is a registered cache that is replaced while an operation runs; from then to the end of
the operation, liveness is worked out afresh each time it is asked for.
-/

namespace Packrat.Workspace

/-- The rules with an owner outside the rules themselves. -/
def rootedRules (w : Workspace) : List RuleId :=
  w.active ++ w.owned.values ++ w.scratch.flatMap Grammar.ownedRules
    ++ w.grammars.values.flatMap Grammar.ownedRules
    ++ w.memos.values.flatMap fun m => m.2.ownedRules

/-- The rules that the definition of a rule owns. -/
def rulesOwnedBy (w : Workspace) (id : RuleId) : List RuleId :=
  match w.rules[id]? with
  | some r =>
    match r.definition with
    | .built g => g.ownedRules
    | _ => []
  | none => []

/-- Those of some rules that have an owner at the roots or among themselves. -/
def withOwner (w : Workspace) (ids : List RuleId) : List RuleId :=
  let held := w.rootedRules ++ ids.flatMap w.rulesOwnedBy
  ids.filter held.contains

/-- Drop rules without an owner, in as many rounds as are given. -/
def ownedAfter (w : Workspace) : Nat → List RuleId → List RuleId
  | 0, ids => ids
  | rounds + 1, ids =>
    let kept := w.withOwner ids
    if kept.length = ids.length then ids else ownedAfter w rounds kept

/-- The rules that are alive. -/
def living (w : Workspace) : List RuleId :=
  let present := (List.range w.rules.size).filter fun id =>
    match w.rules[id]? with
    | some r => !r.retired
    | none => false
  w.ownedAfter w.rules.size present

/-- Retire the rules that have lost their last owner. -/
def settle (w : Workspace) : Workspace :=
  let alive := w.living
  { w with
    rules := w.rules.mapIdx fun id r => { r with retired := r.retired || !alive.contains id }
    unsettled := false }

/-- The rule behind a reference. An owned reference always has one; a weak one has it while the
rule is alive. -/
def rule? (w : Workspace) (hold : Hold) (id : RuleId) : Option Rule :=
  match w.rules[id]?, hold with
  | some r, .owned => some r
  | some r, .weak =>
    if (if w.unsettled then w.living.contains id else !r.retired) then some r else none
  | none, _ => none

/-- Whether the rule behind a reference is there and built. -/
def isReady (w : Workspace) (hold : Hold) (id : RuleId) : Bool :=
  match w.rule? hold id with
  | some r => r.definition.isBuilt
  | none => false

end Packrat.Workspace
