import Packrat.Engine.Ownership

/-!
# Building

Building a blueprint gives its caches, counters and rules a place in the workspace and looks up
the names it uses; a name that stands for nothing becomes a parser that fails. Parts are built from
left to right, depth first. A fault ends the construction, and the workspace stays as the fault
found it.

The body of a rule is built when the rule is first parsed. A rule that is asked for while it is
being built, or after its construction broke off, has no definition to be parsed with.
-/

namespace Packrat

/-- Why a rule cannot be parsed at a cursor. -/
inductive Refusal where
  /-- The rule has lost its last owner. -/
  | dropped
  /-- The rule is being parsed at this very position. -/
  | leftRecursion
  /-- The rule has no definition and is not about to get one. -/
  | underConstruction
deriving DecidableEq

/-- The message of the hard failure that a refusal becomes. -/
def Refusal.message : Refusal → String
  | .dropped => "Recursive grammar was used after it was dropped"
  | .leftRecursion => "Left-recursive grammar detected"
  | .underConstruction => "Recursive grammar was parsed while it was still being constructed"

/-- A construction: a result or a fault, and the workspace after it. -/
abbrev Build := ExceptT Fault (StateM Workspace)

namespace Workspace

/-- Whether a rule refuses to be entered at a cursor, and why. -/
def refusal? (w : Workspace) (hold : Hold) (id : RuleId) (c : Cursor) : Option Refusal :=
  match w.rule? hold id with
  | none => some .dropped
  | some r => if r.entered = some c.position then some .leftRecursion else none

/-- Log what a refusal is worth logging for. -/
def logRefusal (w : Workspace) (id : RuleId) (c : Cursor) : Refusal → Workspace
  | .leftRecursion => w.log (.leftRecursion id c.position)
  | _ => w

/-- Try out a rule on a text of its own while it is being built. It may be entered and then has no
definition. -/
def probe (w : Workspace) (id : RuleId) (text : String) : Workspace :=
  let constructed := w.isReady .weak id
  let (source, w) := w.newSource text
  let refusal := (w.refusal? .weak id source.start).getD .underConstruction
  let w := w.logRefusal id source.start refusal
  { w with probes := w.probes.push ⟨constructed, refusal.message, 0⟩ }

/-- Register a cache with its parser. -/
def registerMemo (w : Workspace) (name : String) (cache : CacheId) (p : Grammar) : Workspace :=
  { w with
    unsettled := w.unsettled || w.memos.has name
    memos := w.memos.put name (cache, p) }

/-- Some empty caches. -/
def newCaches : Nat → Workspace → List CacheId × Workspace
  | 0, w => ([], w)
  | n + 1, w =>
    let (cache, w) := w.newCache
    let (caches, w) := newCaches n w
    (cache :: caches, w)

end Workspace

namespace Blueprint

/-- The parser for a name that was looked up. -/
def resolve (name : String) (found : Option Grammar) : Grammar :=
  found.getD (.fail ("unresolved " ++ name))

/-- Build a blueprint inside the given rules. -/
def build (scope : List (String × RuleId)) : Blueprint → Build Grammar
  | .literal token => return .literal token
  | .chars cls => return .chars cls
  | .accept value => return .accept value
  | .map f p => return .map f (← build scope p)
  | .tryMap f p => return .tryMap f (← build scope p)
  | .seq a b => do
    let a ← build scope a
    let b ← build scope b
    return .seq a b
  | .alt a b => do
    let a ← build scope a
    let b ← build scope b
    return .alt a b
  | .rep p => return .rep (← build scope p)
  | .required message p => return .required message (← build scope p)
  | .memo name p => do
    let p ← build scope p
    let cache ← modifyGet Workspace.newCache
    match name with
    | some name => modify (·.registerMemo name cache p)
    | none => pure ()
    return .memo cache p
  | .count name p => do
    modify (·.openCounter name)
    return .count name (← build scope p)
  | .level assoc ops cached operand => do
    if ops.any fun op => op.token.isEmpty then throw .emptyToken
    let operand ← build scope operand
    let operand ←
      if cached then do
        let cache ← modifyGet Workspace.newCache
        pure (.memo cache operand)
      else pure operand
    let caches ← modifyGet (Workspace.newCaches ops.length)
    return assoc.level operand (Operator.longestFirst ops) caches
  | .rule label body => do
    let id ← modifyGet (·.newRule ⟨label, scope, body⟩)
    return .rule .owned id
  | .self name => return resolve name ((scope.lookup name).map (.rule .weak))
  | .exposed name => do
    let w ← get
    return resolve name ((w.exposed.get? name).map (.rule .weak))
  | .registered name => do
    let w ← get
    return resolve name (w.grammars.get? name)
  | .registeredMemo name => do
    let w ← get
    return resolve name ((w.memos.get? name).map fun m => .memo m.1 m.2)
  | .unreadable reason => throw (.unreadable reason)

end Blueprint

namespace Workspace

/-- Build a blueprint that stands in no rule. -/
def build (w : Workspace) (b : Blueprint) : Except Fault Grammar × Workspace :=
  (b.build []).run w

/-- Build the body of a rule: make its handle known, try it out if that is asked for, then build
it. A fault leaves the definition underway. -/
def construct (w : Workspace) (id : RuleId) (plan : Plan) : Except Fault Grammar × Workspace :=
  let w := (w.log (.constructing id)).define id .underway
  let w :=
    if plan.label.exposed then { w with exposed := w.exposed.put plan.label.name id } else w
  let w :=
    match plan.label.probe with
    | some text => w.probe id text
    | none => w
  match (plan.body.build ((plan.label.name, id) :: plan.scope)).run w with
  | (.ok g, w) => (.ok g, w.define id (.built g))
  | (.error fault, w) => (.error fault, w)

/-- The definition of a rule, built now if it is pending; a rule that is underway has none. -/
def definition (w : Workspace) (id : RuleId) : Except Fault (Option Grammar) × Workspace :=
  match w.rules[id]? with
  | some ⟨.built g, _, _⟩ => (.ok (some g), w)
  | some ⟨.pending plan, _, _⟩ =>
    match w.construct id plan with
    | (.ok g, w) => (.ok (some g), w)
    | (.error fault, w) => (.error fault, w)
  | _ => (.ok none, w)

end Workspace

end Packrat
