import Std.Data.TreeMap
import Packrat.Engine.Blueprint
import Packrat.Engine.Event
import Packrat.Engine.Table

/-!
# Workspaces

Everything that outlives a single parse: the recursive rules with their definitions and entry
markers, the caches, the call counters, the log, and what has been registered by name.

A rule's definition passes through three stages. It is *pending* until the rule is first parsed,
*underway* while it is being built, and *built* from then on; a definition that could not be built
stays underway forever. The entry marker of a rule holds the position at which the rule was last
entered and not yet left, which is how left recursion is noticed.
-/

namespace Packrat

/-- A rule body that is waiting to be built. -/
structure Plan where
  /-- What the rule is called. -/
  label : RuleLabel
  /-- The enclosing rules, innermost first. -/
  scope : List (String × RuleId)
  /-- The description of the body. -/
  body : Blueprint

/-- The stages of a rule's definition. -/
inductive Definition where
  /-- Not asked for yet. -/
  | pending (plan : Plan)
  /-- Being built, or given up half-way. -/
  | underway
  /-- Ready to run. -/
  | built (g : Grammar)

/-- Whether a definition is ready. -/
def Definition.isBuilt : Definition → Bool
  | .built _ => true
  | _ => false

/-- A recursive rule. -/
structure Rule where
  /-- The rule's definition. -/
  definition : Definition
  /-- Where the rule was entered and not yet left. -/
  entered : Option Position
  /-- Whether the last owner of the rule is gone. -/
  retired : Bool

/-- How many rules a rule can bring about, itself included: a pending body brings those that it
describes. -/
def Rule.budget (r : Rule) : Nat :=
  match r.definition with
  | .pending plan => 1 + plan.body.ruleCount
  | .underway => 1
  | .built _ => 1

/-- What a cache remembers of a run: a match or none. -/
abbrev Remembered := Option (Value × Cursor)

/-- Results by position. -/
abbrev Cache := Std.TreeMap Position Remembered Position.compare

/-- A record of trying out a rule inside its own construction. -/
structure Probe where
  /-- Whether the rule counted as constructed. -/
  constructed : Bool
  /-- What the attempt was told. -/
  message : String
  /-- Where the attempt failed. -/
  offset : Nat

/-- The state that parses share. -/
structure Workspace where
  /-- The recursive rules, by number. -/
  rules : Array Rule
  /-- The caches, by number. -/
  caches : Array Cache
  /-- The call counters. -/
  counters : Table Nat
  /-- The log, oldest event first. -/
  events : Array Event
  /-- The number of sources so far. -/
  sources : Nat
  /-- The rules that are being parsed, innermost first. -/
  active : List RuleId
  /-- The grammars of the running operation. -/
  scratch : List Grammar
  /-- The registered grammars. -/
  grammars : Table Grammar
  /-- The rules that are owned by name. -/
  owned : Table RuleId
  /-- The weak handles that were exposed. -/
  exposed : Table RuleId
  /-- The registered caches, with the parsers that they belong to. -/
  memos : Table (CacheId × Grammar)
  /-- What was learned inside rule constructions, oldest first. -/
  probes : Array Probe
  /-- Whether a registered cache has been replaced during the running operation. -/
  unsettled : Bool

namespace Workspace

/-- The workspace in which nothing has happened. -/
def empty : Workspace where
  rules := #[]
  caches := #[]
  counters := .empty
  events := #[]
  sources := 0
  active := []
  scratch := []
  grammars := .empty
  owned := .empty
  exposed := .empty
  memos := .empty
  probes := #[]
  unsettled := false

/-- Add an event to the log. -/
def log (w : Workspace) (e : Event) : Workspace :=
  { w with events := w.events.push e }

/-! ## Sources -/

/-- A source that is new to the workspace. -/
def newSource (w : Workspace) (text : String) : Source × Workspace :=
  (⟨w.sources, text.toList⟩, { w with sources := w.sources + 1 })

/-! ## Caches and counters -/

/-- An empty cache. -/
def newCache (w : Workspace) : CacheId × Workspace :=
  (w.caches.size, { w with caches := w.caches.push ∅ })

/-- What a cache remembers about a position. -/
def cachedAt? (w : Workspace) (cache : CacheId) (p : Position) : Option Remembered :=
  match w.caches[cache]? with
  | some entries => entries[p]?
  | none => none

/-- Let a cache remember a result. -/
def remember (w : Workspace) (cache : CacheId) (p : Position) (r : Remembered) : Workspace :=
  { w with caches := w.caches.modify cache fun entries => entries.insert p r }

/-- How many positions a cache knows about. -/
def cachedPositions (w : Workspace) (cache : CacheId) : Nat :=
  match w.caches[cache]? with
  | some entries => entries.size
  | none => 0

/-- Make a counter known, at zero if it is new. -/
def openCounter (w : Workspace) (name : String) : Workspace :=
  if w.counters.has name then w else { w with counters := w.counters.put name 0 }

/-- Count one call. -/
def countCall (w : Workspace) (name : String) : Workspace :=
  { w with counters := w.counters.modify name (· + 1) }

/-! ## Rules -/

/-- A rule whose body is yet to be built. -/
def newRule (w : Workspace) (plan : Plan) : RuleId × Workspace :=
  (w.rules.size, { w with rules := w.rules.push ⟨.pending plan, none, false⟩ })

/-- Bring a rule's definition to another stage. -/
def define (w : Workspace) (id : RuleId) (d : Definition) : Workspace :=
  { w with rules := w.rules.modify id fun r => { r with definition := d } }

/-- Mark a rule as entered at a position. -/
def enter (w : Workspace) (id : RuleId) (p : Position) : Workspace :=
  { w with
    rules := w.rules.modify id fun r => { r with entered := some p }
    active := id :: w.active }

/-- Give a rule back the marker it had before it was entered. -/
def leave (w : Workspace) (id : RuleId) (before : Option Position) : Workspace :=
  { w with
    rules := w.rules.modify id fun r => { r with entered := before }
    active := w.active.tail }

/-- How many rules there are or can come to be. -/
def ruleBudget (w : Workspace) : Nat :=
  w.rules.toList.foldr (fun r n => r.budget + n) 0

end Workspace

end Packrat
