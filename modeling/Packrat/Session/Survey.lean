import Packrat.Engine.Level
import Packrat.Engine.Ownership

/-!
# Surveys

What can be asked without changing anything: which of some things are the same, in which order
tokens are tried, and what is known in a workspace about names. A name may stand for a counter, for
a registered cache, for an owned rule and for an exposed handle, all at once or for none of them.
-/

namespace Packrat

/-! ## Several things -/

section

variable {α : Type}

/-- For each of some things, the places of all that are the same as it. -/
def placesOfSame (same : α → α → Bool) (xs : List α) : List (List Nat) :=
  xs.map fun x => (xs.zipIdx.filter fun y => same x y.1).map (·.2)

/-- How many different things there are among some. -/
def distinctCount [DecidableEq α] (xs : List α) : Nat :=
  xs.eraseDups.length

end

/-- Tokens in the order in which a level tries them. -/
def Operator.tokenOrder (tokens : List String) : List String :=
  let ops := tokens.map fun token => ⟨token, fun lhs _ => lhs⟩
  (longestFirst ops).map token

/-! ## Names in a workspace -/

namespace Workspace

/-- The counters with their counts, in the order of their names. -/
def callCounts (w : Workspace) : List (String × Nat) :=
  w.counters.sorted

/-- The registered caches with the number of positions they know, in the order of their names. -/
def cacheSizes (w : Workspace) : List (String × Nat) :=
  w.memos.sorted.map fun (name, cache, _) => (name, w.cachedPositions cache)

/-- How many positions the cache registered under a name knows, if there is one. -/
def cachedUnder? (w : Workspace) (name : String) : Option Nat :=
  (w.memos.get? name).map fun m => w.cachedPositions m.1

/-- Whether the owned rule of a name is built, and whether the rule of its exposed handle is, if
there are such. -/
def readyUnder (w : Workspace) (name : String) : Option Bool × Option Bool :=
  ((w.owned.get? name).map (w.isReady .owned), (w.exposed.get? name).map (w.isReady .weak))

end Workspace

end Packrat
