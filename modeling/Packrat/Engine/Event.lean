import Packrat.Engine.Cursor
import Packrat.Engine.Grammar

/-!
# Events

What the engine and the programs on top of it report while they work. An event is data; its
severity, the part of the program it belongs to, and its wording are functions of it.
-/

namespace Packrat

/-- How urgent an event is, most urgent first. -/
inductive Severity where
  | error
  | warn
  | info
  | debug
  | trace
deriving DecidableEq

namespace Severity

/-- The name of a severity. -/
def name : Severity → String
  | .error => "ERROR"
  | .warn => "WARN"
  | .info => "INFO"
  | .debug => "DEBUG"
  | .trace => "TRACE"

/-- The more urgent, the lower. -/
def rank : Severity → Nat
  | .error => 1
  | .warn => 2
  | .info => 3
  | .debug => 4
  | .trace => 5

/-- Every severity, most urgent first. -/
def all : List Severity :=
  [.error, .warn, .info, .debug, .trace]

end Severity

/-- Something worth reporting. -/
inductive Event where
  /-- A cache already had the answer. -/
  | cacheHit (cache : CacheId) (position : Position)
  /-- A cache had no answer and now has one. -/
  | cacheMiss (cache : CacheId) (position : Position)
  /-- A recursive rule is about to be built. -/
  | constructing (rule : RuleId)
  /-- A recursive rule was entered twice at one position. -/
  | leftRecursion (rule : RuleId) (position : Position)
  /-- A required parser did not match. -/
  | requirementFailed (offset : Nat) (message : String)
  /-- Reading a whole text ended in a hard failure. -/
  | hardFailure (name : String) (offset : Nat)
  /-- Reading a whole text ended without a match. -/
  | noMatch (name : String)
  /-- Reading a whole text stopped before its end. -/
  | leftOver (name : String) (offset : Nat)
  /-- A whole module was read. -/
  | parsed (name : String) (declarations : Nat)
  /-- Some files are about to be checked. -/
  | checking (files : Nat) (path : String)
deriving DecidableEq

namespace Event

/-- How urgent the event is. -/
def severity : Event → Severity
  | .cacheHit .. => .trace
  | .cacheMiss .. => .trace
  | .constructing .. => .trace
  | .leftRecursion .. => .debug
  | .requirementFailed .. => .debug
  | .hardFailure .. => .debug
  | .noMatch .. => .debug
  | .leftOver .. => .debug
  | .parsed .. => .debug
  | .checking .. => .info

/-- The part of the program that reports the event. -/
def target : Event → String
  | .cacheHit .. => "gthunk::parser::memo"
  | .cacheMiss .. => "gthunk::parser::memo"
  | .constructing .. => "gthunk::parser::recursive"
  | .leftRecursion .. => "gthunk::parser::recursive"
  | .requirementFailed .. => "gthunk::parser::combinator"
  | .hardFailure .. => "gthunk::driver"
  | .noMatch .. => "gthunk::driver"
  | .leftOver .. => "gthunk::driver"
  | .parsed .. => "gthunk::driver"
  | .checking .. => "gthunk::cli"

/-- What the event says. -/
def text : Event → String
  | .cacheHit _ p => "packrat hit at offset " ++ toString p.offset
  | .cacheMiss _ p => "packrat miss at offset " ++ toString p.offset
  | .constructing _ => "constructing recursive grammar"
  | .leftRecursion _ p => "left recursion detected at offset " ++ toString p.offset
  | .requirementFailed offset message =>
    "required match failed at offset " ++ toString offset ++ ": " ++ message
  | .hardFailure name offset => name ++ ": hard failure at offset " ++ toString offset
  | .noMatch name => name ++ ": no match"
  | .leftOver name offset => name ++ ": input left over at offset " ++ toString offset
  | .parsed name declarations =>
    name ++ ": parsed " ++ toString declarations ++ " declaration(s)"
  | .checking files path => "checking " ++ toString files ++ " file(s) under " ++ path

/-- The event in one line: severity, target, wording. -/
def line (e : Event) : String :=
  e.severity.name ++ " " ++ e.target ++ ": " ++ e.text

/-- Whether the event is a cache hit. -/
def isHit : Event → Bool
  | .cacheHit .. => true
  | _ => false

/-- Whether the event is a cache miss. -/
def isMiss : Event → Bool
  | .cacheMiss .. => true
  | _ => false

end Event

end Packrat
