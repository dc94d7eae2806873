import Packrat.Language.Reading
import Packrat.Session.Survey
import Packrat.Session.Trial

/-!
# Sessions

A session is a workspace with sources and cursors that are known by name, and a sequence of steps
that each do one thing and give one answer. A step that breaks off with a fault gives the fault as
its answer, and the next step finds what it left behind.

A request reads its arguments one by one as it comes to need them, so of two things that are wrong
with it the first is answered.

Between two steps nothing is being parsed and no grammar is in use, so every step ends by retiring
the rules that it has left without an owner.
-/

namespace Packrat

/-- An argument of a request, or why it could not be read. -/
abbrev Argument (α : Type) : Type :=
  Except String α

/-- What a session can be asked to do. -/
inductive Step where
  /-- Build a grammar and register it. -/
  | define (name : String) (p : Blueprint)
  /-- Register a recursive rule, both as a grammar and as an owned rule. -/
  | defineRule (name : String) (probe : Option String) (body : Blueprint)
  /-- Forget a grammar and an owned rule. -/
  | drop (name : String)
  /-- Ask whether the owned rule and the exposed handle of a name are constructed. -/
  | constructed (name : String)
  /-- Run a grammar on a text. -/
  | parse (p : Blueprint) (text : Argument String)
  /-- Run a grammar at a cursor. -/
  | parseAt (p : Blueprint) (cursor : Argument String)
  /-- Read a whole text. -/
  | readWhole (p : Blueprint) (name text : Argument String)
  /-- Ask how many positions a registered cache knows. -/
  | cached (name : String)
  /-- Ask how often a counted parser was called. -/
  | calls (name : String)
  /-- Ask what was learned inside rule constructions. -/
  | probes
  /-- Ask in which order tokens are tried. -/
  | tokens (tokens : List String)
  /-- Make a source. -/
  | source (name text : String)
  /-- Make a cursor at the beginning of a source. -/
  | start (name source : String)
  /-- Make a cursor further on. -/
  | advance (name cursor : String) (bytes : Argument Nat)
  /-- Ask whether the text at a cursor begins with a token. -/
  | startsWith (cursor : String) (token : Argument String)
  /-- Ask whether two cursors stand at one position. -/
  | same (first : String) (second : Argument String)
  /-- A request that could not be read. -/
  | unreadable (reason : String)

/-- What a step answers. -/
inductive Answer where
  /-- It is done. -/
  | done
  /-- Whether there was a grammar and an owned rule to forget. -/
  | dropped (grammar rule : Bool)
  /-- Whether the owned rule and the exposed handle are constructed, where there are any. -/
  | constructed (owned exposed : Option Bool)
  /-- The outcome of a run. -/
  | outcome (o : Outcome)
  /-- The value of a whole text, or a report. -/
  | reading (r : Except Diagnostic Value)
  /-- A number of cached positions, if there is such a cache. -/
  | cached (positions : Option Nat)
  /-- A number of calls, if there is such a counter. -/
  | calls (count : Option Nat)
  /-- What was learned inside rule constructions. -/
  | probes (ps : List Probe)
  /-- Tokens in the order they are tried. -/
  | tokens (tokens : List String)
  /-- The text of a new source. -/
  | source (text : String)
  /-- A new cursor. -/
  | cursor (c : Cursor)
  /-- Whether the text begins with the token. -/
  | startsWith (b : Bool)
  /-- Whether two cursors are equal, and how many different ones they are. -/
  | same (equal : Bool) (distinct : Nat)
  /-- The step broke off. -/
  | fault (f : Fault)

/-- A workspace with named sources and cursors. -/
structure Session where
  /-- Grammars, rules, caches and the log. -/
  workspace : Workspace
  /-- The sources by name. -/
  sources : Table Source
  /-- The cursors by name. -/
  cursors : Table Cursor

namespace Session

/-- The session before its first step. -/
def empty : Session :=
  ⟨.empty, .empty, .empty⟩

/-- Build a grammar for the running step. -/
def buildFor (s : Session) (p : Blueprint) : Except Fault Grammar × Session :=
  let (result, w) := s.workspace.buildFor p
  (result, { s with workspace := w })

/-- End the running step. -/
def settle (s : Session) : Session :=
  { s with workspace := s.workspace.finish }

/-- Make a cursor known. -/
def putCursor (s : Session) (name : String) (c : Cursor) : Answer × Session :=
  (.cursor c, { s with cursors := s.cursors.put name c })

/-- Go on with an argument that has to be readable. -/
def withArgument {α : Type} (s : Session) (x : Argument α) (f : α → Answer × Session) :
    Answer × Session :=
  match x with
  | .ok a => f a
  | .error reason => (.fault (.unreadable reason), s)

/-- Answer a question about a cursor that has to be known. -/
def withCursor (s : Session) (name : String) (f : Cursor → Answer × Session) : Answer × Session :=
  match s.cursors.get? name with
  | some c => f c
  | none => (.fault (.unreadable "unknown cursor"), s)

/-- Do one step, without settling. -/
def perform (s : Session) : Step → Answer × Session
  | .define name p =>
    match s.buildFor p with
    | (.ok g, s) =>
      let w := s.workspace
      (.done, { s with workspace := { w with grammars := w.grammars.put name g } })
    | (.error fault, s) => (.fault fault, s)
  | .defineRule name probe body =>
    let (id, w) := s.workspace.newRule ⟨⟨name, true, probe⟩, [], body⟩
    (.done, { s with workspace := { w with
      grammars := w.grammars.put name (.rule .owned id)
      owned := w.owned.put name id } })
  | .drop name =>
    let w := s.workspace
    (.dropped (w.grammars.has name) (w.owned.has name),
      { s with workspace := { w with
        grammars := w.grammars.erase name
        owned := w.owned.erase name } })
  | .constructed name =>
    let (owned, exposed) := s.workspace.readyUnder name
    (.constructed owned exposed, s)
  | .parse p text =>
    match s.buildFor p with
    | (.ok g, s) =>
      s.withArgument text fun text =>
        let (outcome, w) := s.workspace.parseText g text
        (.outcome outcome, { s with workspace := w })
    | (.error fault, s) => (.fault fault, s)
  | .parseAt p cursor =>
    match s.buildFor p with
    | (.ok g, s) =>
      s.withArgument cursor fun cursor =>
        s.withCursor cursor fun c =>
          let (outcome, w) := s.workspace.parse g c
          (.outcome outcome, { s with workspace := w })
    | (.error fault, s) => (.fault fault, s)
  | .readWhole p name text =>
    match s.buildFor p with
    | (.ok g, s) =>
      s.withArgument name fun name =>
        s.withArgument text fun text =>
          match s.workspace.readWhole g name text with
          | (.ok r, w) => (.reading r, { s with workspace := w })
          | (.error fault, w) => (.fault fault, { s with workspace := w })
    | (.error fault, s) => (.fault fault, s)
  | .cached name => (.cached (s.workspace.cachedUnder? name), s)
  | .calls name => (.calls (s.workspace.counters.get? name), s)
  | .probes => (.probes s.workspace.probes.toList, s)
  | .tokens tokens =>
    if tokens.any String.isEmpty then (.fault .emptyToken, s)
    else (.tokens (Operator.tokenOrder tokens), s)
  | .source name text =>
    let (source, w) := s.workspace.newSource text
    (.source text, { s with workspace := w, sources := s.sources.put name source })
  | .start name source =>
    match s.sources.get? source with
    | some source => s.putCursor name source.start
    | none => (.fault (.unreadable "unknown source"), s)
  | .advance name cursor bytes =>
    s.withCursor cursor fun c =>
      s.withArgument bytes fun bytes =>
        match c.advance bytes with
        | .ok next => s.putCursor name next
        | .error fault => (.fault fault, s)
  | .startsWith cursor token =>
    s.withCursor cursor fun c =>
      s.withArgument token fun token => (.startsWith (c.startsWith token.toList), s)
  | .same first second =>
    s.withCursor first fun c =>
      s.withArgument second fun second =>
        s.withCursor second fun d =>
          (.same (decide (c.position = d.position)) (distinctCount [c.position, d.position]), s)
  | .unreadable reason => (.fault (.unreadable reason), s)

/-- Do one step. -/
def step (s : Session) (x : Step) : Answer × Session :=
  let (answer, s) := s.perform x
  (answer, s.settle)

/-- Do some steps, one after the other. -/
def run : List Step → Session → List Answer × Session
  | [], s => ([], s)
  | x :: xs, s =>
    let (answer, s) := s.step x
    let (answers, s) := run xs s
    (answer :: answers, s)

end Session

end Packrat
