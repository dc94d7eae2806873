import Packrat.Cli.Args
import Packrat.Cli.Console
import Packrat.Cli.Folder
import Packrat.Language.Reading
import Packrat.Tree.Json

/-!
# Running a command

A command sees the arguments and the disk, and comes to what is printed, the notices given on the
way, and an exit code: zero if all is well, one if something is wrong with a file, two if something
is wrong with the arguments.
-/

namespace Packrat.Cli

/-- What a run comes to. -/
structure Transcript where
  /-- The exit code. -/
  exit : Nat
  /-- What is printed. -/
  out : String
  /-- The notices given, oldest first. -/
  notices : List Notice

/-- The exit code of a run that broke off. -/
def brokenExit : Nat :=
  101

/-- A module that was read or a report, with the events on the way. -/
structure Loaded where
  /-- The module or the report. -/
  result : Except Fault (Except Diagnostic Module)
  /-- The events, oldest first. -/
  events : List Event

/-- Read the module at a path. -/
def load (disk : Disk) (path : String) : Loaded :=
  match disk.readText path with
  | .error e => ⟨.ok (.error (.unreadable path e.message)), []⟩
  | .ok text =>
    let (result, w) := Workspace.empty.readModule path text
    ⟨result, w.events.toList⟩

/-- The modules at a path, or a report. -/
def findModules (disk : Disk) (path : String) : Except Diagnostic (List String) :=
  match disk.modulesAt path with
  | .ok paths => .ok paths
  | .error e => .error (.unreadable path e.message)

/-- Notices of the events that are urgent enough. -/
def shown (limit : Severity) (events : List Event) : List Notice :=
  (events.filter fun e => e.severity.isShownAt limit).map .event

/-- Print the tree of a module. -/
def runAst (limit : Severity) (disk : Disk) (file : String) (json : Bool) : Transcript :=
  let loaded := load disk file
  let log := shown limit loaded.events
  match loaded.result with
  | .ok (.ok m) => ⟨0, (if json then m.json.pretty 0 else m.sexp) ++ "\n", log⟩
  | .ok (.error d) => ⟨1, "", log ++ [.report d]⟩
  | .error _ => ⟨brokenExit, "", log⟩

/-- The notices about one checked file, and whether it failed. -/
def checkFile (limit : Severity) (disk : Disk) (path : String) : List Notice × Bool :=
  let loaded := load disk path
  let log := shown limit loaded.events
  match loaded.result with
  | .ok (.ok _) => (log ++ [.status true path], false)
  | .ok (.error d) => (log ++ [.status false path, .report d], true)
  | .error _ => (log ++ [.status false path], true)

/-- Check a module or the modules under a folder. -/
def runCheck (limit : Severity) (disk : Disk) (path : String) : Transcript :=
  match findModules disk path with
  | .error d => ⟨1, "", [.report d]⟩
  | .ok paths =>
    let checks := paths.map (checkFile limit disk)
    let failed := checks.countP (·.2)
    ⟨if failed = 0 then 0 else 1, "",
      shown limit [.checking paths.length path] ++ checks.flatMap (·.1)
        ++ [.summary paths.length failed]⟩

/-- What arguments that do not make up a run come to. Only the version counts as output; advice on
how to use the program is left to the caller. -/
def runUsage (e : UsageError) : Transcript :=
  ⟨if e.isAnswer then 0 else 2, if e = .versionWanted then e.message else "", []⟩

/-- Run the program with the given arguments on a disk. -/
def run (disk : Disk) (argv : List String) : Transcript :=
  match Args.read argv with
  | .error e => runUsage e
  | .ok args =>
    let limit := Severity.ofVerbosity args.verbosity
    match args.command with
    | .ast file json => runAst limit disk file json
    | .check path => runCheck limit disk path

end Packrat.Cli
