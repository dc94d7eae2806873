/-!
# Command-line arguments

The program has two commands. `ast FILE` prints the tree of a module, as JSON with `--json`;
`check [PATH]` checks a module or all modules under a directory. `-v` raises the verbosity, as
often as it is given, before or after the command; given after it, the count before it is
forgotten. `help`, `-h` and `--help` ask for help, and `-V` and `--version` for the version.

Arguments are taken one at a time from the left and the first one that cannot be accepted decides
the error. A path is looked at when the next flag is accepted or the arguments end, so an argument
that cannot be accepted at all comes before an empty path. After `--` everything is a path.
-/

namespace Packrat.Cli

/-- What the program is asked to do. -/
inductive Command where
  /-- Print the tree of a module. -/
  | ast (file : String) (json : Bool)
  /-- Check a module or the modules under a directory. -/
  | check (path : String)
deriving DecidableEq

/-- The path that a command is about. -/
def Command.path : Command → String
  | .ast file _ => file
  | .check path => path

/-- The arguments of a run. -/
structure Args where
  /-- How talkative the program is, at most 255. -/
  verbosity : Nat
  /-- What to do. -/
  command : Command
deriving DecidableEq

/-- Why arguments do not make up a run. -/
inductive UsageError where
  /-- Help was asked for. -/
  | helpWanted
  /-- The version was asked for. -/
  | versionWanted
  /-- There are no arguments at all. -/
  | nothingGiven
  /-- There are flags but no command. -/
  | commandMissing
  /-- There is no such command. -/
  | unknownCommand
  /-- There is no such flag, or no room for another path. -/
  | unknownArgument
  /-- The command needs a path. -/
  | pathMissing
  /-- A path is empty. -/
  | pathEmpty
  /-- A flag that counts once was given twice. -/
  | flagRepeated
  /-- A flag that takes no value was given one. -/
  | valueUnwanted
deriving DecidableEq

/-- What the user is told about arguments that do not make up a run. -/
def UsageError.message : UsageError → String
  | .helpWanted =>
    "Usage: gthunk [-v]... ast FILE [--json]\n       gthunk [-v]... check [PATH]\n"
  | .versionWanted => "gthunk 0.1.0\n"
  | .nothingGiven => "error: a command is needed; try --help\n"
  | .commandMissing => "error: a command is needed; try --help\n"
  | .unknownCommand => "error: there is no such command; try --help\n"
  | .unknownArgument => "error: there is an argument too many; try --help\n"
  | .pathMissing => "error: a file is needed; try --help\n"
  | .pathEmpty => "error: a path must not be empty\n"
  | .flagRepeated => "error: a flag was given twice\n"
  | .valueUnwanted => "error: a flag was given a value that it does not take\n"

/-- Whether the user got what was asked for. -/
def UsageError.isAnswer : UsageError → Bool
  | .helpWanted => true
  | .versionWanted => true
  | _ => false

/-- What an argument looks like. -/
inductive Word where
  /-- Two dashes by themselves. -/
  | dashes
  /-- A long flag, and what follows its equals sign. -/
  | long (name : List Char) (value : Option (List Char))
  /-- Short flags behind one dash. -/
  | short (letters : List Char)
  /-- Anything else; a single dash too. -/
  | plain
deriving DecidableEq

/-- Tell what an argument looks like. -/
def Word.ofString (s : String) : Word :=
  match s.toList with
  | ['-', '-'] => .dashes
  | '-' :: '-' :: cs =>
    match cs.dropWhile (· ≠ '=') with
    | [] => .long cs none
    | _ :: value => .long (cs.takeWhile (· ≠ '=')) (some value)
  | ['-'] => .plain
  | '-' :: letters => .short letters
  | _ => .plain

/-- The verbosity does not grow beyond this. -/
def maxVerbosity : Nat :=
  255

/-- One more `-v`. -/
def louder (verbosity : Nat) : Nat :=
  min (verbosity + 1) maxVerbosity

/-! ## After a command -/

/-- What a command has been given so far. -/
structure Given where
  /-- Whether the command takes `--json`. -/
  takesJson : Bool
  /-- How often `-v` was given after the command, if it was. -/
  verbosity : Option Nat
  /-- Whether `--json` was given. -/
  json : Bool
  /-- The path, if one was given. -/
  path : Option String

namespace Given

/-- Accept a flag, which needs the path before it to be in order. -/
def settled (g : Given) : Except UsageError Given :=
  if g.path = some "" then .error .pathEmpty else .ok g

/-- One more `-v`. -/
def louder (g : Given) : Given :=
  { g with verbosity := some (Cli.louder (g.verbosity.getD 0)) }

/-- Accept a long flag. -/
def long (g : Given) (name : List Char) (value : Option (List Char)) : Except UsageError Given :=
  if name = "verbose".toList then
    if value.isSome then .error .valueUnwanted else return (← g.settled).louder
  else if name = "help".toList then
    if value.isSome then .error .valueUnwanted else g.settled >>= fun _ => .error .helpWanted
  else if name = "json".toList ∧ g.takesJson then
    if value.isSome then .error .valueUnwanted
    else g.settled >>= fun g => if g.json then .error .flagRepeated else .ok { g with json := true }
  else .error .unknownArgument

/-- Accept short flags, from the left. -/
def short (g : Given) : List Char → Except UsageError Given
  | [] => .ok g
  | c :: cs =>
    if c = 'v' then g.settled >>= fun g => short g.louder cs
    else if c = 'h' then g.settled >>= fun _ => .error .helpWanted
    else .error .unknownArgument

/-- Accept a path, if there is room for one. -/
def withPath (g : Given) (path : String) : Except UsageError Given :=
  if g.path.isSome then .error .unknownArgument else .ok { g with path := some path }

/-- Take the arguments after a command; `verbatim` says that `--` has been seen. -/
def take (verbatim : Bool) (g : Given) : List String → Except UsageError Given
  | [] => g.settled
  | arg :: args =>
    if verbatim then g.withPath arg >>= fun g => take true g args
    else
      match Word.ofString arg with
      | .dashes => take true g args
      | .long name value => g.long name value >>= fun g => take false g args
      | .short letters => g.short letters >>= fun g => take false g args
      | .plain => g.withPath arg >>= fun g => take false g args

end Given

/-- Take the arguments of `ast`. -/
def takeAst (verbosity : Nat) (args : List String) : Except UsageError Args := do
  let g ← Given.take false ⟨true, none, false, none⟩ args
  match g.path with
  | some file => return ⟨g.verbosity.getD verbosity, .ast file g.json⟩
  | none => .error .pathMissing

/-- Take the arguments of `check`; the path is the working directory if none is given. -/
def takeCheck (verbosity : Nat) (args : List String) : Except UsageError Args := do
  let g ← Given.take false ⟨false, none, false, none⟩ args
  return ⟨g.verbosity.getD verbosity, .check (g.path.getD ".")⟩

/-! ## Before a command -/

/-- The names that stand for a command. -/
def commandNames : List String :=
  ["ast", "check", "help"]

/-- What asking for help with something comes to: only commands have help, and they have no
commands of their own. -/
def takeHelp : List String → UsageError
  | [] => .helpWanted
  | [name] => if commandNames.contains name then .helpWanted else .unknownCommand
  | _ => .unknownCommand

/-- What is wrong when there are no more arguments. -/
def withoutCommand (flagged : Bool) : UsageError :=
  if flagged then .commandMissing else .nothingGiven

/-- What is wrong after `--`: a command does not go there, and nothing else does. -/
def afterDashes (flagged : Bool) : List String → UsageError
  | [] => withoutCommand flagged
  | arg :: _ => if commandNames.contains arg then .unknownArgument else .unknownCommand

/-- Accept a long flag before the command. -/
def leadingLong (verbosity : Nat) (name : List Char) (value : Option (List Char)) :
    Except UsageError Nat :=
  if name = "verbose".toList then
    if value.isSome then .error .valueUnwanted else .ok (louder verbosity)
  else if name = "help".toList then
    if value.isSome then .error .valueUnwanted else .error .helpWanted
  else if name = "version".toList then
    if value.isSome then .error .valueUnwanted else .error .versionWanted
  else .error .unknownArgument

/-- Accept short flags before the command, from the left. -/
def leadingShort (verbosity : Nat) : List Char → Except UsageError Nat
  | [] => .ok verbosity
  | c :: cs =>
    if c = 'v' then leadingShort (louder verbosity) cs
    else if c = 'h' then .error .helpWanted
    else if c = 'V' then .error .versionWanted
    else .error .unknownArgument

/-- Take arguments from the left up to the command; `flagged` says that there was a flag. -/
def takeLeading (verbosity : Nat) (flagged : Bool) : List String → Except UsageError Args
  | [] => .error (withoutCommand flagged)
  | arg :: args =>
    if arg = "ast" then takeAst verbosity args
    else if arg = "check" then takeCheck verbosity args
    else if arg = "help" then .error (takeHelp args)
    else
      match Word.ofString arg with
      | .dashes => .error (afterDashes flagged args)
      | .long name value => leadingLong verbosity name value >>= fun v => takeLeading v true args
      | .short letters => leadingShort verbosity letters >>= fun v => takeLeading v true args
      | .plain => .error .unknownCommand

/-- Read the arguments of a run. -/
def Args.read (argv : List String) : Except UsageError Args :=
  takeLeading 0 false argv

end Packrat.Cli
