import Packrat.Cli.Command

/-!
# The program

Reads what the arguments ask for from the disk, runs the command on it, and prints what it comes
to. Links below the path that was asked for are not followed.
-/

namespace Packrat.Cli

/-- Why the system refused. The one argument that it can refuse here is a path, for its length. -/
def refusalOf : IO.Error → DiskError
  | .noFileOrDirectory .. => .notFound
  | .inappropriateType .. => .notFolder
  | .invalidArgument .. => .tooLong
  | .permissionDenied .. => .notPermitted
  | e => .other (toString e)

/-- Read the file or folder at a directory entry. What is neither is left unread. -/
partial def readEntry (place : IO.FS.DirEntry) : IO.FS.FileType → IO Entry
  | .dir => do
    try
      let mut entries := #[]
      for child in ← place.path.readDir do
        let type := (← child.path.symlinkMetadata).type
        entries := entries.push (child.fileName, ← readEntry child type)
      return .folder entries.toList
    catch e => return .sealedFolder (refusalOf e)
  | .file => do
    try return .file (← IO.FS.readBinFile place.path).toList
    catch e => return .sealedFile (refusalOf e)
  | _ => return .other []

/-- The disk at a path, as far as a command can see it. -/
def readDisk (path : String) : IO Disk := do
  if let some e := Entry.pathError? path then return Entry.diskAt path (.error e)
  try
    let place : IO.FS.DirEntry := ⟨← IO.currentDir, path⟩
    match (← place.path.metadata).type with
    | .other => return Entry.diskAt path (.ok (.other (← IO.FS.readBinFile place.path).toList))
    | type => return Entry.diskAt path (.ok (← readEntry place type))
  catch e => return Entry.diskAt path (.error (refusalOf e))

/-- Whether notices are to be coloured. -/
def wantsColour : IO Bool := do
  let term ← IO.getEnv "TERM"
  let refused ← IO.getEnv "NO_COLOR"
  return (← (← IO.getStderr).isTty) && term.isSome && term != some "dumb" && refused.isNone

end Packrat.Cli

open Packrat.Cli in
/-- Run the program. -/
def main (argv : List String) : IO UInt32 := do
  let disk ←
    match Args.read argv with
    | .ok args => readDisk args.command.path
    | .error e => do
      unless e = .versionWanted do IO.eprint e.message
      pure fun _ => .error .notFound
  let transcript := run disk argv
  let colour ← wantsColour
  for notice in transcript.notices do
    IO.eprint (notice.text colour)
    for line in notice.details do
      IO.eprintln line
  IO.print transcript.out
  return transcript.exit.toUInt32
