import Packrat.Sorting
import Packrat.Text.Decoding
import Packrat.Text.Split
import Packrat.Text.Utf8

/-!
# Files and folders

A folder lists entries by name: files with their bytes, folders again, and what is neither. The
system may refuse to open a file or to list a folder. A disk answers what is found at a path; the
disk of a working folder follows the path from there, one component at a time, and refuses paths and
names that are too long. The modules under a folder are its files with the right extension, in the
order of their names, with the contents of a folder in the place of its name; links are not
followed, and a folder that cannot be listed ends the search.
-/

namespace Packrat.Cli

/-- Why an entry cannot be had. -/
inductive DiskError where
  /-- There is no such entry. -/
  | notFound
  /-- A path leads through a file. -/
  | notFolder
  /-- A folder was read like a file. -/
  | isFolder
  /-- The bytes of a file are not text. -/
  | notText
  /-- A path holds the character that ends a path for the system. -/
  | endMarkInPath
  /-- A path or a name in it has more bytes than the system takes. -/
  | tooLong
  /-- The user may not open the entry. -/
  | notPermitted
  /-- The system has another reason. -/
  | other (message : String)
deriving DecidableEq

/-- What the system says about an error. -/
def DiskError.message : DiskError → String
  | .notFound => "No such file or directory (os error 2)"
  | .notFolder => "Not a directory (os error 20)"
  | .isFolder => "Is a directory (os error 21)"
  | .notText => "stream did not contain valid UTF-8"
  | .endMarkInPath => "file name contained an unexpected NUL byte"
  | .tooLong => "File name too long (os error 36)"
  | .notPermitted => "Permission denied (os error 13)"
  | .other message => message

/-- What a name in a folder stands for. -/
inductive Entry where
  /-- A file, with its bytes. -/
  | file (bytes : List UInt8)
  /-- A folder, with its entries by name. -/
  | folder (entries : List (String × Entry))
  /-- A file that cannot be opened. -/
  | sealedFile (reason : DiskError)
  /-- A folder that cannot be listed. -/
  | sealedFolder (reason : DiskError)
  /-- Neither a file nor a folder, such as a link or a pipe, with the bytes that it gives when it is
  read. -/
  | other (bytes : List UInt8)

/-- What is found at a path. -/
abbrev Disk := String → Except DiskError Entry

namespace Entry

/-! ## Making folders -/

/-- The entry with the given name in a listing. -/
def listed? (entries : List (String × Entry)) (name : String) : Option Entry :=
  entries.lookup name

/-- A listing in which a name stands for the given entry. -/
def relist (entries : List (String × Entry)) (name : String) (e : Entry) :
    List (String × Entry) :=
  (name, e) :: entries.filter fun x => x.1 ≠ name

/-- Put an entry at a place below a folder, making the folders that lead there. A folder that is
put where one already stands leaves it as it is. -/
def put (below : Entry) : List String → Entry → Entry
  | [], e =>
    match below, e with
    | .folder entries, .folder _ => .folder entries
    | _, _ => e
  | name :: names, e =>
    let entries :=
      match below with
      | .folder entries => entries
      | _ => []
    .folder (relist entries name (put ((listed? entries name).getD (.folder [])) names e))

/-! ## Paths -/

/-- The components of a path. -/
def components (path : String) : List String :=
  (Text.split '/' path.toList).map String.ofList

/-- Whether a component stays where it is. -/
def staysPut (name : String) : Bool :=
  name = "" ∨ name = "."

/-- The most bytes that a name can have. -/
def nameLimit : Nat :=
  255

/-- The most bytes that a path can have. -/
def pathLimit : Nat :=
  4095

/-- What is wrong with a path whatever is on the disk. -/
def pathError? (path : String) : Option DiskError :=
  if path.toList.contains (Char.ofNat 0) then some .endMarkInPath
  else if pathLimit < Text.byteLength path.toList then some .tooLong
  else if path.isEmpty then some .notFound
  else none

/-- Put an entry where components lead to from a place below a folder, given by the names that lead
there, innermost first. A step back leaves a folder that has been made. -/
def putAlong (below : Entry) (place : List String) : List String → Entry → Entry
  | [], e => below.put place.reverse e
  | name :: names, e =>
    if staysPut name then putAlong below place names e
    else if name = ".." then putAlong (below.put place.reverse (.folder [])) place.tail names e
    else putAlong below (name :: place) names e

/-- Put an entry at a path below a folder, making the folders that lead there. -/
def putAt (below : Entry) (path : String) (e : Entry) : Entry :=
  putAlong below [] (components path) e

/-- Follow components from a folder, given the folders above it, innermost first. A link is the end
of it, like a file. -/
def follow : Entry → List Entry → List String → Except DiskError Entry
  | e, _, [] => .ok e
  | .file _, _, _ :: _ => .error .notFolder
  | .sealedFile _, _, _ :: _ => .error .notFolder
  | .other _, _, _ :: _ => .error .notFolder
  | .sealedFolder reason, _, _ :: _ => .error reason
  | .folder entries, above, name :: names =>
    if staysPut name then follow (.folder entries) above names
    else if name = ".." then
      match above with
      | parent :: above => follow parent above names
      | [] => .error .notFound
    else if nameLimit < Text.byteLength name.toList then .error .tooLong
    else
      match listed? entries name with
      | some e => follow e (.folder entries :: above) names
      | none => .error .notFound

/-- The disk seen from a working folder, with nothing outside it. -/
def disk (working : Entry) : Disk := fun path =>
  match pathError? path with
  | some e => .error e
  | none =>
    let outset := if path.toList.head? = some '/' then .folder [] else working
    follow outset [] (components path)

/-- The disk on which one entry is found at one path, and what is below it under longer ones. -/
def diskAt (place : String) (found : Except DiskError Entry) : Disk := fun path =>
  if path = place then found
  else if place.toList.isPrefixOf path.toList then
    found >>= fun e => follow e [] (components (String.ofList (path.toList.drop place.length)))
  else .error .notFound

/-! ## Finding modules -/

/-- The extension of a file name: what follows its last dot, unless nothing comes before it. -/
def extension? (name : String) : Option String :=
  let cs := name.toList.reverse
  match cs.dropWhile (· ≠ '.') with
  | _ :: _ :: _ => some (String.ofList (cs.takeWhile (· ≠ '.')).reverse)
  | _ => none

/-- The extension of modules. -/
def moduleExtension : String :=
  "thunk"

/-- A path with a name added to it. -/
def join (path name : String) : String :=
  if path.toList.getLast? = some '/' then path ++ name else path ++ "/" ++ name

/-- Order by name. -/
def byName {β : Type} (a b : String × β) : Bool :=
  !decide (b.1 < a.1)

/-- Whether an entry is a file, whether or not it can be opened. -/
def isFile : Entry → Bool
  | .file _ => true
  | .sealedFile _ => true
  | _ => false

/-- What a search comes to, part after part; the first part that cannot be searched ends it. -/
def inOrder : List (String × Except DiskError (List String)) → Except DiskError (List String)
  | [] => .ok []
  | (_, found) :: parts => do
    let here ← found
    let later ← inOrder parts
    return here ++ later

mutual

/-- The paths of the modules in an entry that is found under a path and a name. -/
def modulesIn (path name : String) : Entry → Except DiskError (List String)
  | .folder entries => inOrder (sortWith byName (modulesListed path entries))
  | .sealedFolder reason => .error reason
  | e => .ok (if e.isFile ∧ extension? name = some moduleExtension then [path] else [])

/-- The paths of the modules in each entry of a listing, with the entry's name. -/
def modulesListed (path : String) :
    List (String × Entry) → List (String × Except DiskError (List String))
  | [] => []
  | (name, e) :: entries => (name, modulesIn (join path name) name e) :: modulesListed path entries

end

/-! ## Reading -/

/-- The bytes that an entry gives when it is read. -/
def read : Entry → Except DiskError (List UInt8)
  | .file bytes => .ok bytes
  | .folder _ => .error .isFolder
  | .sealedFile reason => .error reason
  | .sealedFolder reason => .error reason
  | .other bytes => .ok bytes

/-- The text that bytes stand for. -/
def textOf (bytes : List UInt8) : Except DiskError String :=
  match Text.decode? bytes with
  | some text => .ok (String.ofList text)
  | none => .error .notText

end Entry

namespace Disk

/-- The text of the file at a path. -/
def readText (disk : Disk) (path : String) : Except DiskError String :=
  match disk path with
  | .error e => .error e
  | .ok e => e.read >>= Entry.textOf

/-- The modules at a path: the file itself, whatever its name, or those under the folder. -/
def modulesAt (disk : Disk) (path : String) : Except DiskError (List String) :=
  match disk path with
  | .error e => .error e
  | .ok e => if e.isFile then .ok [path] else e.modulesIn path ""

end Disk

end Packrat.Cli
