import EventAtlas.Sorted
import EventAtlas.Text.Ascii

/-!
# Files and directories

The part of a file system that a run can see. Every file and directory has one name, its path from the top with single
slashes and none in front; the top itself has the empty name. A written path is followed step by step from the working
directory, or from the top if it starts with a slash. Every step but the last must lead to a directory.
-/

namespace EventAtlas

/-- Files and directories, and the directory in which paths start. -/
structure Disk where
  files : Sorted String ByteArray := {}
  /-- The directories, the top apart. -/
  directories : Sorted String Unit := {}
  working : String := ""

instance : Inhabited Disk := ⟨{}⟩

namespace Disk

def join (directory entry : String) : String :=
  if directory.isEmpty then entry else directory ++ "/" ++ entry

/-- The directory that holds what is named; the top holds itself. -/
def parentOf (name : String) : String :=
  match Text.dropRight (· != '/') name with
  | "" => ""
  | slashed => Text.dropRight (· == '/') slashed

def isDirectory (d : Disk) (name : String) : Bool :=
  name.isEmpty || d.directories.contains name

def isFile (d : Disk) (name : String) : Bool :=
  d.files.contains name

/-- The disk with a directory and those that it is in; `n` bounds their number. -/
def addDirectory (d : Disk) : Nat → String → Disk
  | 0, _ => d
  | n + 1, name =>
    if name.isEmpty then d
    else addDirectory { d with directories := d.directories.insert name () } n (parentOf name)

/-- The disk with a file, or with a directory if the path ends with a slash, and the directories it is in. -/
def add (d : Disk) (path : String) (content : ByteArray) : Disk :=
  if Text.endsWith "/" path then
    addDirectory d (path.length + 1) (Text.dropRight (· == '/') path)
  else
    addDirectory { d with files := d.files.insert path content } (path.length + 1) (parentOf path)

/-- The disk with these files and directories. -/
def ofList (entries : List (String × ByteArray)) : Disk :=
  entries.foldl (fun d e => d.add e.1 e.2) {}

/-- Why a path leads nowhere. -/
inductive Miss where
  | absent
  /-- A file stands where the path needs a directory. -/
  | notDirectory
deriving Inhabited, Repr, DecidableEq

/-- Follow the steps of a path from a place. -/
def follow (d : Disk) : List String → String → Except Miss String
  | [], place => .ok place
  | step :: rest, place =>
    if !d.isDirectory place then .error .notDirectory
    else if step.isEmpty || step == "." then follow d rest place
    else if step == ".." then follow d rest (parentOf place)
    else
      let next := join place step
      if d.isDirectory next || d.isFile next then follow d rest next else .error .absent

/-- The name of what a path leads to. -/
def locate (d : Disk) (path : String) : Except Miss String :=
  if path.isEmpty then .error .absent
  else d.follow (Text.splitAt '/' path) (if Text.startsWith "/" path then "" else d.working)

/-- The name of what a path leads to, if it leads somewhere. -/
def locate? (d : Disk) (path : String) : Option String :=
  (d.locate path).toOption

/-- A path leads to something. -/
def pathExists (d : Disk) (path : String) : Bool :=
  (d.locate? path).isSome

/-- The name of the directory that a path leads to. -/
def directory? (d : Disk) (path : String) : Option String :=
  (d.locate? path).filter d.isDirectory

/-- The content of the file that a path leads to. -/
def read? (d : Disk) (path : String) : Option ByteArray :=
  (d.locate? path).bind d.files.find?

/-- The files below a directory by their paths from there. -/
def filesBelow (d : Disk) (directory : String) : List (String × ByteArray) :=
  d.files.entries.filterMap fun (name, content) =>
    if directory.isEmpty then some (name, content)
    else (Text.strip? (directory ++ "/") name).map fun rest => (rest, content)

/-- The disk after a file was written; nothing if the directory is missing or a directory is in the way. -/
def write? (d : Disk) (path : String) (content : ByteArray) : Option Disk :=
  let place := Text.dropRight (· != '/') path
  let entry := Text.afterLast '/' path
  if entry.isEmpty || entry == "." || entry == ".." then none
  else
    match d.directory? (if place.isEmpty then "." else place) with
    | none => none
    | some directory =>
      let name := join directory entry
      if d.isDirectory name then none else some { d with files := d.files.insert name content }

end Disk

end EventAtlas
