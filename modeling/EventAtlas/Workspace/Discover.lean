import EventAtlas.Fault
import EventAtlas.Glob
import EventAtlas.Workspace.Disk

/-!
# Finding sources

The sources of a language are the files below a root with its extension, in order of their paths. Version control
and package directories are never entered, and globs leave out further paths. The root is looked up first, then all
globs are checked.
-/

namespace EventAtlas

/-- The languages that files are told apart by. -/
inductive Language where
  | php
  | unknown
deriving Inhabited, Repr, DecidableEq

namespace Language

def fileName? (path : String) : Option String :=
  match ((Text.splitAt '/' path).filter fun step => !step.isEmpty && step != ".").getLast? with
  | some ".." | none => none
  | some name => some name

/-- What follows the last dot of a file name; a dot at the start does not count. -/
def extension? (name : String) : Option String :=
  if name.toList.drop 1 |>.contains '.' then some (Text.afterLast '.' name) else none

/-- The language of a file by the extension of its name. -/
def ofPath (path : String) : Language :=
  match (fileName? path).bind extension? with
  | some "php" => php
  | _ => unknown

def spelling : Language → String
  | php => "php"
  | unknown => "unknown"

end Language

/-- What can go wrong when sources are looked for. -/
inductive DiscoveryError where
  | rootNotFound (path : String)
  | invalidGlob (pattern : String)
deriving Inhabited, Repr, DecidableEq

namespace DiscoveryError

def message : DiscoveryError → String
  | rootNotFound path => "source root not found: " ++ path
  | invalidGlob pattern => "invalid exclude pattern '" ++ pattern ++ "'"

def toFault : DiscoveryError → Fault
  | rootNotFound path => .fileNotFound path
  | e@(invalidGlob _) => .invalidArguments e.message none

end DiscoveryError

/-- The directories that are never entered. -/
def skippedDirectories : List String :=
  [".git", "node_modules"]

/-- Some step of the path is never taken. -/
def isSkipped (path : String) : Bool :=
  (Text.splitAt '/' path).any skippedDirectories.contains

def readGlobs : List String → Except DiscoveryError (List Glob)
  | [] => .ok []
  | pattern :: rest =>
    match Glob.parse? pattern with
    | some g => do return g :: (← readGlobs rest)
    | none => .error (.invalidGlob pattern)

namespace Disk

/-- The sources below a root by their paths from there, in order. -/
def discover (d : Disk) (root : String) (exclude : List String) (language : Language) :
    Except DiscoveryError (List (String × ByteArray)) :=
  match d.directory? root with
  | none => .error (.rootNotFound root)
  | some directory => do
    let globs ← readGlobs exclude
    let found := (d.filesBelow directory).filter fun (path, _) =>
      !isSkipped path && Language.ofPath path = language && !globs.any fun g => g.isMatch path
    return (Sorted.ofList found).entries

end Disk

end EventAtlas
