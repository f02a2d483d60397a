import EventAtlas.Facts.Fact

/-!
# Components

Directories belong to named components. A directory owns itself and every path below it, and of several owners
of a path the one with the longest name decides.
-/

namespace EventAtlas

/-- Directories with the components that they belong to, in the order in which they became known. -/
structure ComponentMap where
  entries : List (String × String) := []
deriving Inhabited, Repr, DecidableEq

namespace ComponentMap

def empty : ComponentMap := {}

/-- A directory with slashes for backslashes, without leading `./` and without slashes at its end. -/
def directory (written : String) : String :=
  let slashed := String.ofList (written.toList.map fun c => if c = '\\' then '/' else c)
  Text.dropRight (· == '/') (Text.stripMany "./" slashed)

/-- Give `directory` to `name`, over what it belonged to before. -/
def insertEntry (directory name : String) : List (String × String) → List (String × String)
  | [] => [(directory, name)]
  | (d, n) :: rest =>
    if d == directory then (d, name) :: rest else (d, n) :: insertEntry directory name rest

/-- The map in which the directory belongs to `name`. -/
def insert (m : ComponentMap) (written name : String) : ComponentMap :=
  ⟨insertEntry (directory written) name m.entries⟩

def size (m : ComponentMap) : Nat :=
  m.entries.length

def isEmpty (m : ComponentMap) : Bool :=
  m.entries.isEmpty

/-- The directory is the path or one of its leading directories; the empty directory holds every path. -/
def owns (directory path : String) : Bool :=
  directory.isEmpty || path == directory
    || ((Text.strip? directory path).map (Text.startsWith "/")).getD false

/-- The entry whose directory has the most bytes; of equals, the last. -/
def longest? : List (String × String) → Option (String × String)
  | [] => none
  | e :: rest =>
    match longest? rest with
    | none => some e
    | some l => if e.1.utf8ByteSize ≤ l.1.utf8ByteSize then some l else some e

def ownerOf? (m : ComponentMap) (path : String) : Option String :=
  let plain := Text.stripMany "./" path
  (longest? (m.entries.filter fun e => owns e.1 plain)).map Prod.snd

/-- The component that a fact belongs to, by the file it was found in. -/
def componentOf? (m : ComponentMap) (f : Fact) : Option String :=
  f.origin?.bind fun o => m.ownerOf? o.file

end ComponentMap

end EventAtlas
