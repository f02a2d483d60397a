import EventAtlas.Facts.Extraction
import EventAtlas.Index.Snapshot
import EventAtlas.Members

/-!
# Commands

A command makes an index, or reads one from a snapshot, and reports on it. What a command comes to is a value: a report,
and perhaps a file to be written before it is given. On a disk, a file that cannot be written makes the command fail and
leaves the disk as it was. A command that makes an index breaks off, without a report, where a name of the sources is
refused.
-/

namespace EventAtlas

/-- Where an index comes from. -/
inductive IndexSource where
  | root (path : String)
  | snapshot (path : String)
deriving Inhabited, Repr, DecidableEq

namespace IndexSource

def ofArguments (root snapshot : Option String) : Except Fault IndexSource :=
  match root, snapshot with
  | some path, none => .ok (.root path)
  | none, some path => .ok (.snapshot path)
  | some _, some _ => .error (.invalidArguments "pass either a source root or --snapshot, not both" none)
  | none, none => .error (.invalidArguments "a source root or --snapshot is required" none)

/-- The index from a source. Files are left out only when the sources are read. -/
def load (d : Disk) (exclude : List String) : IndexSource → Except Fault Index
  | root path =>
    match Index.build d path exclude false with
    | .ok x => .ok x
    | .error e => .error e.toFault
  | snapshot path =>
    if !d.pathExists path then .error (.fileNotFound path)
    else
      match d.read? path with
      | none => .error IndexError.snapshotFile.toFault
      | some content =>
        match Index.ofBytes content with
        | .ok x => .ok x
        | .error e => .error e.toFault

def breaksOff (d : Disk) (exclude : List String) : IndexSource → Bool
  | root path => Index.breaksOff d path exclude false
  | snapshot _ => false

end IndexSource

/-- What the program can be asked to do. -/
inductive Command where
  /-- List the units below a root, and write a snapshot. -/
  | index (root : String) (out : Option String) (exclude : List String)
  | facts (root snapshot : Option String) (config : String)
  /-- Show the types of the members of a unit, or of one method. -/
  | types (root snapshot : Option String) (fqn : String) (method : Option String) (exclude : List String)
deriving Inhabited, Repr, DecidableEq

/-- What a command comes to. -/
structure Outcome where
  report : Json
  /-- The path and the text of a file to be written first. -/
  file : Option (String × String) := none
deriving Inhabited, Repr

namespace Command

/-- The root whose files a command reads. -/
def root? : Command → Option String
  | index root .. => some root
  | facts root .. | types root .. => root

/-- The single files that a command reads. -/
def inputs : Command → List String
  | index .. => []
  | facts _ snapshot config => config :: snapshot.toList
  | types _ snapshot .. => snapshot.toList

def unitLine (u : ClassUnit) : Report.UnitLine :=
  ⟨u.fqn, u.kind.word, u.file⟩

/-- What a command comes to, as far as reading goes. -/
def evaluate (d : Disk) : Command → Except Fault Outcome
  | index root out exclude => do
    let x ← (IndexSource.root root).load d exclude
    return {
      report := Report.index x.forest.files.length (x.units.map unitLine) out
      file := out.map fun path => (path, x.toText) }
  | facts root snapshot path => do
    match Config.load d path with
    | .error e => .error e.toFault
    | .ok config =>
      let source ← IndexSource.ofArguments root snapshot
      let x ← source.load d config.exclude
      return { report := ← x.factsReport config }
  | types root snapshot fqn method exclude => do
    let source ← IndexSource.ofArguments root snapshot
    let x ← source.load d exclude
    return { report := ← x.typesReport fqn method }

/-- The command breaks off while it gets the index. -/
def breaksOff (d : Disk) : Command → Bool
  | index root _ exclude => (IndexSource.root root).breaksOff d exclude
  | facts root snapshot path =>
    match Config.load d path, IndexSource.ofArguments root snapshot with
    | .ok config, .ok source => source.breaksOff d config.exclude
    | _, _ => false
  | types root snapshot _ _ exclude =>
    match IndexSource.ofArguments root snapshot with
    | .ok source => source.breaksOff d exclude
    | .error _ => false

def run (c : Command) (d : Disk) : Except Fault Json × Disk :=
  match c.evaluate d with
  | .error e => (.error e, d)
  | .ok ⟨report, none⟩ => (.ok report, d)
  | .ok ⟨report, some (path, text)⟩ =>
    match d.write? path text.toUTF8 with
    | some written => (.ok report, written)
    | none => (.error IndexError.snapshotFile.toFault, d)

end Command

end EventAtlas
