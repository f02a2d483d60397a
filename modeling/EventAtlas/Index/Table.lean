import EventAtlas.Forest.Lowering
import EventAtlas.Index.Unit
import EventAtlas.Link.Reference
import EventAtlas.Workspace.Discover

/-!
# The index

The index is a linked forest with a table of its units. A file contributes the first class-like declaration at its top
level or in one of its namespaces; if an earlier file has contributed the same name, it contributes nothing. Names
are compared without leading separators and without regard to case.
-/

namespace EventAtlas

/-- What can go wrong when an index is made or asked. -/
inductive IndexError where
  | unitNotFound (fqn : String)
  | discovery (e : DiscoveryError)
  /-- A file that does not follow the grammar. -/
  | unparsable (path : String)
  | snapshotVersion (found : Nat)
  | malformedSnapshot
  /-- A snapshot that cannot be read or written. -/
  | snapshotFile
  | undecodableSnapshot
  | unlinkable (e : LinkError)
deriving Inhabited, Repr, DecidableEq

def snapshotVersion : Nat := 1

namespace IndexError

def message : IndexError → String
  | unitNotFound fqn => "unit not found: " ++ fqn
  | discovery e => e.message
  | unparsable path => "failed to parse " ++ path
  | snapshotVersion found =>
    "snapshot schema version " ++ toString found ++ " is not supported (expected "
      ++ toString EventAtlas.snapshotVersion ++ ")"
  | malformedSnapshot => "invalid snapshot"
  | snapshotFile => "snapshot I/O error"
  | undecodableSnapshot => "snapshot I/O error: stream did not contain valid UTF-8"
  | unlinkable e => e.message

def toFault : IndexError → Fault
  | unitNotFound fqn => .unitNotFound fqn
  | discovery e => e.toFault
  | unparsable path => .parse path ("syntax error in " ++ path)
  | e@(snapshotVersion _) | e@malformedSnapshot => .invalidArguments e.message none
  | e@snapshotFile | e@undecodableSnapshot | e@(unlinkable _) => .internal e.message

end IndexError

/-- A linked forest with its units. -/
structure Index where
  units : List ClassUnit := []
  forest : Forest := {}
deriving Inhabited, Repr

namespace Index

/-! ## Units of a forest -/

/-- The class-like declarations of a file, at its top level or in one of its namespaces. -/
def topLevel (f : Forest) (root : NodeId) : List NodeId :=
  (f.children root).flatMap fun c =>
    match f.kind c with
    | .namespaceDecl _ => f.childrenWhere c NodeKind.isClassLike
    | k => if k.isClassLike then [c] else []

/-- The unit that a file contributes if no earlier file has contributed its name. -/
def unitOf? (f : Forest) (file : SourceFile) : Option ClassUnit :=
  (topLevel f file.root).head?.bind fun node => ClassUnit.ofDeclaration? f node file.path

/-- The units without those whose name an earlier one has; `taken` are the keys of the earlier ones. -/
def distinctUnits (taken : List String) : List ClassUnit → List ClassUnit
  | [] => []
  | u :: rest =>
    if taken.contains u.key then distinctUnits taken rest else u :: distinctUnits (u.key :: taken) rest

/-- The units of a forest with qualified names. -/
def unitsOf (f : Forest) : List ClassUnit :=
  distinctUnits [] (f.files.filterMap (unitOf? f))

def declarationTable (units : List ClassUnit) : Sorted String NodeId :=
  Sorted.ofList (units.map fun u => (u.key, u.node))

/-! ## Making an index -/

/-- The index of forests that have not been linked, one for each file. -/
def ofForests (forests : List Forest) : Except IndexError Index := do
  let joined := forests.foldl Forest.absorb {}
  match joined.link fun named => declarationTable (unitsOf named) with
  | .error e => .error (.unlinkable e)
  | .ok (_, forest) => return ⟨unitsOf forest, forest⟩

/-- The forests of sources, one after the other; `skip` leaves out those that do not follow the grammar. -/
def parseAll (skip : Bool) : List (String × ByteArray) → Except IndexError (List Forest)
  | [] => .ok []
  | (path, source) :: rest =>
    match Forest.ofSource? path source with
    | some f => do return f :: (← parseAll skip rest)
    | none => if skip then parseAll skip rest else .error (.unparsable path)

/-- Making the index of sources breaks off: a name is refused when they are named. -/
def refusesNames (skip : Bool) (sources : List (String × ByteArray)) : Bool :=
  match parseAll skip sources with
  | .error _ => false
  | .ok forests =>
    match (forests.foldl Forest.absorb {}).linkParents with
    | .error _ => false
    | .ok linked => linked.resolveNames?.isNone

/-- The index of sources that stand in order of their paths. -/
def ofOrdered (skip : Bool) (sources : List (String × ByteArray)) : Except IndexError Index := do
  ofForests (← parseAll skip sources)

def ofSources (sources : List (String × ByteArray)) : Except IndexError Index :=
  ofOrdered false (sources.mergeSort fun a b => a.1 ≤ b.1)

/-- Making the index of the sources below a root breaks off. -/
def breaksOff (d : Disk) (root : String) (exclude : List String) (skip : Bool) : Bool :=
  match d.discover root exclude .php with
  | .ok sources => refusesNames skip sources
  | .error _ => false

def build (d : Disk) (root : String) (exclude : List String) (skip : Bool) : Except IndexError Index := do
  match d.discover root exclude .php with
  | .ok sources => ofOrdered skip sources
  | .error e => .error (.discovery e)

/-! ## Asking an index -/

/-- The unit of this name. Of several the last one counts. -/
def find? (x : Index) (fqn : String) : Option ClassUnit :=
  let key := Forest.declarationKey fqn
  x.units.reverse.find? fun u => u.key == key

/-- The unit of this name, or an error that names it without leading separators. -/
def get (x : Index) (fqn : String) : Except IndexError ClassUnit :=
  match x.find? fqn with
  | some u => .ok u
  | none => .error (.unitNotFound (Text.unrooted fqn))

/-- Whether there is a unit of this name. -/
def has (x : Index) (fqn : String) : Bool :=
  (x.find? fqn).isSome

/-- The declaration of the unit of this name. -/
def declaration? (x : Index) (fqn : String) : Option NodeId :=
  (x.find? fqn).map ClassUnit.node

def unitByNode? (x : Index) (node : NodeId) : Option ClassUnit :=
  x.units.reverse.find? fun u => u.node == node

/-- The unit that a node belongs to or declares. -/
def unitFor? (x : Index) (node : NodeId) : Option ClassUnit :=
  (x.forest.lineage node).findSome? x.unitByNode?

end Index

end EventAtlas
