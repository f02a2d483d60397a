import EventAtlas.Forest.Codec
import EventAtlas.Hierarchy

/-!
# Units

A unit is a class, an interface or a trait of the index, with the names of its supertypes and members. Supertypes are
named in full and may lie outside of the index.
-/

namespace EventAtlas

inductive UnitKind where
  | classUnit
  | interfaceUnit
  | traitUnit
deriving Inhabited, Repr, DecidableEq

namespace UnitKind

def word : UnitKind → String
  | classUnit => "class"
  | interfaceUnit => "interface"
  | traitUnit => "trait"

def ofJson? (j : Json) : Option UnitKind := do
  let w ← Json.asVariant? j
  [classUnit, interfaceUnit, traitUnit].find? fun k => k.word == w

def ofNode? : NodeKind → Option UnitKind
  | .classDecl .. => some classUnit
  | .interfaceDecl _ => some interfaceUnit
  | .traitDecl _ => some traitUnit
  | _ => none

end UnitKind

/-- A class, an interface or a trait of the index. -/
structure ClassUnit where
  fqn : String := ""
  kind : UnitKind := .classUnit
  node : NodeId := 0
  file : String := ""
  /-- The class that a class extends. -/
  parent : Option String := none
  /-- The interfaces that a class implements or an interface extends. -/
  interfaces : List String := []
  traits : List String := []
  /-- The properties, those that the constructor declares too. -/
  properties : List String := []
  methods : List String := []
  constants : List String := []
  isAbstract : Bool := false
deriving Inhabited, Repr, DecidableEq

namespace ClassUnit

def memberNames (f : Forest) (node : NodeId) (p : NodeKind → Bool) : List String :=
  ((f.members node).filter fun m => p (f.kind m)).filterMap fun m => (f.kind m).name?

def isConstant : NodeKind → Bool
  | .classConstant _ => true
  | _ => false

def isAbstractKind : NodeKind → Bool
  | .classDecl _ m => m.isAbstract
  | _ => false

/-- The unit of a declaration that has a qualified name. -/
def ofDeclaration? (f : Forest) (node : NodeId) (file : String) : Option ClassUnit := do
  let fqn ← (f.node node).resolvedName
  let kind ← UnitKind.ofNode? (f.kind node)
  some {
    fqn, kind, node, file
    parent := if kind = .classUnit then (f.namesOf (f.namesWithRole node .extends)).head? else none
    interfaces := f.namesOf (f.interfaceNameNodes node)
    traits := f.namesOf (f.traitNameNodes node)
    properties := (f.ownProperties node).filterMap fun p => (f.kind p).name?
    methods := memberNames f node NodeKind.isMethod
    constants := memberNames f node isConstant
    isAbstract := isAbstractKind (f.kind node) }

def key (u : ClassUnit) : String :=
  Text.lower (Text.unrooted u.fqn)

def toJson (u : ClassUnit) : Json :=
  .obj [("fqn", .str u.fqn), ("kind", .str u.kind.word), ("node", .nat u.node), ("file", .str u.file),
    ("parent", .strOrNull u.parent), ("interfaces", .strs u.interfaces), ("traits", .strs u.traits),
    ("properties", .strs u.properties), ("methods", .strs u.methods), ("constants", .strs u.constants),
    ("is_abstract", .bool u.isAbstract)]

/-- The fields of a unit in JSON. -/
def fieldNames : List String :=
  ["fqn", "kind", "node", "file", "parent", "interfaces", "traits", "properties", "methods", "constants",
    "is_abstract"]

def ofJson? (j : Json) : Option ClassUnit := do
  let r ← Json.Record.of? fieldNames false j
  let names (field : String) : Option (List String) := r.required field (Json.asList? Json.asStr?)
  some {
    fqn := ← r.required "fqn" Json.asStr?
    kind := ← r.required "kind" UnitKind.ofJson?
    node := ← r.required "node" Json.asWord?
    file := ← r.required "file" Json.asStr?
    parent := ← r.optional "parent" Json.asStr?
    interfaces := ← names "interfaces"
    traits := ← names "traits"
    properties := ← names "properties"
    methods := ← names "methods"
    constants := ← names "constants"
    isAbstract := ← r.required "is_abstract" Json.asBool? }

end ClassUnit

end EventAtlas
