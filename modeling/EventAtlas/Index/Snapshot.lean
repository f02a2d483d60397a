import EventAtlas.Index.Table
import EventAtlas.Json.Printer
import EventAtlas.Json.Reader

/-!
# Snapshots

An index is kept as JSON with a version. The version is read first: a document of another version is refused whatever
else it holds.
-/

namespace EventAtlas.Index

def toJson (x : Index) : Json :=
  .obj [("schema_version", .nat snapshotVersion), ("units", .arr (x.units.map ClassUnit.toJson)),
    ("forest", x.forest.toJson)]

def versionOf? (j : Json) : Option Nat := do
  let r ← Json.Record.of? ["schema_version"] false j
  r.required "schema_version" Json.asWord?

/-- The units and the forest of a document. -/
def contentsOf? (j : Json) : Option Index := do
  let r ← Json.Record.of? ["units", "forest"] false j
  some ⟨← r.required "units" (Json.asList? ClassUnit.ofJson?), ← r.required "forest" Forest.ofJson?⟩

def ofJson (j : Json) : Except IndexError Index :=
  match versionOf? j with
  | none => .error .malformedSnapshot
  | some version =>
    if version ≠ snapshotVersion then .error (.snapshotVersion version)
    else match contentsOf? j with
      | some x => .ok x
      | none => .error .malformedSnapshot

def ofText (text : String) : Except IndexError Index :=
  match Json.parse? text with
  | some j => ofJson j
  | none => .error .malformedSnapshot

def ofBytes (content : ByteArray) : Except IndexError Index :=
  match String.fromUTF8? content with
  | some text => ofText text
  | none => .error .undecodableSnapshot

def toText (x : Index) : String :=
  x.toJson.compact

end EventAtlas.Index
