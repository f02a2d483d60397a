import EventAtlas.Json.Record
import EventAtlas.Typing.TypeSet

/-!
# Types as JSON
-/

namespace EventAtlas

namespace Ty

/-- The JSON form of a type: its name and what else is set. -/
def toJson : Ty → Json
  | ⟨name, declaration, key, element, origin⟩ =>
    .obj ([("name", .str name)]
      ++ Json.optionalField "declaration" (declaration.map .nat)
      ++ Json.optionalField "key" (partJson key)
      ++ Json.optionalField "element" (partJson element)
      ++ Json.optionalField "unknown_origin" (origin.map .str))
where
  /-- The JSON form of a key or element type. -/
  partJson : Option Ty → Option Json
    | some t => some t.toJson
    | none => none

/-- A type from JSON of at most this depth. -/
def ofJsonAt? : Nat → Json → Option Ty
  | 0, _ => none
  | depth + 1, j => do
    let r ← Json.Record.of? ["name", "declaration", "key", "element", "unknown_origin"] false j
    some {
      name := ← r.required "name" Json.asStr?
      declaration := ← r.optionalDefault "declaration" Json.asWord?
      key := ← r.optionalDefault "key" (ofJsonAt? depth)
      element := ← r.optionalDefault "element" (ofJsonAt? depth)
      origin := ← r.optionalDefault "unknown_origin" Json.asStr? }

def ofJson? (j : Json) : Option Ty :=
  ofJsonAt? j.depth j

end Ty

namespace TypeSet

/-- The JSON form of a set: its entries by name. -/
def toJson (s : TypeSet) : Json :=
  .obj [("types", .obj (s.types.entries.map fun (k, t) => (k, t.toJson)))]

def ofJson? (j : Json) : Option TypeSet := do
  let r ← Json.Record.of? ["types"] false j
  some ⟨← r.required "types" (Json.asMap? Ty.ofJson?)⟩

end TypeSet

end EventAtlas
