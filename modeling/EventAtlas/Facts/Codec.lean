import EventAtlas.Facts.Fact
import EventAtlas.Forest.Codec

/-!
# Facts as JSON
-/

namespace EventAtlas

def Origin.toJson (o : Origin) : Json :=
  .obj [("file", .str o.file), ("span", o.span.toJson)]

def Origin.ofJson? (j : Json) : Option Origin := do
  let r ← Json.Record.of? ["file", "span"] false j
  some { file := ← r.required "file" Json.asStr?, span := ← r.required "span" Span.ofJson? }

namespace Fact

/-- The fields of an event, if the fact names one. -/
def eventJson (event : String) : Json :=
  .obj [("fqn", .str event)]

/-- A fact with the names of its class and method fields. -/
def fieldsJson (f : Fact) (fqnField methodField : String) : Json :=
  .obj ([("kind", .str f.kind.spelling), (fqnField, .str f.fqn)]
    ++ Json.optionalField methodField (f.method?.map .str)
    ++ Json.optionalField "event" (f.event?.map eventJson)
    ++ Json.optionalField "origin" (f.origin?.map Origin.toJson))

def toJson (f : Fact) : Json :=
  match f with
  | dispatch .. => f.fieldsJson "dispatcher_fqn" "dispatcher_method"
  | _ => f.fieldsJson "fqn" "method"

def eventOfJson? (j : Json) : Option String := do
  let r ← Json.Record.of? ["fqn"] false j
  r.required "fqn" Json.asStr?

/-- Read a fact of the kinds that name a method and an event. -/
def methodFactOfJson? (fqnField methodField : String) (make : String → String → String → Option Origin → Fact)
    (j : Json) : Option Fact := do
  let r ← Json.Record.of? [fqnField, methodField, "event", "origin"] false j
  some (make (← r.required fqnField Json.asStr?) (← r.required methodField Json.asStr?)
    (← r.required "event" eventOfJson?) (← r.optionalDefault "origin" Origin.ofJson?))

def ofJson? (j : Json) : Option Fact :=
  match Json.tagged? "kind" j with
  | some ("use_case", body) => do
    let r ← Json.Record.of? ["fqn", "origin"] false body
    some (.useCase (← r.required "fqn" Json.asStr?) (← r.optionalDefault "origin" Origin.ofJson?))
  | some ("listener", body) => methodFactOfJson? "fqn" "method" .listener body
  | some ("subscriber", body) => methodFactOfJson? "fqn" "method" .subscriber body
  | some ("event_dispatch", body) => methodFactOfJson? "dispatcher_fqn" "dispatcher_method" .dispatch body
  | _ => none

end Fact

def Diagnostic.toJson (d : Diagnostic) : Json :=
  .obj ([("kind", .str d.kind.spelling), ("fqn", .str d.fqn)]
    ++ Json.optionalField "method" (d.method.map .str)
    ++ [("message", .str d.message)]
    ++ Json.optionalField "origin" (d.origin.map Origin.toJson))

end EventAtlas
