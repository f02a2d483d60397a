import EventAtlas.Forest.Arena
import EventAtlas.Json.Record

/-!
# Forests as JSON

The kind of a node is an object whose field `type` names it. Links that are not set are left out, as are modifiers
that are not given.
-/

namespace EventAtlas

namespace Span

/-- The JSON form of a place. -/
def toJson (s : Span) : Json :=
  .obj [("start", .nat s.start), ("end", .nat s.stop), ("line", .nat s.line)]

def ofJson? (j : Json) : Option Span := do
  let r ← Json.Record.of? ["start", "end", "line"] false j
  some ⟨← r.required "start" Json.asWord?, ← r.required "end" Json.asWord?, ← r.required "line" Json.asWord?⟩

end Span

namespace Visibility

def word : Visibility → String
  | isPublic => "public"
  | isProtected => "protected"
  | isPrivate => "private"

def ofWord? (w : String) : Option Visibility :=
  [isPublic, isProtected, isPrivate].find? fun v => v.word == w

def ofJson? (j : Json) : Option Visibility :=
  (Json.asVariant? j).bind ofWord?

end Visibility

namespace Modifiers

/-- A flag that is written only if it is set. -/
def flag (name : String) (b : Bool) : List (String × Json) :=
  if b then [(name, .bool true)] else []

def toJson (m : Modifiers) : Json :=
  .obj ([("visibility", .str m.visibility.word)]
    ++ flag "is_static" m.isStatic
    ++ flag "is_abstract" m.isAbstract
    ++ flag "is_final" m.isFinal
    ++ flag "is_readonly" m.isReadonly)

def ofJson? (j : Json) : Option Modifiers := do
  let r ← Json.Record.of? ["visibility", "is_static", "is_abstract", "is_final", "is_readonly"] false j
  some {
    visibility := ← r.required "visibility" Visibility.ofJson?
    isStatic := ← r.defaulted "is_static" false Json.asBool?
    isAbstract := ← r.defaulted "is_abstract" false Json.asBool?
    isFinal := ← r.defaulted "is_final" false Json.asBool?
    isReadonly := ← r.defaulted "is_readonly" false Json.asBool? }

end Modifiers

namespace NameRole

def all : List NameRole :=
  [.classRef, .typeHint, .extends, .implements, .traitUse, .function, .constant]

def word : NameRole → String
  | .classRef => "class"
  | .typeHint => "type_hint"
  | .extends => "extends"
  | .implements => "implements"
  | .traitUse => "trait_use"
  | .function => "function"
  | .constant => "constant"

def ofWord? (w : String) : Option NameRole :=
  all.find? fun r => r.word == w

def ofJson? (j : Json) : Option NameRole :=
  (Json.asVariant? j).bind ofWord?

end NameRole

namespace ImportKind

def word : ImportKind → String
  | classLike => "class"
  | function => "function"
  | constant => "constant"

def ofWord? (w : String) : Option ImportKind :=
  [classLike, function, constant].find? fun k => k.word == w

def ofJson? (j : Json) : Option ImportKind :=
  (Json.asVariant? j).bind ofWord?

end ImportKind

namespace LiteralKind

def ofJson? (j : Json) : Option LiteralKind := do
  let w ← Json.asVariant? j
  [int, float, string, bool, null].find? fun k => k.typeName == w

end LiteralKind

namespace NodeKind

/-- The word for a kind and the fields it carries. -/
def encoded : NodeKind → String × List (String × Json)
  | file => ("file", [])
  | namespaceDecl n => ("namespace", [("name", .str n)])
  | importDecl kind n localName =>
    ("use", [("kind", .str kind.word), ("name", .str n), ("alias", .str localName)])
  | block => ("block", [])
  | returnStmt => ("return", [])
  | expressionStatement => ("expression_statement", [])
  | foreach hasKey => ("foreach", [("has_key", .bool hasKey)])
  | catchClause => ("catch", [])
  | staticVariable n => ("static_variable", [("name", .str n)])
  | docComment text => ("doc_comment", [("text", .str text)])
  | controlFlow rule => ("control_flow", [("ts_kind", .str rule)])
  | classDecl n modifiers => ("class", [("name", .str n), ("modifiers", modifiers.toJson)])
  | interfaceDecl n => ("interface", [("name", .str n)])
  | traitDecl n => ("trait", [("name", .str n)])
  | traitUse => ("trait_use", [])
  | method n modifiers => ("method", [("name", .str n), ("modifiers", modifiers.toJson)])
  | function n => ("function", [("name", .str n)])
  | property n modifiers => ("property", [("name", .str n), ("modifiers", modifiers.toJson)])
  | parameter n variadic byRef promoted =>
    ("parameter", [("name", .str n), ("variadic", .bool variadic), ("by_ref", .bool byRef),
      ("promoted", .ofOption (promoted.map Modifiers.toJson))])
  | classConstant n => ("class_constant", [("name", .str n)])
  | nullableType => ("nullable_type", [])
  | unionType => ("union_type", [])
  | intersectionType => ("intersection_type", [])
  | name text role => ("name", [("text", .str text), ("role", .str role.word)])
  | var n => ("variable", [("name", .str n)])
  | assign byRef => ("assign", [("by_ref", .bool byRef)])
  | compoundAssign op => ("compound_assign", [("op", .str op)])
  | new => ("new", [])
  | methodCall n nullsafe => ("method_call", [("name", .str n), ("nullsafe", .bool nullsafe)])
  | staticCall n => ("static_call", [("name", .str n)])
  | functionCall => ("function_call", [])
  | argument n unpack => ("argument", [("name", .strOrNull n), ("unpack", .bool unpack)])
  | propertyFetch n nullsafe => ("property_fetch", [("name", .str n), ("nullsafe", .bool nullsafe)])
  | staticPropertyFetch n => ("static_property_fetch", [("name", .str n)])
  | classConstantFetch n => ("class_constant_fetch", [("name", .str n)])
  | ternary short => ("ternary", [("short", .bool short)])
  | coalesce => ("coalesce", [])
  | binary op => ("binary", [("op", .str op)])
  | unary op => ("unary", [("op", .str op)])
  | cast target => ("cast", [("target", .str target)])
  | literal kind => ("literal", [("kind", .str kind.typeName)])
  | arrayLiteral => ("array_literal", [])
  | arrayAccess => ("array_access", [])
  | clone => ("clone", [])
  | matchExpr => ("match", [])
  | matchArm isDefault => ("match_arm", [("default", .bool isDefault)])
  | closure isStatic => ("closure", [("is_static", .bool isStatic)])
  | arrowFunction => ("arrow_function", [])
  | instanceof => ("instanceof", [])
  | listDestructure => ("list_destructure", [])
  | other rule => ("other", [("ts_kind", .str rule)])

def toJson (k : NodeKind) : Json :=
  let (tag, fields) := k.encoded
  .obj (("type", .str tag) :: fields)

/-- The kinds that carry nothing. -/
def plain : List NodeKind :=
  [file, block, returnStmt, expressionStatement, catchClause, traitUse, nullableType, unionType, intersectionType,
    new, functionCall, coalesce, arrayLiteral, arrayAccess, clone, matchExpr, arrowFunction, instanceof,
    listDestructure]

def withText? (field : String) (make : String → NodeKind) (j : Json) : Option NodeKind := do
  let r ← Json.Record.of? [field] false j
  return make (← r.required field Json.asStr?)

def withFlag? (field : String) (make : Bool → NodeKind) (j : Json) : Option NodeKind := do
  let r ← Json.Record.of? [field] false j
  return make (← r.required field Json.asBool?)

def withModifiers? (make : String → Modifiers → NodeKind) (j : Json) : Option NodeKind := do
  let r ← Json.Record.of? ["name", "modifiers"] false j
  return make (← r.required "name" Json.asStr?) (← r.required "modifiers" Modifiers.ofJson?)

/-- A kind with a name and a flag for calls that pass over null. -/
def withNullsafe? (make : String → Bool → NodeKind) (j : Json) : Option NodeKind := do
  let r ← Json.Record.of? ["name", "nullsafe"] false j
  return make (← r.required "name" Json.asStr?) (← r.required "nullsafe" Json.asBool?)

def importOf? (j : Json) : Option NodeKind := do
  let r ← Json.Record.of? ["kind", "name", "alias"] false j
  return importDecl (← r.required "kind" ImportKind.ofJson?) (← r.required "name" Json.asStr?)
    (← r.required "alias" Json.asStr?)

def parameterOf? (j : Json) : Option NodeKind := do
  let r ← Json.Record.of? ["name", "variadic", "by_ref", "promoted"] false j
  return parameter (← r.required "name" Json.asStr?) (← r.required "variadic" Json.asBool?)
    (← r.required "by_ref" Json.asBool?) (← r.optional "promoted" Modifiers.ofJson?)

def nameOf? (j : Json) : Option NodeKind := do
  let r ← Json.Record.of? ["text", "role"] false j
  return name (← r.required "text" Json.asStr?) (← r.required "role" NameRole.ofJson?)

def argumentOf? (j : Json) : Option NodeKind := do
  let r ← Json.Record.of? ["name", "unpack"] false j
  return argument (← r.optional "name" Json.asStr?) (← r.required "unpack" Json.asBool?)

def literalOf? (j : Json) : Option NodeKind := do
  let r ← Json.Record.of? ["kind"] false j
  return literal (← r.required "kind" LiteralKind.ofJson?)

/-- A kind from its word and the object that holds its fields. -/
def decoded? (tag : String) (j : Json) : Option NodeKind :=
  match tag with
  | "namespace" => withText? "name" namespaceDecl j
  | "use" => importOf? j
  | "foreach" => withFlag? "has_key" foreach j
  | "static_variable" => withText? "name" staticVariable j
  | "doc_comment" => withText? "text" docComment j
  | "control_flow" => withText? "ts_kind" controlFlow j
  | "class" => withModifiers? classDecl j
  | "interface" => withText? "name" interfaceDecl j
  | "trait" => withText? "name" traitDecl j
  | "method" => withModifiers? method j
  | "function" => withText? "name" function j
  | "property" => withModifiers? property j
  | "parameter" => parameterOf? j
  | "class_constant" => withText? "name" classConstant j
  | "name" => nameOf? j
  | "variable" => withText? "name" var j
  | "assign" => withFlag? "by_ref" assign j
  | "compound_assign" => withText? "op" compoundAssign j
  | "method_call" => withNullsafe? methodCall j
  | "static_call" => withText? "name" staticCall j
  | "argument" => argumentOf? j
  | "property_fetch" => withNullsafe? propertyFetch j
  | "static_property_fetch" => withText? "name" staticPropertyFetch j
  | "class_constant_fetch" => withText? "name" classConstantFetch j
  | "ternary" => withFlag? "short" ternary j
  | "binary" => withText? "op" binary j
  | "unary" => withText? "op" unary j
  | "cast" => withText? "target" cast j
  | "literal" => literalOf? j
  | "match_arm" => withFlag? "default" matchArm j
  | "closure" => withFlag? "is_static" closure j
  | "other" => withText? "ts_kind" other j
  | _ => plain.find? fun k => k.encoded.1 == tag

def ofJson? (j : Json) : Option NodeKind := do
  let (tag, fields) ← Json.tagged? "type" j
  decoded? tag fields

end NodeKind

namespace Node

def toJson (n : Node) : Json :=
  .obj ([("kind", n.kind.toJson), ("span", n.span.toJson)]
    ++ (if n.children.isEmpty then [] else [("children", .arr (n.children.map .nat))])
    ++ Json.optionalField "parent" (n.parent.map .nat)
    ++ Json.optionalField "resolved_name" (n.resolvedName.map .str)
    ++ Json.optionalField "declaration" (n.declaration.map .nat))

def ofJson? (j : Json) : Option Node := do
  let r ← Json.Record.of? ["kind", "span", "children", "parent", "resolved_name", "declaration"] false j
  some {
    kind := ← r.required "kind" NodeKind.ofJson?
    span := ← r.required "span" Span.ofJson?
    children := ← r.defaulted "children" [] (Json.asList? Json.asWord?)
    parent := ← r.optionalDefault "parent" Json.asWord?
    resolvedName := ← r.optionalDefault "resolved_name" Json.asStr?
    declaration := ← r.optionalDefault "declaration" Json.asWord? }

end Node

namespace NameScope

def tableJson (m : Sorted String String) : Json :=
  .obj (m.entries.map fun e => (e.1, .str e.2))

def toJson (s : NameScope) : Json :=
  .obj [("node", .nat s.node), ("namespace", .str s.current), ("classes", tableJson s.classes),
    ("functions", tableJson s.functions), ("constants", tableJson s.constants)]

def ofJson? (j : Json) : Option NameScope := do
  let r ← Json.Record.of? ["node", "namespace", "classes", "functions", "constants"] false j
  some {
    node := ← r.required "node" Json.asWord?
    current := ← r.required "namespace" Json.asStr?
    classes := ← r.defaulted "classes" {} (Json.asMap? Json.asStr?)
    functions := ← r.defaulted "functions" {} (Json.asMap? Json.asStr?)
    constants := ← r.defaulted "constants" {} (Json.asMap? Json.asStr?) }

end NameScope

namespace SourceFile

def toJson (f : SourceFile) : Json :=
  .obj [("path", .str f.path), ("content_hash", .str f.contentHash), ("root", .nat f.root)]

def ofJson? (j : Json) : Option SourceFile := do
  let r ← Json.Record.of? ["path", "content_hash", "root"] false j
  some ⟨← r.required "path" Json.asStr?, ← r.required "content_hash" Json.asStr?, ← r.required "root" Json.asWord?⟩

end SourceFile

namespace Forest

def toJson (f : Forest) : Json :=
  .obj [("nodes", .arr (f.nodes.toList.map Node.toJson)), ("files", .arr (f.files.map SourceFile.toJson)),
    ("name_scopes", .arr (f.nameScopes.map NameScope.toJson))]

def ofJson? (j : Json) : Option Forest := do
  let r ← Json.Record.of? ["nodes", "files", "name_scopes"] false j
  some {
    nodes := (← r.required "nodes" (Json.asList? Node.ofJson?)).toArray
    files := ← r.required "files" (Json.asList? SourceFile.ofJson?)
    nameScopes := ← r.required "name_scopes" (Json.asList? NameScope.ofJson?) }

end Forest

end EventAtlas
