import EventAtlas.Component
import EventAtlas.Facts.Codec
import EventAtlas.Fault
import EventAtlas.Json.Printer

/-!
# Reports

What the program prints. Every report starts with its status and the version of its layout. Facts are grouped by
component; the groups stand in order of their names and the facts inside a group in the order of the fact set.
-/

namespace EventAtlas.Report

def schemaVersion : String := "1"

/-- A report: a status, the version and what is reported. -/
def envelope (status : String) (fields : List (String × Json)) : Json :=
  .obj ([("status", .str status), ("schema_version", .str schemaVersion)] ++ fields)

/-- The printed form of a report. -/
def emit (report : Json) : String :=
  report.pretty ++ "\n"

/-! ## Facts -/

def event (fqn : String) : Json :=
  .obj [("fqn", .str fqn), ("short_name", .str (Typing.shortName fqn))]

/-- The file and the line of an origin. -/
def place (o : Option Origin) : List (String × Json) :=
  Json.optionalField "file" (o.map fun o => .str o.file)
    ++ Json.optionalField "line" (o.map fun o => .nat o.span.line)

def fact (f : Fact) : Json :=
  .obj ([("kind", .str f.kind.spelling), ("fqn", .str f.fqn), ("short_name", .str f.shortName)]
    ++ Json.optionalField "method" (f.method?.map .str)
    ++ Json.optionalField "event" (f.event?.map event)
    ++ place f.origin?)

def diagnostic (d : Diagnostic) : Json :=
  .obj ([("kind", .str d.kind.spelling), ("fqn", .str d.fqn)]
    ++ Json.optionalField "method" (d.method.map .str)
    ++ [("message", .str d.message)]
    ++ place d.origin)

/-- The numbers of facts of each kind and of diagnostics. -/
structure Summary where
  useCases : Nat
  listeners : Nat
  subscribers : Nat
  dispatches : Nat
  skipped : Nat
deriving Inhabited, Repr, DecidableEq

def Summary.of (s : FactSet) : Summary where
  useCases := (s.ofKind .useCase).length
  listeners := (s.ofKind .listener).length
  subscribers := (s.ofKind .subscriber).length
  dispatches := (s.ofKind .dispatch).length
  skipped := s.diagnostics.length

def Summary.toJson (s : Summary) : Json :=
  .obj [("use_cases", .nat s.useCases), ("listeners", .nat s.listeners), ("subscribers", .nat s.subscribers),
    ("event_dispatches", .nat s.dispatches), ("skipped", .nat s.skipped)]

/-- The facts of a set by component, and those of no component. -/
structure Grouping where
  groups : Sorted String (List Fact) := {}
  unassigned : List Fact := []
deriving Inhabited, Repr

/-- Put one more fact into its group. -/
def Grouping.add (component : Fact → Option String) (g : Grouping) (f : Fact) : Grouping :=
  match component f with
  | some name => { g with groups := g.groups.insert name ((g.groups.find? name).getD [] ++ [f]) }
  | none => { g with unassigned := g.unassigned ++ [f] }

def Grouping.of (component : Fact → Option String) (s : FactSet) : Grouping :=
  s.toList.foldl (Grouping.add component) {}

def facts (component : Fact → Option String) (s : FactSet) : Json :=
  let grouping := Grouping.of component s
  envelope "ok"
    [("components", .arr (grouping.groups.entries.map fun (name, fs) =>
        .obj [("name", .str name), ("facts", .arr (fs.map fact))])),
      ("unassigned", .arr (grouping.unassigned.map fact)),
      ("diagnostics", .arr (s.diagnostics.map diagnostic)),
      ("summary", (Summary.of s).toJson)]

/-! ## Units and members -/

/-- A unit of an index: its name, its kind and its file. -/
structure UnitLine where
  fqn : String
  kind : String
  file : String
deriving Inhabited, Repr, DecidableEq

def index (files : Nat) (units : List UnitLine) (snapshot : Option String) : Json :=
  envelope "ok" ([("files", .nat files),
      ("units", .arr (units.map fun u =>
        .obj [("fqn", .str u.fqn), ("kind", .str u.kind), ("file", .str u.file)]))]
    ++ Json.optionalField "snapshot" (snapshot.map .str))

/-- The types of a member, or what went wrong. -/
structure MemberLine where
  member : String
  kind : String
  types : List String
  error : Option String := none
deriving Inhabited, Repr, DecidableEq

/-- The report on the members of a unit. -/
def types (fqn : String) (members : List MemberLine) : Json :=
  envelope "ok" [("fqn", .str fqn), ("short_name", .str (Typing.shortName fqn)),
    ("members", .arr (members.map fun m =>
      .obj ([("member", .str m.member), ("kind", .str m.kind), ("types", .strs m.types)]
        ++ Json.optionalField "error" (m.error.map .str))))]

/-! ## Faults -/

def fault (f : Fault) : Json :=
  envelope "error"
    [("error", .obj ([("code", .nat f.code), ("message", .str f.message)]
      ++ Json.optionalField "details" (f.details?.map Json.sortKeys)))]

end EventAtlas.Report
