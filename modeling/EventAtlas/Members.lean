import EventAtlas.Inference.Resolver
import EventAtlas.Report

/-!
# Types of members

The members of a unit with their types: all properties, methods and constants, or one method with its parameters. One
session serves all of them, so they are asked for in a fixed order. A member whose types cannot be given is reported
with the reason.
-/

namespace EventAtlas

structure Member where
  label : String
  kind : String
  node : NodeId
deriving Inhabited, Repr, DecidableEq

namespace Member

/-- The property of a name that a unit declares. -/
def ofProperty? (f : Forest) (c : NodeId) (name : String) : Option Member :=
  (f.ownPropertiesNamed c name).head?.map fun node => ⟨"$" ++ name, "property", node⟩

def ofMethod? (f : Forest) (c : NodeId) (name : String) : Option Member :=
  (f.findMethod? c name).map fun node => ⟨name ++ "()", "method", node⟩

def ofConstant? (f : Forest) (c : NodeId) (name : String) : Option Member :=
  (f.findConstant? c name).map fun node => ⟨name, "constant", node⟩

def ofUnit (f : Forest) (u : ClassUnit) : List Member :=
  u.properties.filterMap (ofProperty? f u.node) ++ u.methods.filterMap (ofMethod? f u.node)
    ++ u.constants.filterMap (ofConstant? f u.node)

def withParameters (f : Forest) (method : Member) : List Member :=
  method :: (f.parameters method.node).map fun p => ⟨"$" ++ ((f.kind p).name?).getD "", "parameter", p⟩

def line (x : Index) (limit : Nat) (m : Member) : StateM Session Report.MemberLine := do
  match ← (x.resolve limit m.node).run with
  | .ok types => return { member := m.label, kind := m.kind, types := types.names }
  | .error e => return { member := m.label, kind := m.kind, types := [], error := some e.message }

/-- The types of members, one after the other. -/
def lines (x : Index) (limit : Nat) : List Member → StateM Session (List Report.MemberLine)
  | [] => return []
  | m :: rest => do
    let first ← line x limit m
    return first :: (← lines x limit rest)

end Member

/-- The report on the members of a unit, or on one method of it. -/
def Index.typesReport (x : Index) (fqn : String) (method : Option String) : Except Fault Json := do
  match x.get fqn with
  | .error e => .error e.toFault
  | .ok u =>
    let members ← match method with
      | none => .ok (Member.ofUnit x.forest u)
      | some name =>
        match Member.ofMethod? x.forest u.node name with
        | some m => .ok (m.withParameters x.forest)
        | none => .error (.resolution ("method " ++ u.fqn ++ "::" ++ name ++ " not found"))
    return Report.types u.fqn ((Member.lines x defaultMaxDepth members).run {}).1

end EventAtlas
