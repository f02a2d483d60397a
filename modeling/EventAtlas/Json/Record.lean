import EventAtlas.Json.Value
import EventAtlas.Sorted

/-!
# Records in JSON

A record is given as an object or, with its fields in their order, as an array. In an object a known field may
stand once only, and a field that is not known is ignored unless the record is closed. A map is an object in
which the last value of a repeated key counts.
-/

namespace EventAtlas.Json

/-- The fields found for a record. -/
structure Record where
  /-- The fields were given by position. -/
  positional : Bool
  fields : List (String × Json)

namespace Record

/-- Some name stands twice in the list. -/
def hasRepeat : List String → Bool
  | [] => false
  | n :: rest => rest.contains n || hasRepeat rest

/-- Read a record with the named fields. -/
def of? (known : List String) (closed : Bool) : Json → Option Record
  | .obj fields =>
    let mine := fields.filter fun f => known.contains f.1
    if hasRepeat (mine.map Prod.fst) then none
    else if closed && mine.length != fields.length then none
    else some ⟨false, mine⟩
  | .arr items => if items.length ≤ known.length then some ⟨true, known.zip items⟩ else none
  | _ => none

/-- The value of a field that must be there. -/
def required (r : Record) (name : String) (read : Json → Option α) : Option α :=
  (r.fields.lookup name).bind read

/-- The value of a field, or `default` if it is not there. -/
def defaulted (r : Record) (name : String) (default : α) (read : Json → Option α) : Option α :=
  match r.fields.lookup name with
  | some j => read j
  | none => some default

/-- The value of a field that may be null or, in an object, missing. -/
def optional (r : Record) (name : String) (read : Json → Option α) : Option (Option α) :=
  match r.fields.lookup name with
  | some .null => some none
  | some j => (read j).map some
  | none => if r.positional then none else some none

/-- The value of a field that may be null or missing. -/
def optionalDefault (r : Record) (name : String) (read : Json → Option α) : Option (Option α) :=
  match r.fields.lookup name with
  | some .null => some none
  | some j => (read j).map some
  | none => some none

end Record

def asStr? : Json → Option String
  | .str s => some s
  | _ => none

def asBool? : Json → Option Bool
  | .bool b => some b
  | _ => none

/-- A natural number below 2 ^ 32. -/
def asWord? : Json → Option Nat
  | .int n => if 0 ≤ n && n < 4294967296 then some n.toNat else none
  | _ => none

def asList? (read : Json → Option α) : Json → Option (List α)
  | .arr items => items.mapM read
  | _ => none

/-- A map from texts; the last value of a repeated key counts. -/
def asMap? (read : Json → Option α) : Json → Option (Sorted String α)
  | .obj fields => (fields.mapM fun f => (read f.2).map fun v => (f.1, v)).map Sorted.ofList
  | _ => none

/-- The name of an alternative without contents: a text, or an object with this one key and null. -/
def asVariant? : Json → Option String
  | .str s => some s
  | .obj [(s, .null)] => some s
  | _ => none

/-- The alternative that a field of an object names, and the object without that field. The field stands once. -/
def tagged? (tag : String) : Json → Option (String × Json)
  | .obj fields =>
    match fields.filter fun f => f.1 == tag with
    | [(_, .str name)] => some (name, .obj (fields.filter fun f => f.1 != tag))
    | _ => none
  | _ => none

end EventAtlas.Json
