import EventAtlas.Sorted
import EventAtlas.Typing.Ty

/-!
# Sets of types

The possible types of an expression, listed in order of their names. Names that differ only in ASCII case are
one entry, and the spelling that came first stays. Adding a type that is already there changes one thing at
most: an entry declared nowhere takes over the declaration of the newcomer.
-/

namespace EventAtlas

/-- The types an expression may have, each under its name. -/
structure TypeSet where
  types : Sorted String Ty := {}
deriving Inhabited, Repr

namespace TypeSet

def empty : TypeSet := {}

/-- The name under which an entry of this name is kept: the same spelling if there is one, else the first that
differs from it in ASCII case only. -/
def keyOf? (s : TypeSet) (name : String) : Option String :=
  if s.types.contains name then some name
  else s.types.keys.find? (fun key => Text.sameLetters key name)

/-- Take over the declaration of `t` where there is none. -/
def bindDeclaration (t : Ty) (entry : Ty) : Ty :=
  if entry.declaration.isNone then { entry with declaration := t.declaration } else entry

def add (s : TypeSet) (t : Ty) : TypeSet :=
  match s.keyOf? t.name with
  | some key => ⟨s.types.adjust key (bindDeclaration t)⟩
  | none => ⟨s.types.insert t.name t⟩

/-- Adding `t` would make a new entry. -/
def lacks (s : TypeSet) (t : Ty) : Bool :=
  (s.keyOf? t.name).isNone

/-- The set of the types of a list, added from left to right. -/
def ofList (ts : List Ty) : TypeSet :=
  ts.foldl add empty

def singleton (t : Ty) : TypeSet :=
  empty.add t

def ofName (name : String) : TypeSet :=
  singleton (.named name)

/-- The set that says that nothing is known. -/
def unknown (origin : String) : TypeSet :=
  singleton (.unknown origin)

/-- The types in name order. -/
def toList (s : TypeSet) : List Ty :=
  s.types.values

def names (s : TypeSet) : List String :=
  s.types.keys

def size (s : TypeSet) : Nat :=
  s.types.size

def isEmpty (s : TypeSet) : Bool :=
  s.types.isEmpty

/-- The types of both sets; entries of the first set keep their spelling and contents. -/
def union (s t : TypeSet) : TypeSet :=
  t.toList.foldl add s

/-- The entry of this name, whatever its ASCII case. -/
def get? (s : TypeSet) (name : String) : Option Ty :=
  (s.keyOf? (Typing.normalize name)).bind s.types.find?

/-- There is an entry of this name, whatever its ASCII case. -/
def contains (s : TypeSet) (name : String) : Bool :=
  (s.keyOf? (Typing.normalize name)).isSome

/-- The entry of this name, whatever its ASCII case, and the set without it. -/
def remove (s : TypeSet) (name : String) : Option Ty × TypeSet :=
  match s.keyOf? (Typing.normalize name) with
  | some key => (s.types.find? key, ⟨s.types.erase key⟩)
  | none => (none, s)

/-- The types about which something is known. -/
def known (s : TypeSet) : TypeSet :=
  ofList (s.toList.filter fun t => !t.isUnknown)

def withoutNull (s : TypeSet) : TypeSet :=
  ofList (s.toList.filter fun t => !t.isNull)

/-- There is a type, and about none of them anything is known. -/
def isUnknown (s : TypeSet) : Bool :=
  !s.isEmpty && s.toList.all Ty.isUnknown

/-- The element types of the containers. -/
def elements (s : TypeSet) : TypeSet :=
  ofList (s.toList.filterMap Ty.element)

/-- The declared key types of the containers. -/
def keys (s : TypeSet) : TypeSet :=
  ofList (s.toList.filterMap Ty.key)

/-- As many types on both sides, and each name of the first set is in the second. -/
def same (s t : TypeSet) : Bool :=
  s.size == t.size && s.names.all t.contains

/-- The written form: the names with bars between them. -/
def display (s : TypeSet) : String :=
  if s.isEmpty then "\x7b\x7d" else Text.joinWith "|" s.names

/-- A set that should hold one type holds another number of them. -/
structure NotUnique where
  names : List String
deriving Repr

/-- What is said about a set that should hold one type. -/
def NotUnique.message (e : NotUnique) : String :=
  "expected exactly one type, found " ++ toString e.names.length ++ ": [" ++ Text.joinWith ", " e.names ++ "]"

def unique? (s : TypeSet) : Except NotUnique Ty :=
  match s.toList with
  | [t] => .ok t
  | _ => .error ⟨s.names⟩

end TypeSet

end EventAtlas
