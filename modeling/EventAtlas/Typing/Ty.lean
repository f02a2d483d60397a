import EventAtlas.Typing.Native

/-!
# Types

A type is known by its name. It may point at the node that declares it, and a container carries the type of
its elements and, if declared, of its keys. What could not be found out is a type too: it names the kind of
node at which the search ended.

Two types are the same if their names are, up to ASCII case; where a type points never matters for that.
-/

namespace EventAtlas

/-- The position of a node in the arena that holds it. -/
abbrev NodeId := Nat

/-- The written form of a node's position. -/
def NodeId.label (id : NodeId) : String :=
  "node_" ++ toString (id : Nat)

/-- One possible type of an expression. -/
structure Ty where
  name : String
  declaration : Option NodeId := none
  key : Option Ty := none
  element : Option Ty := none
  /-- The kind of node at which nothing was found, for the unknown type. -/
  origin : Option String := none
deriving Inhabited, Repr, BEq

namespace Ty

/-- The type of this name, declared nowhere. -/
def named (name : String) : Ty :=
  { name := Typing.normalize name }

def declared (name : String) (node : NodeId) : Ty :=
  { named name with declaration := some node }

/-- The type of an expression about which nothing is known. -/
def unknown (origin : String) : Ty :=
  { name := "unknown<" ++ origin ++ ">", origin := some origin }

def null : Ty :=
  named "null"

def arrayOf (element : Ty) : Ty :=
  { name := element.name ++ "[]", element := some element }

def mapOf (key element : Ty) : Ty :=
  { name := "array<" ++ key.name ++ "," ++ element.name ++ ">", key := some key, element := some element }

/-- The container `base` of `element`, keyed by `key` if that is given. It is declared where `base` is. -/
def generic (base : Ty) (key : Option Ty) (element : Ty) : Ty :=
  let args := match key with
    | some k => k.name ++ "," ++ element.name
    | none => element.name
  { name := base.name ++ "<" ++ args ++ ">", declaration := base.declaration, key, element := some element }

/-- The name without type arguments; every list is an `array`. -/
def baseName (t : Ty) : String :=
  let head := String.ofList (t.name.toList.takeWhile (· != '<'))
  if Text.endsWith "[]" head then "array" else head

def shortName (t : Ty) : String :=
  Typing.shortName t.name

/-- Nothing is known about the type. -/
def isUnknown (t : Ty) : Bool :=
  t.origin.isSome

/-- The type is native and no container. -/
def isNative (t : Ty) : Bool :=
  t.element.isNone && !t.isUnknown && Typing.isNative t.name

/-- The type is that of the null value. -/
def isNull (t : Ty) : Bool :=
  t.name == "null"

def withDeclaration (t : Ty) (node : NodeId) : Ty :=
  { t with declaration := some node }

/-- The two types have the same name up to ASCII case. -/
def same (a b : Ty) : Bool :=
  Text.sameLetters a.name b.name

/-- The order of types by name up to ASCII case. -/
def order (a b : Ty) : Ordering :=
  compare (Text.lower a.name) (Text.lower b.name)

end Ty

end EventAtlas
