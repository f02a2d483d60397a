import EventAtlas.Inference.Classes
import EventAtlas.Inference.Strategy

/-!
# Properties

The methods of a class are searched for writes to its own properties. Each write is handed to the first declaration of
the property in the class; writes to properties that the class does not declare stay with the class. This happens
once for a class, before one of its properties is resolved.

A property has the types of its declaration, its documentation, its default and the values written to it. Access to a
property of an object gathers what its class, its traits and its parents know about the name.
-/

namespace EventAtlas.Strategy

def writeTypes : PropertyWrite → Strategy TypeSet
  | .assigned value | .compound value => unlessResolving value
  | .appended value => do
    let elements := (← unlessResolving value).known
    if elements.isEmpty then return .ofName "array"
    else return .ofList (elements.toList.map Ty.arrayOf)

/-- The known types that writes give to a property, after those that are known. -/
def writesTypes (types : TypeSet) : List PropertyWrite → Strategy TypeSet
  | [] => return types
  | w :: rest => do
    let found ← writeTypes w
    writesTypes (types.union found.known) rest

/-- The types of the writes that were handed to a declaration. -/
def injectedTypes (decl : NodeId) : Strategy TypeSet := do
  writesTypes {} (← writesTo decl)

def property (x : Index) (decl : NodeId) (name : String) : Strategy TypeSet := do
  let f := x.forest
  collectMaybe (f.parent decl)
  let hinted ← maybe (f.typeHint? decl)
  let types := hinted.union (x.documented decl (·.varType? (some name)))
  let types := types.union (← maybe (f.defaultValue? decl))
  return types.union (← injectedTypes decl)

/-- The known types of the declarations of a property that are not on the stack, after those that are known. -/
def declarationsTypes (types : TypeSet) : List NodeId → Strategy TypeSet
  | [] => return types
  | decl :: rest => do
    if ← isResolving decl then declarationsTypes types rest
    else
      let found ← Strategy.types decl
      declarationsTypes (types.union found.known) rest

/-- The types of a property of the owners, one after the other, after those that are known. -/
def ownersTypes (x : Index) (name : String) (types : TypeSet) : List NodeId → Strategy TypeSet
  | [] => return types
  | owner :: rest => do
    collect owner
    let types ← declarationsTypes types (x.forest.ownPropertiesNamed owner name)
    let types ← writesTypes types (← looseWrites owner name)
    ownersTypes x name types rest

def classProperty (x : Index) (name : String) (c : NodeId) : Strategy TypeSet :=
  ownersTypes x name {} (x.forest.propertyOrder c)

/-- The value that is assigned to a node, if the node is the target of an assignment. -/
def assignedTo? (f : Forest) (target : NodeId) : Option (Option NodeId) :=
  match f.parent target with
  | none => none
  | some p =>
    match f.kind p with
    | .assign _ => if f.firstChild? p = some target then some ((f.children p).drop 1).head? else none
    | _ => none

/-- The types of an access to a property. A target of an assignment has the types of the value. -/
def propertyFetch (x : Index) (fetch : NodeId) (name : String) : Strategy TypeSet := do
  let f := x.forest
  match assignedTo? f fetch with
  | some value => maybeUnlessResolving value
  | none =>
    match f.firstChild? fetch with
    | none => return {}
    | some receiver =>
      let receivers ← types receiver
      gather (classProperty x name) {} (x.classesOf receivers)

end EventAtlas.Strategy
