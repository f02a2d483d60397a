import EventAtlas.Hierarchy
import EventAtlas.Inference.Variables

/-!
# Writes to properties

The methods of a class are searched for writes to its own properties, nested class-likes apart. A write goes to a
property of `$this`, to a static property of the class itself, or to an element of one of these.
-/

namespace EventAtlas.PropertyWrites

/-- The property that a target of an assignment writes to, and whether an element of it is written; `n` bounds the
number of subscripts. -/
def written? (f : Forest) : Nat → NodeId → Option (String × Bool)
  | 0, _ => none
  | n + 1, target =>
    match f.kind target, f.firstChild? target with
    | .propertyFetch name _, some receiver =>
      if f.kind receiver = .var "this" then some (name, false) else none
    | .staticPropertyFetch name, some scope =>
      match f.kind scope with
      | .name text _ =>
        if Text.sameLetters text "self" || Text.sameLetters text "static" then some (name, false) else none
      | _ => none
    | .arrayAccess, some base =>
      match written? f n base with
      | some (name, false) => some (name, true)
      | _ => none
    | _, _ => none

/-- The write that a node makes, if it makes one. -/
def writeOf? (f : Forest) (node : NodeId) : Option (String × PropertyWrite) :=
  match f.kind node, f.children node with
  | .assign _, target :: value :: _ =>
    (written? f (f.size + 1) target).map fun (name, element) =>
      (name, if element then .appended value else .assigned value)
  | .compoundAssign _, target :: _ =>
    (written? f (f.size + 1) target).map fun (name, _) => (name, .compound node)
  | _, _ => none

/-- The writes of a node and of what is below it, later ones first, at most `n` levels deep. Nested class-likes are
left out. -/
def below (f : Forest) : Nat → NodeId → List (String × PropertyWrite)
  | 0, _ => []
  | n + 1, node =>
    if (f.kind node).isClassLike then []
    else (writeOf? f node).toList ++ (f.children node).reverse.flatMap (below f n)

def inMethod (f : Forest) (method : NodeId) : List (String × PropertyWrite) :=
  (f.children method).reverse.flatMap (below f (f.size + 1))

/-- The writes in the methods of a class-like, by property. -/
def inClass (f : Forest) (c : NodeId) : PropertyWrites :=
  let methods := (f.members c).filter fun m => (f.kind m).isMethod
  (methods.flatMap (inMethod f)).foldl (fun w s => add w s.1 s.2) {}

end EventAtlas.PropertyWrites
