import EventAtlas.Inference.Session

/-!
# Strategies

The types of a node come from those of other nodes, from what a scope knows about a variable and from what is written
to properties. A strategy asks for these. It does not see the session: whether a node is on the stack is all that it
learns about what is being inferred.
-/

namespace EventAtlas

inductive NodeQuestion where
  | types (node : NodeId)
  | isResolving (node : NodeId)
  /-- The types of a variable at a node that reads it in a scope. -/
  | read (node scope : NodeId) (name : String)
  /-- That the writes to the properties of a class-like are collected. -/
  | collect (c : NodeId)
  /-- The writes that were handed to a declaration. -/
  | writesTo (decl : NodeId)
  /-- The writes to a property that a class-like does not declare. -/
  | looseWrites (owner : NodeId) (name : String)

namespace NodeQuestion

@[reducible] def Answer : NodeQuestion → Type
  | types _ | read .. => TypeSet
  | isResolving _ => Bool
  | collect _ => PUnit
  | writesTo _ | looseWrites .. => List PropertyWrite

instance : Questions NodeQuestion := ⟨Answer⟩

end NodeQuestion

/-- How the types of a node are found. -/
abbrev Strategy := Dialogue NodeQuestion

/-- Where the types of nodes can be asked for. -/
class Asks (m : Type → Type) where
  types : NodeId → m TypeSet
  isResolving : NodeId → m Bool

/-- The types of a node that is not on the stack; nothing if it is. -/
def unlessResolving {m : Type → Type} [Monad m] [Asks m] (node : NodeId) : m TypeSet := do
  if ← Asks.isResolving node then return {} else Asks.types node

namespace Strategy

def types (node : NodeId) : Strategy TypeSet :=
  Dialogue.question (NodeQuestion.types node)

def isResolving (node : NodeId) : Strategy Bool :=
  Dialogue.question (NodeQuestion.isResolving node)

instance : Asks Strategy := ⟨types, isResolving⟩

/-- The types of a variable at a node that reads it in a scope. -/
def read (node scope : NodeId) (name : String) : Strategy TypeSet :=
  Dialogue.question (NodeQuestion.read node scope name)

/-- Have the writes to the properties of a class-like collected. -/
def collect (c : NodeId) : Strategy PUnit :=
  Dialogue.question (NodeQuestion.collect c)

/-- Have the writes to the properties of a class-like collected, if there is one. -/
def collectMaybe : Option NodeId → Strategy PUnit
  | some c => collect c
  | none => return

/-- The writes that were handed to a declaration. -/
def writesTo (decl : NodeId) : Strategy (List PropertyWrite) :=
  Dialogue.question (NodeQuestion.writesTo decl)

/-- The writes to a property that a class-like does not declare. -/
def looseWrites (owner : NodeId) (name : String) : Strategy (List PropertyWrite) :=
  Dialogue.question (NodeQuestion.looseWrites owner name)

def maybe : Option NodeId → Strategy TypeSet
  | some node => types node
  | none => return {}

/-- The types of a node that is not on the stack, if there is one. -/
def maybeUnlessResolving : Option NodeId → Strategy TypeSet
  | some node => unlessResolving node
  | none => return {}

/-- What is found for several nodes together, after the types that are known. -/
def gather (find : NodeId → Strategy TypeSet) (known : TypeSet) : List NodeId → Strategy TypeSet
  | [] => return known
  | node :: rest => do
    let found ← find node
    gather find (known.union found) rest

/-- The types of several nodes together. -/
def all (nodes : List NodeId) : Strategy TypeSet :=
  gather types {} nodes

end Strategy

end EventAtlas
