import EventAtlas.Typing.TypeSet

/-!
# What a sweep knows

While the body of a function, a method, a closure or a file is swept, the last assignment to each variable counts.
An annotation takes precedence over assignments for the rest of the body, and an annotation without a name waits for
the next assignment. Sweeps nest; each remembers how deep the resolution was when it began.

The writes to the properties of a class are collected apart, by property.
-/

namespace EventAtlas

/-- The variables of one scope, as far as the sweep got. -/
structure Variables where
  scope : NodeId
  bindings : Sorted String TypeSet := {}
  annotations : Sorted String TypeSet := {}
  /-- An annotation that waits for the next assignment. -/
  pending : Option TypeSet := none
deriving Inhabited, Repr

namespace Variables

/-- Bind a variable, over what it was bound to. -/
def bind (v : Variables) (name : String) (types : TypeSet) : Variables :=
  { v with bindings := v.bindings.insert name types }

/-- Fix a variable for the rest of the scope. -/
def annotate (v : Variables) (name : String) (types : TypeSet) : Variables :=
  { v with annotations := v.annotations.insert name types }

/-- What is known about a variable. -/
def get? (v : Variables) (name : String) : Option TypeSet :=
  (v.annotations.find? name).or (v.bindings.find? name)

/-- The types that a read of a variable finds; nothing known is an unknown type. -/
def known (v : Variables) (name : String) : TypeSet :=
  ((v.get? name).filter fun t => !t.isEmpty).getD (.unknown "Variable")

/-- What a variable is bound to, annotations apart. -/
def binding? (v : Variables) (name : String) : Option TypeSet :=
  v.bindings.find? name

/-- Change what is known. These stay the variables of their scope. -/
def change (v : Variables) (g : Variables → Variables) : Variables :=
  { g v with scope := v.scope }

/-- Forget what a variable is bound to. -/
def unbind (v : Variables) (name : String) : Variables :=
  { v with bindings := v.bindings.erase name }

end Variables

structure Sweep where
  frame : Variables
  /-- The depth of the resolution at which the sweep began. -/
  depth : Nat
deriving Inhabited, Repr

/-- The sweeps under way, innermost first. -/
abbrev Sweeps := List Sweep

namespace Sweeps

def enter (s : Sweeps) (scope : NodeId) (depth : Nat) : Sweeps :=
  ⟨{ scope }, depth⟩ :: s

def find? (s : Sweeps) (scope : NodeId) : Option Sweep :=
  List.find? (fun w => w.frame.scope == scope) s

/-- The scope is being swept. -/
def contains (s : Sweeps) (scope : NodeId) : Bool :=
  (find? s scope).isSome

/-- Change the variables of the innermost sweep, which stays a sweep of its scope. -/
def modifyCurrent (g : Variables → Variables) : Sweeps → Sweeps
  | [] => []
  | w :: rest => { w with frame := w.frame.change g } :: rest

end Sweeps

inductive PropertyWrite where
  /-- The property takes the type of the value. -/
  | assigned (value : NodeId)
  /-- The property holds arrays of the type of the value. -/
  | appended (value : NodeId)
  /-- The property takes the type of the compound assignment. -/
  | compound (assignment : NodeId)
deriving Inhabited, Repr, DecidableEq

/-- The node whose type a write depends on. -/
def PropertyWrite.node : PropertyWrite → NodeId
  | assigned n | appended n | compound n => n

/-- The writes to the properties of a class, by property. -/
abbrev PropertyWrites := Sorted String (List PropertyWrite)

namespace PropertyWrites

/-- The writes to a property in the order in which they were found. -/
def of (w : PropertyWrites) (name : String) : List PropertyWrite :=
  (Sorted.find? w name).getD []

def add (w : PropertyWrites) (name : String) (write : PropertyWrite) : PropertyWrites :=
  Sorted.insert w name (of w name ++ [write])

end PropertyWrites

end EventAtlas
