import EventAtlas.Fault
import EventAtlas.Inference.Dialogue
import EventAtlas.Inference.Writes

/-!
# Sessions of inference

A session remembers the types that have been inferred and keeps account of what is being inferred: the stack of nodes,
the sweeps under way, and the lowest place on the stack whose answer rests on a sweep that was not finished. Such an
answer is given but not remembered, nor is any answer above it.

A node that is asked for while it is on the stack depends on itself. A property or a parameter then adds nothing;
anything else is refused with the cycle. The stack has a limit.

What can be done to a session, and asked of it, are its acts. An inquiry is a dialogue of acts that ends with a result
or an error; what is done to the session before an error stays done.
-/

namespace EventAtlas

/-- Why no types can be given. -/
inductive ResolveError where
  /-- The type of a node depends on itself; the nodes of the cycle in order. -/
  | circular (chain : List String)
  /-- The stack would grow beyond its limit. -/
  | depthExceeded (limit : Nat) (node : String)
deriving Inhabited, Repr, DecidableEq

namespace ResolveError

def message : ResolveError → String
  | circular chain => "circular reference: " ++ Text.joinWith " -> " chain
  | depthExceeded limit node => "resolution depth limit " ++ toString limit ++ " exceeded at " ++ node

def toFault : ResolveError → Fault
  | circular chain => .circular chain
  | e@(depthExceeded ..) => .resolution e.message

end ResolveError

/-- What has been inferred and what is being inferred. -/
structure Session where
  memo : Sorted NodeId TypeSet := {}
  /-- The nodes being resolved, innermost first. -/
  stack : List NodeId := []
  /-- The same nodes as a set. -/
  resolving : List NodeId := []
  sweeps : Sweeps := []
  /-- Answers from this place on the stack on are not remembered. -/
  unsettledFrom : Option Nat := none
  /-- The scopes whose sweep is finished. -/
  swept : List NodeId := []
  /-- The class-likes whose property writes have been collected. -/
  collected : List NodeId := []
  /-- The writes to declared properties, by declaration. -/
  injected : Sorted NodeId (List PropertyWrite) := {}
  /-- The writes to properties that a class-like does not declare, by class-like. -/
  dynamic : Sorted NodeId PropertyWrites := {}
deriving Inhabited, Repr

namespace Session

/-- Put a node on the stack. -/
def push (s : Session) (node : NodeId) : Session :=
  { s with stack := node :: s.stack, resolving := s.resolving.insert node }

/-- Take a node off the stack. -/
def pop (s : Session) (node : NodeId) : Session :=
  { s with stack := s.stack.drop 1, resolving := s.resolving.erase node }

/-- Answers from this place on the stack on rest on a sweep that is not finished. -/
def unsettle (s : Session) (depth : Nat) : Session :=
  { s with unsettledFrom := some (match s.unsettledFrom with
      | some d => min d depth
      | none => depth) }

/-- Whether the answer of the node that has just left the stack may be remembered. The mark goes with the lowest node
that it concerns. -/
def settle (s : Session) : Bool × Session :=
  let depth := s.stack.length
  match s.unsettledFrom with
  | some d =>
    if d ≤ depth then (false, if depth = d then { s with unsettledFrom := none } else s) else (true, s)
  | none => (true, s)

def remember (s : Session) (node : NodeId) (types : TypeSet) : Session :=
  { s with memo := s.memo.insert node types }

/-- Remember the types of a node unless some are remembered. -/
def rememberFirst (s : Session) (node : NodeId) (types : TypeSet) : Session :=
  if s.memo.contains node then s else s.remember node types

/-- The variables of the innermost sweep. -/
def frame? (s : Session) : Option Variables :=
  s.sweeps.head?.map Sweep.frame

/-- Change the variables of the innermost sweep. -/
def modifyVariables (s : Session) (g : Variables → Variables) : Session :=
  { s with sweeps := Sweeps.modifyCurrent g s.sweeps }

/-- The nodes of a cycle: the stack from the node on, and the node again. -/
def cycle (s : Session) (node : NodeId) : List NodeId :=
  let outermostFirst := s.stack.reverse
  match outermostFirst.dropWhile (· != node) with
  | [] => outermostFirst ++ [node]
  | segment => segment ++ [node]

/-- Take a node off the stack and remember its types, if there are any and they may be remembered. -/
def leave (s : Session) (node : NodeId) (types : Option TypeSet) : Session :=
  let (settled, s) := (s.pop node).settle
  match types with
  | some types => if settled then s.remember node types else s
  | none => s

/-! ## Sweeps -/

/-- What the sweep of a scope knows about a variable so far, if the scope is being swept. Who reads it is ahead of the
sweep. -/
def readAhead (s : Session) (scope : NodeId) (name : String) : Option TypeSet × Session :=
  match Sweeps.find? s.sweeps scope with
  | some w => (some ((w.frame.get? name).getD {}), s.unsettle w.depth)
  | none => (none, s)

/-- What a variable was remembered with when its scope was swept; nothing if the sweep did not read it. -/
def readBehind (s : Session) (node : NodeId) : TypeSet :=
  (s.memo.find? node).getD {}

/-- Begin to sweep a scope, unless that has been done or is under way. -/
def beginSweep (s : Session) (scope : NodeId) : Bool × Session :=
  if s.swept.contains scope || Sweeps.contains s.sweeps scope then (false, s)
  else (true, { s with sweeps := Sweeps.enter s.sweeps scope s.stack.length })

/-- End the innermost sweep, which is that of this scope. -/
def endSweep (s : Session) (scope : NodeId) (finished : Bool) : Session :=
  { s with sweeps := s.sweeps.drop 1, swept := if finished then scope :: s.swept else s.swept }

/-- Remember a variable that is read with what the sweep knows. -/
def rememberRead (s : Session) (node : NodeId) (name : String) : Session :=
  s.rememberFirst node ((s.frame?.map (·.known name)).getD (.unknown "Variable"))

/-! ## Properties -/

/-- Hand the writes to a property to a declaration, unless an earlier declaration has them. -/
def inject (f : Forest) (s : Session × PropertyWrites) (decl : NodeId) : Session × PropertyWrites :=
  match (f.kind decl).name? with
  | none => s
  | some name =>
    match PropertyWrites.of s.2 name with
    | [] => s
    | writes =>
      ({ s.1 with injected := s.1.injected.insert decl ((s.1.injected.find? decl).getD [] ++ writes) },
        Sorted.erase s.2 name)

/-- Collect the writes to the properties of a class-like, once. -/
def collect (f : Forest) (s : Session) (c : NodeId) : Session :=
  if s.collected.contains c then s
  else
    let start := ({ s with collected := c :: s.collected }, PropertyWrites.inClass f c)
    let (s, rest) := (f.ownProperties c).foldl (inject f) start
    if Sorted.isEmpty rest then s else { s with dynamic := s.dynamic.insert c rest }

/-- The writes that were handed to a declaration. -/
def writesTo (s : Session) (decl : NodeId) : List PropertyWrite :=
  (s.injected.find? decl).getD []

/-- The writes to a property that a class-like does not declare. -/
def looseWrites (s : Session) (owner : NodeId) (name : String) : List PropertyWrite :=
  ((s.dynamic.find? owner).map fun w => PropertyWrites.of w name).getD []

end Session

/-! ## Acts -/

/-- What can be done to a session and asked of it. -/
inductive Act where
  /-- The types that are remembered for a node. -/
  | lookUp (node : NodeId)
  /-- Whether a node is on the stack. -/
  | isResolving (node : NodeId)
  /-- The nodes of the cycle that a node on the stack closes. -/
  | cycle (node : NodeId)
  /-- Put a node on the stack. -/
  | enter (node : NodeId)
  /-- Take a node off the stack and remember its types, if there are any and they may be remembered. -/
  | leave (node : NodeId) (types : Option TypeSet)
  /-- What the sweep of a scope knows about a variable, if the scope is being swept. -/
  | readAhead (scope : NodeId) (name : String)
  /-- What a variable was remembered with when its scope was swept. -/
  | readBehind (node scope : NodeId)
  /-- Begin to sweep a scope, and whether that is needed. -/
  | beginSweep (scope : NodeId)
  | endSweep (scope : NodeId) (finished : Bool)
  /-- The variables of the innermost sweep. -/
  | current
  | changeVariables (g : Variables → Variables)
  /-- Remember a variable that is read with what the innermost sweep knows. -/
  | rememberRead (node : NodeId) (name : String)
  /-- Collect the writes to the properties of a class-like. -/
  | collect (f : Forest) (c : NodeId)
  /-- The writes that were handed to a declaration. -/
  | writesTo (decl : NodeId)
  /-- The writes to a property that a class-like does not declare. -/
  | looseWrites (owner : NodeId) (name : String)

namespace Act

@[reducible] def Answer : Act → Type
  | lookUp _ => Option TypeSet
  | isResolving _ | beginSweep _ => Bool
  | cycle _ => List NodeId
  | readAhead .. => Option TypeSet
  | readBehind .. => TypeSet
  | current => Option Variables
  | writesTo _ | looseWrites .. => List PropertyWrite
  | enter _ | leave .. | endSweep .. | changeVariables _ | rememberRead .. | collect .. => PUnit

instance : Questions Act := ⟨Answer⟩

def perform : (a : Act) → Session → a.Answer × Session
  | lookUp node, s => (s.memo.find? node, s)
  | isResolving node, s => (s.resolving.contains node, s)
  | cycle node, s => (s.cycle node, s)
  | enter node, s => ((), s.push node)
  | leave node types, s => ((), s.leave node types)
  | readAhead scope name, s => s.readAhead scope name
  | readBehind node _, s => (s.readBehind node, s)
  | beginSweep scope, s => s.beginSweep scope
  | endSweep scope finished, s => ((), s.endSweep scope finished)
  | current, s => (s.frame?, s)
  | changeVariables g, s => ((), s.modifyVariables g)
  | rememberRead node name, s => ((), s.rememberRead node name)
  | collect f c, s => ((), s.collect f c)
  | writesTo decl, s => (s.writesTo decl, s)
  | looseWrites owner name, s => (s.looseWrites owner name, s)

end Act

/-- Do the acts of a dialogue one after the other. -/
def Dialogue.perform {α : Type} : Dialogue Act α → Session → α × Session
  | done a, s => (a, s)
  | ask act next, s =>
    let (answer, s) := act.perform s
    (next answer).perform s

/-- A dialogue of acts that ends with a result or an error. -/
abbrev Inquiry := ExceptT ResolveError (Dialogue Act)

/-- What runs in a session. What is done to the session before an error stays done. -/
abbrev Resolve := ExceptT ResolveError (StateM Session)

namespace Inquiry

def act (a : Act) : Inquiry a.Answer :=
  liftM (Dialogue.question a)

/-- Hold an inquiry in a session. -/
def perform (i : Inquiry α) : Resolve α :=
  i.run.perform

end Inquiry

end EventAtlas
