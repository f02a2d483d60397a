import EventAtlas.Inference.Resolver
import EventAtlas.Pattern.Reader

/-!
# Queries

A query asks an index for units, for methods, for calls of methods or for calls of functions. It is a list of
conditions all of which must hold; the conditions say what it yields, and conditions that disagree on that make no
query. Conditions on units concern the unit itself, the unit of a method, or the unit around a call.

A condition on the receiver of a call looks at the types of the receiver, so a query runs in a session of inference and
may fail as inference does. A query for the first match only stops there.
-/

namespace EventAtlas

inductive Target where
  | units
  | methods
  | callSites
  | functionCalls
deriving Inhabited, Repr, DecidableEq

def Target.words : Target → String
  | units => "units"
  | methods => "methods"
  | callSites => "call sites"
  | functionCalls => "function calls"

inductive QueryError where
  | invalidPattern (source : String)
  | conflictingTargets (first second : Target)
deriving Inhabited, Repr, DecidableEq

namespace QueryError

def message : QueryError → String
  | invalidPattern source => "invalid pattern '" ++ source ++ "'"
  | conflictingTargets first second => "query selects both " ++ first.words ++ " and " ++ second.words

def toFault (e : QueryError) : Fault :=
  .invalidConfig e.message

end QueryError

/-- A condition of a query; `α` stands for patterns or for their texts. -/
inductive Predicate (α : Type) where
  | unitMatching (p : α)
  /-- The name of a parent matches; of an interface, the name of an interface that it extends. -/
  | unitExtending (p : α)
  /-- The name of an interface matches that a class or a trait implements. -/
  | unitImplementing (p : α)
  /-- The name of a trait matches that the unit uses. -/
  | unitUsing (p : α)
  | methodName (p : α)
  /-- The name of the called method matches, and so does a type of the receiver or a supertype of one. -/
  | callSite (receiver method : α)
  /-- The name of the called function matches, in full or its last segment. -/
  | functionName (p : α)
deriving Inhabited, Repr

namespace Predicate

/-- What a query with this condition yields, unless the condition is on units. -/
def target? : Predicate α → Option Target
  | methodName _ => some .methods
  | callSite .. => some .callSites
  | functionName _ => some .functionCalls
  | _ => none

def isOnUnit (p : Predicate α) : Bool :=
  p.target?.isNone

def pattern (source : String) : Except QueryError Pattern :=
  match Pattern.parse? source with
  | some p => .ok p
  | none => .error (.invalidPattern source)

/-- Read the patterns of a condition. -/
def compile : Predicate String → Except QueryError (Predicate Pattern)
  | unitMatching p => do return unitMatching (← pattern p)
  | unitExtending p => do return unitExtending (← pattern p)
  | unitImplementing p => do return unitImplementing (← pattern p)
  | unitUsing p => do return unitUsing (← pattern p)
  | methodName p => do return methodName (← pattern p)
  | callSite receiver method => do
    let r ← pattern receiver
    return callSite r (← pattern method)
  | functionName p => do return functionName (← pattern p)

/-- Read the patterns of conditions; the first that cannot be read is the error. -/
def compileAll : List (Predicate String) → Except QueryError (List (Predicate Pattern))
  | [] => .ok []
  | p :: rest => do
    let q ← p.compile
    return q :: (← compileAll rest)

/-- What conditions yield that follow others which yield `target`. -/
def targetFrom (target : Target) : List (Predicate α) → Except QueryError Target
  | [] => .ok target
  | p :: rest =>
    match p.target? with
    | none => targetFrom target rest
    | some wanted =>
      if target ≠ .units ∧ target ≠ wanted then .error (.conflictingTargets target wanted)
      else targetFrom wanted rest

end Predicate

structure Query where
  target : Target
  predicates : List (Predicate Pattern)
  /-- Only the first match is asked for. -/
  first : Bool
deriving Inhabited, Repr

inductive QueryMatch where
  | unit (fqn : String) (node : NodeId)
  | method (fqn method : String) (node : NodeId)
  /-- A call, with what is called, the unit around it, and the method or function around it. -/
  | call (node : NodeId) (called : String) (fqn caller : Option String)
deriving Inhabited, Repr, DecidableEq

namespace QueryMatch

def node : QueryMatch → NodeId
  | unit _ n | method _ _ n | call n .. => n

/-- The unit that matches or is around the match. -/
def fqn? : QueryMatch → Option String
  | unit fqn _ | method fqn .. => some fqn
  | call _ _ fqn _ => fqn

end QueryMatch

namespace Query

/-- The query with these conditions. A pattern that cannot be read comes before a disagreement. -/
def ofPredicates (predicates : List (Predicate String)) (first : Bool) : Except QueryError Query := do
  let compiled ← Predicate.compileAll predicates
  return ⟨← Predicate.targetFrom .units compiled, compiled, first⟩

/-- A match was found and no more are asked for. -/
def isDone (q : Query) (found : List QueryMatch) : Bool :=
  q.first && !found.isEmpty

/-- The matches that the items of a list give, in order. Once the query is done, the rest is passed over. -/
def search (q : Query) (visit : α → List QueryMatch) : List α → List QueryMatch
  | [] => []
  | item :: rest =>
    let found := visit item
    if q.isDone found then found else found ++ q.search visit rest

/-! ## Units and methods -/

def unitSatisfies (f : Forest) (u : ClassUnit) : Predicate Pattern → Bool
  | .unitMatching p => p.isMatch u.fqn
  | .unitExtending p =>
    (if u.kind = .interfaceUnit then f.interfaceNames u.node else f.parentNames u.node).any p.isMatch
  | .unitImplementing p => u.kind ≠ .interfaceUnit && (f.interfaceNames u.node).any p.isMatch
  | .unitUsing p => (f.traitNames u.node).any p.isMatch
  | _ => true

/-- The unit satisfies all conditions on units. -/
def unitPasses (q : Query) (f : Forest) (u : ClassUnit) : Bool :=
  q.predicates.all (unitSatisfies f u)

/-- The name satisfies a condition on the names of methods. -/
def nameSatisfies (name : String) : Predicate Pattern → Bool
  | .methodName p => p.isMatch name
  | _ => true

/-- The member as a match, if it is a method that satisfies the conditions. -/
def methodMatch? (q : Query) (f : Forest) (u : ClassUnit) (member : NodeId) : Option QueryMatch :=
  match f.kind member with
  | .method name _ => if q.predicates.all (nameSatisfies name) then some (.method u.fqn name member) else none
  | _ => none

def units (q : Query) (x : Index) : List QueryMatch :=
  q.search (fun u => if q.unitPasses x.forest u then [.unit u.fqn u.node] else []) x.units

def methods (q : Query) (x : Index) : List QueryMatch :=
  q.search (fun u =>
    if q.unitPasses x.forest u then
      q.search (fun member => (q.methodMatch? x.forest u member).toList) (x.forest.members u.node)
    else []) x.units

/-! ## Calls -/

/-- What is called at a node that is a call of the kind that is asked for. -/
def calledAt? (q : Query) (f : Forest) (site : NodeId) : Option String :=
  match q.target, f.kind site with
  | .callSites, .methodCall name _ | .callSites, .staticCall name => some name
  | .functionCalls, .functionCall => (f.firstChild? site).bind f.nameOf?
  | _, _ => none

/-- The class of a candidate: its declaration, or that of the unit which bears its name. -/
def candidateClass? (x : Index) (t : Ty) : Option NodeId :=
  (t.declaration.filter fun d => (x.forest.kind d).isClassLike).or (x.declaration? t.name)

/-- The name of a candidate matches or that of one of its supertypes. -/
def candidateMatches (x : Index) (p : Pattern) (t : Ty) : Bool :=
  p.isMatch t.name
    || (candidateClass? x t).any fun c => (x.forest.supertypeNames c).any p.isMatch

def receiverMatches (x : Index) (candidates : TypeSet) (p : Pattern) : Bool :=
  candidates.known.toList.any (candidateMatches x p)

/-- The call satisfies conditions on calls. The receiver is asked for its types if the name matches. -/
def callPasses (x : Index) (limit : Nat) (site : NodeId) (called : String) : List (Predicate Pattern) → Resolve Bool
  | [] => return true
  | .callSite receiver method :: rest =>
    if method.isMatch called then
      match x.forest.firstChild? site with
      | none => return false
      | some node => do
        let candidates ← x.resolve limit node
        if receiverMatches x candidates receiver then callPasses x limit site called rest else return false
    else return false
  | .functionName p :: rest =>
    if p.isMatch called || p.isMatch (Text.afterLast '\\' called) then callPasses x limit site called rest
    else return false
  | _ :: rest => callPasses x limit site called rest

/-- The name of the method or the function around a node. -/
def caller? (f : Forest) (site : NodeId) : Option String :=
  (f.enclosing? site fun
    | .method .. | .function _ => true
    | _ => false).bind fun node => (f.kind node).name?

/-- The unit around a node satisfies the conditions on units, if there are any. -/
def placePasses (q : Query) (x : Index) (unit : Option ClassUnit) : Bool :=
  !q.predicates.any Predicate.isOnUnit || unit.any (q.unitPasses x.forest)

/-- The node as a match, if it is a call that satisfies the conditions. -/
def callMatch? (q : Query) (x : Index) (limit : Nat) (site : NodeId) : Resolve (Option QueryMatch) :=
  match q.calledAt? x.forest site with
  | none => return none
  | some called => do
    let unit := x.unitFor? site
    if q.placePasses x unit then
      if ← callPasses x limit site called q.predicates then
        return some (.call site called (unit.map ClassUnit.fqn) (caller? x.forest site))
      else return none
    else return none

def callsAmong (q : Query) (x : Index) (limit : Nat) : List NodeId → Resolve (List QueryMatch)
  | [] => return []
  | site :: rest => do
    match ← q.callMatch? x limit site with
    | none => callsAmong q x limit rest
    | some m => if q.first then return [m] else return m :: (← callsAmong q x limit rest)

def calls (q : Query) (x : Index) (limit : Nat) : Resolve (List QueryMatch) :=
  q.callsAmong x limit (x.forest.files.flatMap fun file => x.forest.descendants file.root)

def run (q : Query) (x : Index) (limit : Nat) : Resolve (List QueryMatch) :=
  match q.target with
  | .units => return q.units x
  | .methods => return q.methods x
  | .callSites | .functionCalls => q.calls x limit

end Query

end EventAtlas
