import EventAtlas.Config
import EventAtlas.Query
import EventAtlas.Report

/-!
# Extraction of facts

Every collector becomes a query or two, and every match that qualifies becomes a candidate: a class for a use case, a
method for a listener or a subscriber, a call inside a unit and a method for a dispatch. A candidate for a fact that
names an event has a node that carries the event; the candidate becomes a fact if the types of that node are exactly
one class, and a diagnostic otherwise.

A type that depends on itself ends the extraction. When the stack reaches its limit, the candidate or, in the query,
the whole collector is passed over with a diagnostic.
-/

namespace EventAtlas

inductive ExtractionError where
  | query (e : QueryError)
  | circular (chain : List String)
deriving Inhabited, Repr, DecidableEq

namespace ExtractionError

def toFault : ExtractionError → Fault
  | query e => e.toFault
  | circular chain => .circular chain

end ExtractionError

/-- Which node carries the event. -/
structure EventPolicy where
  /-- The parameter of a listener or a subscriber. -/
  parameter? : Forest → NodeId → Option NodeId
  /-- The expression in a call that dispatches. -/
  argument? : Forest → NodeId → Option NodeId

namespace EventPolicy

/-- An argument that has no name and is not spread. -/
def isPositional : NodeKind → Bool
  | .argument none false => true
  | _ => false

/-- The first parameter, and the value of the first positional argument. -/
def firstPositional : EventPolicy where
  parameter? f method := (f.parameters method).head?
  argument? f call := ((f.arguments call).find? fun a => isPositional (f.kind a)).bind f.firstChild?

end EventPolicy

/-- What runs in a session of inference and may end the extraction. -/
abbrev Extract := ExceptT ExtractionError (StateM Session)

/-- What may become a fact that names an event. -/
structure Candidate where
  kind : FactKind
  fqn : String
  method : String
  /-- The method, or the call that dispatches. -/
  node : NodeId
  event : Option NodeId
deriving Inhabited, Repr, DecidableEq

namespace Extract

/-- The result of an inference, or its message when the stack reached its limit. -/
def attempt (r : Resolve α) : Extract (Except String α) := fun session =>
  match r.run.run session with
  | (.ok a, s) => (.ok (.ok a), s)
  | (.error (.circular chain), s) => (.error (.circular chain), s)
  | (.error e, s) => (.ok (.error e.message), s)

def origin (f : Forest) (node : NodeId) : Origin where
  file := ((f.fileOf? node).map SourceFile.path).getD ""
  span := (f.node node).span

/-! ## Events -/

/-- The parameter may be null by its declared type. -/
def declaredNullable (f : Forest) (node : NodeId) : Bool :=
  (f.kind node).isParameter && (f.typeHint? node).any fun hint =>
    match f.kind hint with
    | .nullableType => true
    | .unionType => (f.children hint).any fun c => (f.kind c).name?.any (Text.sameLetters "null")
    | _ => false

/-- The event that types name, or the reason why they name none. -/
def eventAmong (types : TypeSet) : Except String String :=
  if types.isEmpty || types.isUnknown then .error ("event type is unknown (" ++ types.display ++ ")")
  else if types.toList.any Ty.isUnknown then
    .error ("event type is partly unresolved (" ++ types.display ++ ")")
  else
    match types.unique? with
    | .ok t => if t.isNative then .error ("event type " ++ t.name ++ " is not a class") else .ok t.name
    | .error e => .error ("event type is ambiguous: " ++ e.message)

/-- The event of a candidate, or the reason why it has none. That a parameter may be null does not count. -/
def eventOf (x : Index) (limit : Nat) (c : Candidate) : Extract (Except String String) :=
  match c.event with
  | none => return .error (if c.kind = .dispatch then "no event argument" else "no event parameter")
  | some node => do
    match ← attempt (x.resolve limit node) with
    | .error e => return .error ("fact omitted: " ++ e)
    | .ok types =>
      return eventAmong (if declaredNullable x.forest node then types.withoutNull else types)

def factOf (c : Candidate) (event : String) (o : Origin) : Fact :=
  match c.kind with
  | .dispatch => .dispatch c.fqn c.method event (some o)
  | .subscriber => .subscriber c.fqn c.method event (some o)
  | _ => .listener c.fqn c.method event (some o)

/-- The facts with a candidate, or with the reason for passing it over. -/
def settle (x : Index) (limit : Nat) (facts : FactSet) (c : Candidate) : Extract FactSet := do
  let o := origin x.forest c.node
  match ← eventOf x limit c with
  | .ok event => return facts.insert (factOf c event o)
  | .error reason => return facts.report ⟨c.kind, c.fqn, some c.method, reason, some o⟩

/-- The facts with candidates, one after the other. -/
def settleAll (x : Index) (limit : Nat) : List Candidate → FactSet → Extract FactSet
  | [], facts => return facts
  | c :: rest, facts => do settleAll x limit rest (← settle x limit facts c)

/-! ## Collectors -/

/-- Several patterns as one that matches where one of them does. -/
def alternation? (patterns : List Pattern) : Option String :=
  if patterns.isEmpty then none
  else some (Text.joinWith "|" (patterns.map fun p => "(?:" ++ p.source ++ ")"))

def unitPattern? (c : Collector) : Option String :=
  alternation? (c.patterns .fqn)

def methodPattern? (c : Collector) : Option String :=
  alternation? (c.patterns .methodName)

/-- The pattern that matches everything. -/
def anything : String := ".*"

/-- The matches of a query for a collector. -/
def matchesOf (x : Index) (limit : Nat) (kind : FactKind) (conditions : List (Predicate String)) (facts : FactSet) :
    Extract (List QueryMatch × FactSet) :=
  match Query.ofPredicates conditions false with
  | .error e => throw (.query e)
  | .ok q => do
    match ← attempt (q.run x limit) with
    | .ok found => return (found, facts)
    | .error e => return ([], facts.report ⟨kind, "*", none, "collector omitted: " ++ e, none⟩)

/-- The use case that a match shows: its unit, if that is a class. -/
def useCase? (x : Index) (m : QueryMatch) : Option Fact := do
  let fqn ← m.fqn?
  let u ← x.find? fqn
  if u.kind = .classUnit then some (.useCase u.fqn (some (origin x.forest u.node))) else none

/-- The facts with those of a collector of use cases. -/
def useCases (x : Index) (limit : Nat) (c : Collector) (facts : FactSet) : Extract FactSet := do
  let conditions := (unitPattern? c).toList.map Predicate.unitMatching
    ++ (methodPattern? c).toList.map Predicate.methodName
  let (found, facts) ← matchesOf x limit c.kind conditions facts
  return (found.filterMap (useCase? x)).foldl FactSet.insert facts

/-- Others may call the method on an object, and it is not the constructor. -/
def handles (name : String) (m : Modifiers) : Bool :=
  m.visibility = .isPublic && !m.isStatic && !Text.sameLetters name "__construct"

/-- The listener or subscriber that a match may be. -/
def handler? (x : Index) (policy : EventPolicy) (kind : FactKind) : QueryMatch → Option Candidate
  | .method fqn name node =>
    if (x.find? fqn).any fun u => u.kind = .interfaceUnit then none
    else
      match x.forest.kind node with
      | .method _ m => if handles name m then some ⟨kind, fqn, name, node, policy.parameter? x.forest node⟩ else none
      | _ => none
  | _ => none

/-- The facts with those of a collector of listeners or subscribers. -/
def handlers (x : Index) (limit : Nat) (policy : EventPolicy) (c : Collector) (facts : FactSet) :
    Extract FactSet := do
  let conditions := (unitPattern? c).toList.map Predicate.unitMatching
    ++ [.methodName ((methodPattern? c).getD anything)]
  let (found, facts) ← matchesOf x limit c.kind conditions facts
  settleAll x limit (found.filterMap (handler? x policy c.kind)) facts

/-- The dispatch that a match may be: a call inside a unit, and inside a method or a function. -/
def dispatch? (x : Index) (policy : EventPolicy) : QueryMatch → Option Candidate
  | .call node _ (some fqn) (some caller) => some ⟨.dispatch, fqn, caller, node, policy.argument? x.forest node⟩
  | _ => none

/-- The facts with those of a collector of dispatches. Functions have no receiver, so they are asked for only if
receivers are free and the name is not. -/
def dispatches (x : Index) (limit : Nat) (policy : EventPolicy) (c : Collector) (facts : FactSet) :
    Extract FactSet := do
  let receivers := unitPattern? c
  let methods := methodPattern? c
  let (sites, facts) ← matchesOf x limit c.kind
    [.callSite (receivers.getD anything) (methods.getD anything)] facts
  let (functions, facts) ← match receivers, methods with
    | none, some names => matchesOf x limit c.kind [.functionName names] facts
    | _, _ => pure ([], facts)
  settleAll x limit ((sites ++ functions).filterMap (dispatch? x policy)) facts

def collect (x : Index) (limit : Nat) (policy : EventPolicy) (c : Collector) (facts : FactSet) : Extract FactSet :=
  match c.kind with
  | .useCase => useCases x limit c facts
  | .listener | .subscriber => handlers x limit policy c facts
  | .dispatch => dispatches x limit policy c facts

/-- The facts with those of collectors, one after the other. -/
def collectAll (x : Index) (limit : Nat) (policy : EventPolicy) : List Collector → FactSet → Extract FactSet
  | [], facts => return facts
  | c :: rest, facts => do collectAll x limit policy rest (← collect x limit policy c facts)

end Extract

namespace Index

/-- The facts that collectors find, in a session of their own. -/
def extract (x : Index) (limit : Nat) (policy : EventPolicy) (collectors : CollectorSet) :
    Except ExtractionError FactSet :=
  ((Extract.collectAll x limit policy collectors.values .empty).run.run {}).1

/-- The report on the facts that a configuration asks for. -/
def factsReport (x : Index) (config : Config) : Except Fault Json :=
  match x.extract defaultMaxDepth .firstPositional config.collectors with
  | .ok facts => .ok (Report.facts config.components.componentOf? facts)
  | .error e => .error e.toFault

end Index

end EventAtlas
