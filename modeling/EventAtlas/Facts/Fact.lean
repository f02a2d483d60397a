import EventAtlas.Forest.Node
import EventAtlas.Sorted

/-!
# Facts

A fact says that a class is a use case, that a method listens or subscribes to an event, or that a method
dispatches one. Facts are told apart by kind, class and method, dispatches also by their event; a set of facts
keeps the first of those it cannot tell apart and lists them in this order. Beside the facts stand the reasons
for which candidates were passed over.
-/

namespace EventAtlas

inductive FactKind where
  | useCase
  | listener
  | subscriber
  | dispatch
deriving Inhabited, Repr, DecidableEq, Ord

namespace FactKind

def all : List FactKind :=
  [useCase, listener, subscriber, dispatch]

def spelling : FactKind → String
  | useCase => "use_case"
  | listener => "listener"
  | subscriber => "subscriber"
  | dispatch => "event_dispatch"

/-- The kind that a configuration names. -/
def ofName? : String → Option FactKind
  | "use_case" | "useCase" => some useCase
  | "listener" => some listener
  | "subscriber" => some subscriber
  | "event_dispatch" | "eventDispatch" => some dispatch
  | _ => none

def carriesEvent (k : FactKind) : Bool :=
  k ≠ useCase

end FactKind

structure Origin where
  file : String
  span : Span
deriving Inhabited, Repr, DecidableEq

/-- One statement about the program. Events are given by their qualified names. -/
inductive Fact where
  | useCase (fqn : String) (origin : Option Origin)
  | listener (fqn method event : String) (origin : Option Origin)
  | subscriber (fqn method event : String) (origin : Option Origin)
  | dispatch (fqn method event : String) (origin : Option Origin)
deriving Inhabited, Repr, DecidableEq

/-- What tells facts apart. -/
structure FactKey where
  kind : FactKind
  fqn : String
  method : Option String
  event : Option String
deriving Inhabited, Repr, DecidableEq, Ord

namespace Fact

def kind : Fact → FactKind
  | useCase .. => .useCase
  | listener .. => .listener
  | subscriber .. => .subscriber
  | dispatch .. => .dispatch

/-- The class that a fact is about; of a dispatch, the class that dispatches. -/
def fqn : Fact → String
  | useCase fqn _ | listener fqn .. | subscriber fqn .. | dispatch fqn .. => fqn

def shortName (f : Fact) : String :=
  Typing.shortName f.fqn

def method? : Fact → Option String
  | useCase .. => none
  | listener _ method .. | subscriber _ method .. | dispatch _ method .. => some method

def event? : Fact → Option String
  | useCase .. => none
  | listener _ _ event _ | subscriber _ _ event _ | dispatch _ _ event _ => some event

def origin? : Fact → Option Origin
  | useCase _ o | listener _ _ _ o | subscriber _ _ _ o | dispatch _ _ _ o => o

def withOrigin (o : Origin) : Fact → Fact
  | useCase fqn _ => useCase fqn (some o)
  | listener fqn m e _ => listener fqn m e (some o)
  | subscriber fqn m e _ => subscriber fqn m e (some o)
  | dispatch fqn m e _ => dispatch fqn m e (some o)

/-- What tells the fact from others: of all facts, only dispatches differ by their event. -/
def key (f : Fact) : FactKey where
  kind := f.kind
  fqn := f.fqn
  method := f.method?
  event := match f with
    | dispatch _ _ event _ => some event
    | _ => none

end Fact

/-- Why a candidate became no fact. -/
structure Diagnostic where
  kind : FactKind
  fqn : String
  method : Option String
  message : String
  origin : Option Origin := none
deriving Inhabited, Repr, DecidableEq

def Diagnostic.display (d : Diagnostic) : String :=
  match d.method with
  | some m => d.kind.spelling ++ " " ++ d.fqn ++ "::" ++ m ++ ": " ++ d.message
  | none => d.kind.spelling ++ " " ++ d.fqn ++ ": " ++ d.message

/-- Facts, each of them once, and diagnostics in the order in which they arose. -/
structure FactSet where
  facts : Sorted FactKey Fact := {}
  diagnostics : List Diagnostic := []
deriving Inhabited, Repr

namespace FactSet

def empty : FactSet := {}

/-- A fact that cannot be told from `f` is there. -/
def has (s : FactSet) (f : Fact) : Bool :=
  s.facts.contains f.key

/-- The set with `f`, unless there is a fact that cannot be told from it. -/
def insert (s : FactSet) (f : Fact) : FactSet :=
  if s.has f then s else { s with facts := s.facts.insert f.key f }

def report (s : FactSet) (d : Diagnostic) : FactSet :=
  { s with diagnostics := s.diagnostics ++ [d] }

def toList (s : FactSet) : List Fact :=
  s.facts.values

def ofKind (s : FactSet) (k : FactKind) : List Fact :=
  s.toList.filter fun f => f.kind = k

/-- The facts and diagnostics of both sets; of facts that cannot be told apart, those of the first. -/
def merge (s t : FactSet) : FactSet :=
  let joined := t.toList.foldl insert s
  { joined with diagnostics := s.diagnostics ++ t.diagnostics }

def size (s : FactSet) : Nat :=
  s.facts.size

def isEmpty (s : FactSet) : Bool :=
  s.facts.isEmpty

end FactSet

end EventAtlas
