import EventAtlas.Forest.Walk
import EventAtlas.Inference.Classes
import EventAtlas.Inference.Strategy

/-!
# Variables

A variable has the types that it was last given. To find them, the body of the function, method, closure or file
around is swept once in the order of evaluation, and every variable that is read is remembered with what is known at
that point. A value is visited before it is bound. Nested declarations are passed over; a closure only reads the
variables it takes along; an arrow function shares the variables around it and binds its parameters for its body.

A read that is asked for while the sweep of its scope is under way is answered with what the sweep knows so far.
-/

namespace EventAtlas

/-- Where the types of a binding come from. -/
inductive BindSource where
  | node (id : NodeId)
  | elementsOf (id : NodeId)
  | types (types : TypeSet)
deriving Inhabited, Repr

inductive SweepStep where
  | visit (id : NodeId)
  | bind (target : NodeId) (source : BindSource)
  /-- Give variables back what they were bound to. -/
  | restore (saved : List (String × Option TypeSet))
deriving Inhabited, Repr

namespace Variables

/-- Give a variable back what it was bound to. -/
def restore (v : Variables) (saved : String × Option TypeSet) : Variables :=
  match saved.2 with
  | some types => v.bind saved.1 types
  | none => v.unbind saved.1

/-- A value was put at the end of the array in a variable. -/
def append (v : Variables) (name : String) (types : TypeSet) : Variables :=
  let elements := types.toList.filter fun t => !t.isUnknown
  let appended : TypeSet := if elements.isEmpty then .ofName "array" else .ofList (elements.map Ty.arrayOf)
  v.bind name (match v.binding? name with
    | some existing => appended.union existing.known
    | none => appended)

/-- Bind the target of an assignment, at most `n` lists deep. A list of targets binds each of its variables to the
element types; a subscript without an index appends. -/
def assign (f : Forest) : Nat → NodeId → TypeSet → Variables → Variables
  | 0, _, _, v => v
  | n + 1, target, types, v =>
    match f.kind target with
    | .var name | .parameter name .. | .staticVariable name => if name == "this" then v else v.bind name types
    | .arrayAccess =>
      match f.children target with
      | [base] =>
        match f.kind base with
        | .var name => v.append name types
        | _ => v
      | _ => v
    | .listDestructure | .arrayLiteral =>
      (f.children target).foldl
        (fun v c => match f.kind c with
          | .var _ | .listDestructure | .arrayLiteral => assign f n c types.elements v
          | _ => v)
        v
    | _ => v

/-- Note what a documentation comment says about variables. -/
def note (x : Index) (node : NodeId) (text : String) (v : Variables) : Variables :=
  let block := DocBlock.parse text
  let v := block.namedVars.foldl (fun v t => v.annotate t.1 (x.docTypes node t.2)) v
  match block.vars.find? fun t => t.name.isNone with
  | some t => { v with pending := some (x.docTypes node t.type) }
  | none => v

end Variables

/-! ## Sweeps -/

inductive SweepQuestion where
  | types (node : NodeId)
  | isResolving (node : NodeId)
  /-- What the sweep knows. -/
  | current
  /-- That what the sweep knows changes. -/
  | change (g : Variables → Variables)
  /-- That a variable which is read is remembered with what the sweep knows. -/
  | read (node : NodeId) (name : String)

namespace SweepQuestion

@[reducible] def Answer : SweepQuestion → Type
  | types _ => TypeSet
  | isResolving _ => Bool
  | current => Option Variables
  | change _ | read .. => PUnit

instance : Questions SweepQuestion := ⟨Answer⟩

end SweepQuestion

/-- How a scope is swept. -/
abbrev Sweeping := Dialogue SweepQuestion

namespace Sweeping

def types (node : NodeId) : Sweeping TypeSet :=
  Dialogue.question (SweepQuestion.types node)

def isResolving (node : NodeId) : Sweeping Bool :=
  Dialogue.question (SweepQuestion.isResolving node)

instance : Asks Sweeping := ⟨types, isResolving⟩

def current : Sweeping (Option Variables) :=
  Dialogue.question SweepQuestion.current

def change (g : Variables → Variables) : Sweeping PUnit :=
  Dialogue.question (SweepQuestion.change g)

/-- Have a variable that is read remembered with what the sweep knows. -/
def read (node : NodeId) (name : String) : Sweeping PUnit :=
  Dialogue.question (SweepQuestion.read node name)

def isList : NodeKind → Bool
  | .listDestructure | .arrayLiteral => true
  | _ => false

def isVariable : NodeKind → Bool
  | .var _ => true
  | _ => false

/-- Take the annotation that waits for an assignment, if the target is a variable. -/
def takePending (f : Forest) (target : NodeId) : Sweeping (Option TypeSet) := do
  if isVariable (f.kind target) then
    let pending := (← current).bind Variables.pending
    change fun v => { v with pending := none }
    return pending
  else return none

/-- The steps for an assignment: the value, what is inside of the target, the binding. -/
def assignSteps (f : Forest) (target value : NodeId) (pending : Option TypeSet) : List SweepStep :=
  let source := (pending.map BindSource.types).getD (.node value)
  let inside := (f.children target).map SweepStep.visit
  match f.kind target with
  | .var _ | .listDestructure | .arrayLiteral => [.visit value, .bind target source]
  | .arrayAccess => .visit value :: inside ++ [.bind target source]
  | _ => .visit value :: inside

/-- The steps for a loop over elements: the source, the key and the value, the body. -/
def foreachSteps (f : Forest) (hasKey : Bool) : List NodeId → List SweepStep
  | [] => []
  | source :: rest =>
    let keys := if hasKey then rest.take 1 else []
    let values := if hasKey then rest.drop 1 else rest
    let bindValue (v : NodeId) : SweepStep :=
      .bind v (if isList (f.kind v) then .elementsOf source else .node v)
    .visit source :: keys.map (fun k => .bind k (.node k)) ++ (values.take 1).map bindValue
      ++ ((values.drop 1).take 1).map .visit

/-- The step for a part of a clause that catches. -/
def catchStep? (f : Forest) (c : NodeId) : Option SweepStep :=
  match f.kind c with
  | .var _ => some (.bind c (.node c))
  | .name .. => none
  | _ => some (.visit c)

/-- What parameters are bound to before the body of an arrow function. -/
def shadowed (f : Forest) (params : List NodeId) (v : Option Variables) : List (String × Option TypeSet) :=
  (params.filterMap fun p => (f.kind p).name?).map fun name => (name, v.bind (·.binding? name))

def bindSelf (id : NodeId) : SweepStep :=
  .bind id (.node id)

/-- The variables that a closure takes along. -/
def usedVariables (f : Forest) (closure : NodeId) : List NodeId :=
  f.childrenWhere closure isVariable

def visit (x : Index) (node : NodeId) : Sweeping (List SweepStep) := do
  let f := x.forest
  let children := f.children node
  match f.kind node with
  | .classDecl .. | .interfaceDecl _ | .traitDecl _ | .method .. | .function _ => return []
  | .var name =>
    if name != "this" then read node name
    return []
  | .assign _ =>
    match children with
    | target :: value :: _ => return assignSteps f target value (← takePending f target)
    | _ => return children.map .visit
  | .compoundAssign _ =>
    return children.map .visit ++ (children.take 1).map fun target => .bind target (.node node)
  | .foreach hasKey => return foreachSteps f hasKey children
  | .catchClause => return children.filterMap (catchStep? f)
  | .staticVariable _ => return children.map .visit ++ [bindSelf node]
  | .closure _ => return (usedVariables f node).map .visit
  | .arrowFunction =>
    let params := f.parameters node
    let saved := shadowed f params (← current)
    return params.map bindSelf ++ (f.body? node).toList.map .visit ++ [.restore saved]
  | .docComment text =>
    change (·.note x node text)
    return []
  | _ => return children.map .visit

/-- The types of a binding; nothing is bound to a node that is on the stack. -/
def sourceTypes? : BindSource → Sweeping (Option TypeSet)
  | .node id => do if ← isResolving id then return none else return some (← types id)
  | .elementsOf id => do return some (← unlessResolving id).elements
  | .types types => return some types

/-- Take one step of a sweep; the steps that come next. -/
def step (x : Index) : SweepStep → Sweeping (List SweepStep)
  | .visit id => visit x id
  | .bind target source => do
    match ← sourceTypes? source with
    | some types => change (Variables.assign x.forest (x.forest.size + 1) target types)
    | none => pure ()
    return []
  | .restore saved => do
    change fun v => saved.foldl Variables.restore v
    return []

/-- Take the steps of a sweep one after the other, at most `n`. -/
def steps (x : Index) : Nat → List SweepStep → Sweeping PUnit
  | 0, _ => return
  | _ + 1, [] => return
  | n + 1, s :: rest => do
    let next ← step x s
    steps x n (next ++ rest)

/-- The first steps of a sweep: parameters, variables taken along, the body. -/
def firstSteps (f : Forest) (scope : NodeId) : List SweepStep :=
  match f.kind scope with
  | .file => (f.children scope).map .visit
  | k =>
    let used := match k with
      | .closure _ => usedVariables f scope
      | _ => []
    (f.parameters scope).map bindSelf ++ used.map bindSelf ++ (f.body? scope).toList.map .visit

/-- More steps than the sweep of a scope takes: a node is visited once, and a visit gives at most one step for each
child and two more. -/
def stepBound (f : Forest) (scope : NodeId) : Nat :=
  4 * Walk.weight f (f.size + 1) scope + 4

def scope (x : Index) (scope : NodeId) : Sweeping PUnit :=
  steps x (stepBound x.forest scope) (firstSteps x.forest scope)

end Sweeping

namespace Strategy

/-! ## Reads -/

/-- The scope that a variable is read in. What a closure takes along is read where the closure is made. -/
def readingScope? (f : Forest) (node : NodeId) : Option NodeId :=
  match f.parent node with
  | some p =>
    match f.kind p with
    | .closure _ => f.variableScope? p
    | _ => f.variableScope? node
  | none => f.variableScope? node

def readVariable (f : Forest) (node : NodeId) (name : String) : Strategy TypeSet :=
  match readingScope? f node with
  | none => return {}
  | some scope => read node scope name

/-! ## Targets -/

/-- The element types that flow into a list of targets, nothing if the list is no target; `n` bounds the nesting. -/
def destructured? (f : Forest) : Nat → NodeId → Strategy (Option TypeSet)
  | 0, _ => return none
  | n + 1, target => do
    match f.parent target with
    | none => return none
    | some p =>
      let children := f.children p
      let isFirst := children.head? == some target
      match f.kind p with
      | .assign _ =>
        if isFirst then return some (← maybeUnlessResolving (children.drop 1).head?).elements
        else return none
      | .foreach _ =>
        match isFirst, children.head? with
        | false, some source => return some (← unlessResolving source).elements.elements
        | _, _ => return none
      | .listDestructure | .arrayLiteral => return (← destructured? f n p).map TypeSet.elements
      | _ => return none

/-- The types of the keys of a loop over elements. -/
def loopKeys (source : TypeSet) : TypeSet :=
  if source.keys.isEmpty then .ofList [.named "int", .named "string"] else source.keys

/-- The types of a variable: of the value assigned to it, of the elements it runs over, of what is caught, or of what
it was last given where it is read. -/
def variableTypes (x : Index) (node : NodeId) (name : String) : Strategy TypeSet := do
  let f := x.forest
  if name == "this" then return .ofList (x.thisType? node).toList
  else match f.parent node with
    | none => return {}
    | some p =>
      let children := f.children p
      let isFirst := children.head? == some node
      match f.kind p with
      | .assign _ =>
        if isFirst then maybeUnlessResolving (children.drop 1).head? else readVariable f node name
      | .foreach hasKey =>
        match isFirst, children with
        | false, source :: rest =>
          let types ← unlessResolving source
          if hasKey && rest.head? == some node then return loopKeys types else return types.elements
        | false, [] => return {}
        | true, _ => readVariable f node name
      | .catchClause => all (f.childrenWhere p NodeKind.isName)
      | .listDestructure | .arrayLiteral =>
        match ← destructured? f (f.size + 1) p with
        | some types => return types
        | none => readVariable f node name
      | _ => readVariable f node name

end Strategy

end EventAtlas
