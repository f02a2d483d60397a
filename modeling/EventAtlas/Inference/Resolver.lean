import EventAtlas.Inference.Operators
import EventAtlas.Inference.Properties
import EventAtlas.Inference.Scopes

/-!
# Inference of types

Every node has a set of possible types. What a node is says which other nodes its types come from; these are asked
for in turn, each on top of the stack. The room on the stack that is left bounds the recursion, so inference ends on
every forest.

Declared types count before inferred ones: a function has the types that it declares and documents, and only without
these the types of what it returns.
-/

namespace EventAtlas

namespace Strategy

/-! ## Declarations -/

/-- The types of what a function returns, after those that are known. A recursive call adds nothing. -/
def returned (f : Forest) (types : TypeSet) : List NodeId → Strategy TypeSet
  | [] => return types
  | ret :: rest => do
    match f.firstChild? ret with
    | some value =>
      let found ← unlessResolving value
      returned f (types.union found) rest
    | none => returned f (types.add (.named "void")) rest

/-- The types of a set that are known, or all of them if none is. -/
def preferKnown (types : TypeSet) : TypeSet :=
  if types.known.isEmpty then types else types.known

/-- The types of a function: declared and documented, or else those of what it returns. -/
def functionResult (x : Index) (fn : NodeId) : Strategy TypeSet := do
  let f := x.forest
  let hinted ← maybe (f.typeHint? fn)
  let types := hinted.union (x.documented fn DocBlock.returnType?)
  if !types.isEmpty then return types
  else match f.body? fn with
    | none => return types
    | some body =>
      match Index.returnsOf f body with
      | [] => return .ofName "void"
      | rets => return preferKnown (← returned f types rets)

/-- The types of a parameter that takes all further arguments. -/
def variadicTypes (types : TypeSet) : TypeSet :=
  if types.known.isEmpty then .ofName "array" else .ofList (types.known.toList.map Ty.arrayOf)

def parameter (x : Index) (param : NodeId) (name : String) (variadic promoted : Bool) :
    Strategy TypeSet := do
  let f := x.forest
  let hinted ← maybe (f.typeHint? param)
  let documented := ((f.parent param).map fun fn => x.documented fn (·.paramType? name)).getD {}
  let declared := hinted.union documented
  let types := if variadic then variadicTypes declared else declared
  let types := types.union (← maybe (f.defaultValue? param))
  if promoted then
    collectMaybe (f.enclosingClass? param)
    return types.union (← injectedTypes param)
  else return types

/-! ## Calls and constants -/

/-- The types of a method on several receivers, after those that are known. A receiver without the method adds nothing,
nor does a method that is being resolved. -/
def callOn (x : Index) (name : String) (types : TypeSet) : List Ty → Strategy TypeSet
  | [] => return types
  | receiver :: rest => do
    match (x.classOf? receiver).bind fun c => x.forest.findMethod? c name with
    | none => callOn x name types rest
    | some method =>
      if ← isResolving method then callOn x name types rest
      else
        let result ← Strategy.types method
        callOn x name (types.union (x.lateBound method result receiver)) rest

/-- The types of a call of a method. -/
def call (x : Index) (name : String) : Option NodeId → Strategy TypeSet
  | none => return {}
  | some receiver => do
    let receivers ← types receiver
    callOn x name {} receivers.toList

/-- The types of a constant of a class. -/
def constant (x : Index) (name : String) (scope : Option NodeId) : Strategy TypeSet := do
  if Text.sameLetters name "class" then return .ofName "string"
  else match scope with
    | none => return {}
    | some scope =>
      let classes := x.classesOf (← types scope)
      all (classes.filterMap fun c => x.forest.findConstant? c name)

/-! ## Operations -/

/-- The types of an assignment with an operation. -/
def compoundAssign (op : String) : List NodeId → Strategy TypeSet
  | target :: value :: _ => do
    if op == "??=" then
      let kept := (← unlessResolving target).withoutNull
      return kept.union (← types value)
    else match Operation.compound op with
      | .fixed types => return types
      | .arithmetic =>
        let left ← unlessResolving target
        return Operation.arithmetic (Text.dropRight (· == '=') op) left (← types value)
      | .unknown => types value
  | _ => return {}

/-- The types of an operation on two operands. -/
def binary (op : String) (children : List NodeId) : Strategy TypeSet := do
  match Operation.binary op with
  | .fixed types => return types
  | .unknown => return {}
  | .arithmetic =>
    match children with
    | left :: right :: _ =>
      let left ← types left
      return Operation.arithmetic op left (← types right)
    | _ => return Operation.number

/-- The types of an operation on one operand. -/
def unary (op : String) (operand : Option NodeId) : Strategy TypeSet := do
  if op == "!" then return .ofName "bool"
  else if op == "~" then return .ofName "int"
  else match operand with
    | none => return {}
    | some operand =>
      let types ← types operand
      if ["-", "+", "++", "--"].contains op then return Operation.arithmetic "-" types types else return types

def arraysOf (types : TypeSet) : List Ty :=
  (types.known.toList.filter fun t => !t.isNative && t.element.isNone).map Ty.arrayOf

/-- The types of the elements of an array, after those that are known. Literals add nothing. -/
def elements (f : Forest) (types : TypeSet) : List NodeId → Strategy TypeSet
  | [] => return types
  | c :: rest => do
    match f.kind c with
    | .literal _ => elements f types rest
    | _ =>
      let found ← unlessResolving c
      elements f ((arraysOf found).foldl TypeSet.add types) rest

/-- The types of an element of an array or a text. -/
def subscript : Option NodeId → Strategy TypeSet
  | none => return {}
  | some base => do
    let types ← types base
    return if types.contains "string" then types.elements.add (.named "string") else types.elements

/-- The types of the first operand without null, and those of the second. -/
def coalesce (children : List NodeId) : Strategy TypeSet := do
  let left := (← maybe children.head?).withoutNull
  return left.union (← maybe (children.drop 1).head?)

/-! ## All nodes -/

/-- The types of a node, from those of the nodes that it depends on. -/
def dispatch (x : Index) (node : NodeId) : Strategy TypeSet := do
  let f := x.forest
  let children := f.children node
  match f.kind node with
  | .classDecl .. | .interfaceDecl _ | .traitDecl _ => return .ofList (x.enclosingType? node).toList
  | .method .. | .function _ => functionResult x node
  | .closure _ | .arrowFunction => return .ofName "Closure"
  | .property name _ => property x node name
  | .parameter name variadic _ promoted => parameter x node name variadic promoted.isSome
  | .classConstant _ => maybe ((f.defaultValue? node).or (f.typeHint? node))
  | .nullableType => return (← all children).add .null
  | .unionType | .intersectionType => all children
  | .name text role => return x.nameTypes node text role
  | .var name => variableTypes x node name
  | .assign _ => maybe (children.drop 1).head?
  | .compoundAssign op => compoundAssign op children
  | .staticVariable _ =>
    match children with
    | value :: _ => types value
    | [] => return .ofName "null"
  | .new =>
    match children with
    | c :: _ =>
      match f.kind c with
      | .name .. => types c
      | _ => return {}
    | [] => return {}
  | .methodCall name _ | .staticCall name => call x name children.head?
  | .functionCall => return Index.functionTypes f children.head?
  | .argument .. | .clone => maybe children.head?
  | .propertyFetch name _ | .staticPropertyFetch name => propertyFetch x node name
  | .classConstantFetch name => constant x name children.head?
  | .ternary short => all (if short then children else children.drop 1)
  | .coalesce => coalesce children
  | .binary op => binary (Text.lower op) children
  | .unary op => unary op children.head?
  | .cast target => return Operation.cast target
  | .instanceof => return .ofName "bool"
  | .literal kind => return .ofName kind.typeName
  | .arrayLiteral => elements f (.ofName "array") children
  | .listDestructure => return .ofName "array"
  | .arrayAccess => subscript children.head?
  | .matchExpr => all (f.childrenWhere node NodeKind.isMatchArm)
  | .matchArm _ => maybe children.getLast?
  | .file | .namespaceDecl _ | .importDecl .. | .block | .returnStmt | .expressionStatement | .foreach _
  | .catchClause | .docComment _ | .controlFlow _ | .traitUse | .other _ => return {}

end Strategy

/-! ## Answers -/

namespace Inquiry

/-- A node adds nothing when it depends on itself. -/
def addsNothing : NodeKind → Bool
  | .propertyFetch .. | .staticPropertyFetch _ | .property .. | .parameter .. => true
  | _ => false

/-- The remembered types of a node. A node on the stack adds nothing or is refused. Anything else is resolved. -/
def remembered (f : Forest) (node : NodeId) (resolve : Inquiry TypeSet) : Inquiry TypeSet := do
  match ← act (.lookUp node) with
  | some types => return types
  | none =>
    if ← act (.isResolving node) then
      if addsNothing (f.kind node) then return {}
      else throw (.circular ((← act (.cycle node)).map fun n => (f.kind n).display))
    else resolve

/-- What is found for a node of a kind; a node without types has an unknown one. -/
def orUnknown (kind : NodeKind) (found : TypeSet) : TypeSet :=
  if found.isEmpty then .unknown kind.tag else found

def framed (f : Forest) (node : NodeId) (resolve : Inquiry TypeSet) : Inquiry TypeSet := ExceptT.mk do
  Dialogue.question (Act.enter node)
  let result := (← resolve.run).map (orUnknown (f.kind node))
  Dialogue.question (Act.leave node result.toOption)
  return result

/-- The answer to what a sweep asks; `types` resolves nodes. -/
def answerSweep (types : NodeId → Inquiry TypeSet) : (q : SweepQuestion) → Inquiry q.Answer
  | .types node => types node
  | .isResolving node => act (.isResolving node)
  | .current => act .current
  | .change g => act (.changeVariables g)
  | .read node name => act (.rememberRead node name)

/-- Sweep a scope, unless that has been done or is under way. -/
def sweep (x : Index) (types : NodeId → Inquiry TypeSet) (scope : NodeId) : Inquiry PUnit := ExceptT.mk do
  let begun : Bool ← Dialogue.question (Act.beginSweep scope)
  if begun then
    let result ← ((Sweeping.scope x scope).interpret (answerSweep types)).run
    Dialogue.question (Act.endSweep scope result.isOk)
    return result
  else return .ok ()

/-- The types of a variable at a node that reads it in a scope. -/
def readVariable (x : Index) (types : NodeId → Inquiry TypeSet) (node scope : NodeId) (name : String) :
    Inquiry TypeSet := do
  match ← act (.readAhead scope name) with
  | some found => return found
  | none =>
    sweep x types scope
    act (.readBehind node scope)

/-- The answer to what a strategy asks; `types` resolves nodes. -/
def answer (x : Index) (types : NodeId → Inquiry TypeSet) : (q : NodeQuestion) → Inquiry q.Answer
  | .types node => types node
  | .isResolving node => act (.isResolving node)
  | .read node scope name => readVariable x types node scope name
  | .collect c => act (.collect x.forest c)
  | .writesTo decl => act (.writesTo decl)
  | .looseWrites owner name => act (.looseWrites owner name)

/-- The types of a node with room for so many nodes on a stack with this limit. -/
def resolveWithin (x : Index) (limit : Nat) : Nat → NodeId → Inquiry TypeSet
  | 0, node => remembered x.forest node (throw (.depthExceeded limit (x.forest.kind node).display))
  | room + 1, node =>
    remembered x.forest node
      (framed x.forest node ((Strategy.dispatch x node).interpret (answer x (resolveWithin x limit room))))

end Inquiry

def defaultMaxDepth : Nat := 512

def Index.resolve (x : Index) (limit : Nat) (node : NodeId) : Resolve TypeSet :=
  (Inquiry.resolveWithin x limit limit node).perform

end EventAtlas
