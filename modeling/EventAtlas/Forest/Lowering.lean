import EventAtlas.Digest
import EventAtlas.Forest.Arena
import EventAtlas.Forest.Import
import EventAtlas.Syntax.Statement

/-!
# Nodes of a syntax tree

Every phrase that matters to inference becomes a node; the nodes of its parts are made before it, and the node of the
file is the last one. A phrase without a meaning of its own becomes a node that keeps the name of its rule, with the
nodes of its parts, so no assignment or call inside is lost.

Statements after a namespace without a block belong to it up to the next namespace. A documentation comment before a
declaration is the first child of the declaration; among statements any other documentation comment is a node of its
own, among members it is dropped.
-/

namespace EventAtlas

open Syntax

namespace Lowering

/-- What adds nodes to a forest. -/
abbrev Build := StateM Forest

/-- As what a phrase is lowered. -/
inductive Form where
  /-- A statement, or a value if it is none. -/
  | phrase
  /-- A value, which is one node at most. -/
  | value
  /-- A declared type, which is one node at most. -/
  | type
  /-- A declaration with the documentation before it. -/
  | declared (doc : Option Tree)
deriving Repr

/-- What lowers the phrases inside of a phrase. -/
abbrev Sub := Form → Tree → Build (List NodeId)

/-- The place of a phrase. -/
def spanOf (e : Extent) : Span :=
  ⟨e.start, e.stop, e.row + 1⟩

/-- Add a node for a phrase. -/
def push (kind : NodeKind) (e : Extent) (children : List NodeId) : Build NodeId :=
  modifyGet fun f => (f.size, f.push { kind, span := spanOf e, children })

def one (kind : NodeKind) (t : Tree) (children : List NodeId) : Build (List NodeId) := do
  return [← push kind t.extent children]

/-- The nodes of several phrases, one after the other. -/
def each (lower : Tree → Build (List NodeId)) : List Tree → Build (List NodeId)
  | [] => return []
  | t :: rest => do
    let first ← lower t
    let more ← each lower rest
    return first ++ more

/-- The nodes of a phrase that may be missing. -/
def maybe (lower : Tree → Build (List NodeId)) : Option Tree → Build (List NodeId)
  | some t => lower t
  | none => return []

/-- The nodes of all parts of a phrase. -/
def flat (sub : Sub) (t : Tree) : Build (List NodeId) :=
  each (sub .phrase) t.parts

/-! ## Words -/

/-- The name of a variable: its words without the signs before it. -/
def variableWords (src : Source) (t : Tree) : String :=
  Text.dropLeft (· == '$') (Text.dropLeft (· == '&') (src.words t))

def nameWords (src : Source) (t : Tree) : String :=
  ((t.part? .name).map src.words).getD ""

/-- The name of a member, empty if it is computed. -/
def memberWords (src : Source) (t : Tree) : String :=
  match t.part? .name with
  | some n => if n.kind = .name then src.words n else ""
  | none => ""

def leftSide? (t : Tree) : Option Tree :=
  (t.part? .left).or t.parts.head?

def rightSide? (t : Tree) : Option Tree :=
  (t.part? .right).or t.parts.getLast?

/-- The words of the operator: of the part that is one, or between the two sides. -/
def operatorWords (src : Source) (t : Tree) : String :=
  match t.part? .operator, leftSide? t, rightSide? t with
  | some op, _, _ => Text.trim (src.words op)
  | none, some left, some right =>
    if left.extent.stop ≤ right.extent.start then Text.trim (src.text ⟨left.extent.stop, right.extent.start, 0⟩)
    else ""
  | _, _, _ => ""

/-- A documentation comment. -/
def isDoc (src : Source) (t : Tree) : Bool :=
  t.kind = .comment && Text.startsWith "/**" (src.words t)

/-- The modifiers among the parts of a declaration. -/
def modifiersOf (src : Source) (t : Tree) : Modifiers :=
  t.children.foldl
    (fun m c => match c.kind with
      | .visibilityModifier =>
        let visibility := match Text.lower (src.words c) with
          | "private" => Visibility.isPrivate
          | "protected" => .isProtected
          | _ => .isPublic
        { m with visibility }
      | .staticModifier => { m with isStatic := true }
      | .abstractModifier => { m with isAbstract := true }
      | .finalModifier => { m with isFinal := true }
      | .readonlyModifier => { m with isReadonly := true }
      | _ => m)
    {}

/-! ## Names, literals and comments -/

def nameNode (src : Source) (role : NameRole) (t : Tree) : Build (List NodeId) :=
  one (.name (Text.trim (src.words t)) role) t []

def variableNode (src : Source) (t : Tree) : Build (List NodeId) :=
  one (.var (variableWords src t)) t []

/-- A documentation comment. -/
def docNode (src : Source) (t : Tree) : Build (List NodeId) :=
  one (.docComment (src.words t)) t []

def clauseNames (src : Source) (role : NameRole) (t : Tree) : Build (List NodeId) :=
  each (nameNode src role) (t.parts.filter fun c => c.kind.isName)

/-! ## Declared types -/

def type (src : Source) (sub : Sub) (t : Tree) : Build (List NodeId) :=
  match t.kind with
  | .typeName => nameNode src .typeHint (t.parts.head?.getD t)
  | .primitiveType => nameNode src .typeHint t
  | .optionalType => do
    let inner ← maybe (sub .type) t.parts.head?
    one .nullableType t inner
  | .unionType | .typeList => do one .unionType t (← each (sub .type) t.parts)
  | .intersectionType => do one .intersectionType t (← each (sub .type) t.parts)
  | k =>
    if k.isName then nameNode src .typeHint t
    else match t.parts.head? with
      | some inner => sub .type inner
      | none => if (Text.trim (src.words t)).isEmpty then return [] else nameNode src .typeHint t

/-- The kind of a phrase that declares a type. -/
def isType : Kind → Bool
  | .typeName | .primitiveType | .optionalType | .unionType | .intersectionType | .typeList => true
  | _ => false

/-- The declared type of a declaration. -/
def typePart? (t : Tree) : Option Tree :=
  (t.part? .type).or (t.parts.find? fun p => isType p.kind)

/-! ## Functions -/

def parameterNode (src : Source) (sub : Sub) (t : Tree) : Build (List NodeId) := do
  let words := src.words t
  let named := (t.part? .name).or (t.parts.find? fun p => p.kind = .variableName)
  let name := (named.map (variableWords src)).getD ""
  let variadic := t.kind = .variadicParameter || Text.contains "..." words
  let byRef := (t.parts.any fun p => p.kind = .referenceMark) || Text.contains "&$" words
  let promoted := if t.kind = .promotedParameter then some (modifiersOf src t) else none
  let typed ← maybe (sub .type) (typePart? t)
  let value ← maybe (sub .value) (t.part? .defaultValue)
  one (.parameter name variadic byRef promoted) t (typed ++ value)

def parameterNodes (src : Source) (sub : Sub) (t : Tree) : Build (List NodeId) :=
  each (parameterNode src sub) (t.parts.filter fun p => p.kind.isParameter)

def parametersOf (src : Source) (sub : Sub) (t : Tree) : Build (List NodeId) :=
  maybe (parameterNodes src sub) (t.part? .parameters)

def functionNode (src : Source) (sub : Sub) (doc : List NodeId) (t : Tree) : Build (List NodeId) := do
  let ps ← parametersOf src sub t
  let returned ← maybe (sub .type) (t.part? .returnType)
  let body ← maybe (sub .phrase) (t.part? .body)
  let name := nameWords src t
  let kind := if t.kind = .methodDeclaration then NodeKind.method name (modifiersOf src t) else .function name
  one kind t (doc ++ ps ++ returned ++ body)

/-- A variable that a closure takes along. -/
def usedVariable (src : Source) (t : Tree) : Build (List NodeId) :=
  let v := if t.kind = .byReference then t.parts.head?.getD t else t
  if v.kind = .variableName then variableNode src v else return []

def closureNode (src : Source) (sub : Sub) (t : Tree) : Build (List NodeId) := do
  let isStatic := t.children.any fun c => c.kind = .staticModifier || src.words c == "static"
  let ps ← parametersOf src sub t
  let used ← each (fun c => each (usedVariable src) c.parts) (t.parts.filter fun c => c.kind = .useClause)
  let returned ← maybe (sub .type) (t.part? .returnType)
  let body ← maybe (sub .phrase) (t.part? .body)
  one (.closure isStatic) t (ps ++ used ++ returned ++ body)

def arrowNode (src : Source) (sub : Sub) (t : Tree) : Build (List NodeId) := do
  let ps ← parametersOf src sub t
  let returned ← maybe (sub .type) (t.part? .returnType)
  let body ← maybe (sub .value) (t.part? .body)
  one .arrowFunction t (ps ++ returned ++ body)

/-! ## Properties and constants -/

/-- The part of a property that names it. -/
def propertyName? (t : Tree) : Option Tree :=
  (t.part? .name).or (t.parts.find? fun p => p.kind = .variableName)

/-- The value that a property starts with: the part for it, or the first phrase beside the name. -/
def initialValue? (t : Tree) : Option Tree :=
  let beside := if (t.part? .name).isSome then t.partsBeside .name else t.parts.eraseP fun p => p.kind = .variableName
  (t.part? .defaultValue).or (beside.head?.map fun p =>
    if p.kind = .propertyInitializer then p.parts.head?.getD p else p)

/-- A property of a declaration that has a name. -/
def isNamedProperty (t : Tree) : Bool :=
  t.kind = .propertyElement && (propertyName? t).isSome

/-- One property of a declaration, with the nodes of its documentation. -/
def propertyNode (src : Source) (sub : Sub) (mods : Modifiers) (typed : Option Tree) (doc : List NodeId) (t : Tree) :
    Build (List NodeId) := do
  let name := ((propertyName? t).map (variableWords src)).getD ""
  let type ← maybe (sub .type) typed
  let value ← maybe (sub .value) (initialValue? t)
  one (.property name mods) t (doc ++ type ++ value)

/-- The properties after the first, each with a documentation node of its own. -/
def furtherProperties (src : Source) (sub : Sub) (mods : Modifiers) (typed : Option Tree) (text : Option String) :
    List Tree → Build (List NodeId) :=
  each fun t => do
    let doc ← match text with
      | some text => one (.docComment text) t []
      | none => pure []
    propertyNode src sub mods typed doc t

/-- The properties of a declaration. All of them share its documentation: the first takes the node itself. -/
def propertyNodes (src : Source) (sub : Sub) (doc : Option Tree) (t : Tree) : Build (List NodeId) := do
  let docNodes ← maybe (docNode src) doc
  let mods := modifiersOf src t
  let typed := typePart? t
  match t.parts.filter isNamedProperty with
  | [] => return []
  | first :: rest =>
    let head ← propertyNode src sub mods typed docNodes first
    let more ← furtherProperties src sub mods typed (doc.map src.words) rest
    return head ++ more

/-- A constant of a declaration that has a name. -/
def isNamedConstant (t : Tree) : Bool :=
  t.kind = .constElement && !t.parts.isEmpty

/-- One constant of a declaration, with the nodes of its documentation. -/
def constantNode (src : Source) (sub : Sub) (typed : Option Tree) (doc : List NodeId) (t : Tree) :
    Build (List NodeId) := do
  let name := (t.parts.head?.map src.words).getD ""
  let type ← maybe (sub .type) typed
  let value ← maybe (sub .value) (t.parts.drop 1).head?
  one (.classConstant name) t (doc ++ type ++ value)

/-- The constants of a declaration; the first takes the documentation. -/
def constantNodes (src : Source) (sub : Sub) (doc : List NodeId) (t : Tree) : Build (List NodeId) := do
  let typed := typePart? t
  match t.parts.filter isNamedConstant with
  | [] => return []
  | first :: rest =>
    let head ← constantNode src sub typed doc first
    let more ← each (constantNode src sub typed []) rest
    return head ++ more

/-! ## Class-like declarations -/

/-- The members of a class; `pending` is the documentation before the next one. -/
def memberNodes (src : Source) (sub : Sub) (pending : Option Tree) : List Tree → Build (List NodeId)
  | [] => return []
  | t :: rest => do
    if t.kind = .comment then
      memberNodes src sub (if isDoc src t then some t else pending) rest
    else if t.kind = .traitUse then
      let names ← clauseNames src .traitUse t
      let use ← one .traitUse t names
      return use ++ (← memberNodes src sub none rest)
    else if t.kind.isDocumented then
      let nodes ← sub (.declared pending) t
      return nodes ++ (← memberNodes src sub none rest)
    else memberNodes src sub none rest

/-- A part of a class-like declaration: names of other classes, or members. An interface implements nothing, and a trait
has members only. -/
def classPart (src : Source) (sub : Sub) (owner : Kind) (t : Tree) : Build (List NodeId) :=
  match owner, t.kind with
  | _, .memberList => memberNodes src sub none t.phrases
  | .traitDeclaration, _ => return []
  | _, .baseClause => clauseNames src .extends t
  | .interfaceDeclaration, _ => return []
  | _, .interfaceClause => clauseNames src .implements t
  | _, .caseList => memberNodes src sub none t.phrases
  | _, _ => return []

/-- A class-like declaration. An enumeration is a final class. -/
def classNode (src : Source) (sub : Sub) (doc : List NodeId) (t : Tree) : Build (List NodeId) := do
  let parts ← each (classPart src sub t.kind) t.parts
  let name := nameWords src t
  let mods := modifiersOf src t
  let kind := match t.kind with
    | .interfaceDeclaration => NodeKind.interfaceDecl name
    | .traitDeclaration => .traitDecl name
    | .enumDeclaration => .classDecl name { mods with isFinal := true }
    | _ => .classDecl name mods
  one kind t (doc ++ parts)

/-- A declaration with the documentation before it. -/
def declaration (src : Source) (sub : Sub) (doc : Option Tree) (t : Tree) : Build (List NodeId) :=
  match t.kind with
  | .propertyDeclaration => propertyNodes src sub doc t
  | .constDeclaration => do constantNodes src sub (← maybe (docNode src) doc) t
  | .classDeclaration | .enumDeclaration | .interfaceDeclaration | .traitDeclaration => do
    classNode src sub (← maybe (docNode src) doc) t
  | _ => do functionNode src sub (← maybe (docNode src) doc) t

/-! ## Statements -/

/-- A namespace whose statements are not in a block. -/
def isOpenNamespace (t : Tree) : Bool :=
  t.kind = .namespaceDefinition && (t.part? .body).isNone

/-- The place of a namespace without a block, which reaches to the end of the last phrase in it. -/
def reaching (t : Tree) (inside : List Tree) : Extent :=
  let last := inside.getLast?.getD t
  { t.extent with stop := max last.extent.stop t.extent.stop }

/-- A list of statements; `pending` is the documentation before the next one, and `n` bounds the number of
phrases. -/
def statementNodes (src : Source) (sub : Sub) : Nat → Option Tree → List Tree → Build (List NodeId)
  | 0, _, _ => return []
  | _ + 1, pending, [] => maybe (docNode src) pending
  | n + 1, pending, t :: rest => do
    if t.kind = .comment then
      if isDoc src t then
        let flushed ← maybe (docNode src) pending
        return flushed ++ (← statementNodes src sub n (some t) rest)
      else statementNodes src sub n pending rest
    else if isOpenNamespace t then
      let flushed ← maybe (docNode src) pending
      let inside := rest.takeWhile fun s => s.kind ≠ .namespaceDefinition
      let after := rest.dropWhile fun s => s.kind ≠ .namespaceDefinition
      let children ← statementNodes src sub n none inside
      let id ← push (.namespaceDecl (nameWords src t)) (reaching t inside) children
      return flushed ++ id :: (← statementNodes src sub n none after)
    else if t.kind.isDocumented then
      let nodes ← declaration src sub pending t
      return nodes ++ (← statementNodes src sub n none rest)
    else
      let flushed ← maybe (docNode src) pending
      let nodes ← sub .phrase t
      return flushed ++ nodes ++ (← statementNodes src sub n none rest)

/-- All statements inside of a phrase. -/
def statementsOf (src : Source) (sub : Sub) (t : Tree) : Build (List NodeId) :=
  statementNodes src sub (t.phrases.length + 1) none t.phrases

def namespaceNode (src : Source) (sub : Sub) (t : Tree) : Build (List NodeId) := do
  let children ← maybe (statementsOf src sub) (t.part? .body)
  one (.namespaceDecl (nameWords src t)) t children

/-- The imports of a declaration, a node for each. -/
def importNodes (src : Source) (t : Tree) : Build (List NodeId) := do
  let imports := (Import.ofText? (src.words t)).getD []
  imports.mapM fun i => push (.importDecl i.kind i.name i.short) t.extent []

/-- One variable that is kept between calls. -/
def staticNode (src : Source) (sub : Sub) (t : Tree) : Build (List NodeId) := do
  match (t.part? .name).or t.parts.head? with
  | none => return []
  | some v =>
    let value ← maybe (sub .value) ((t.part? .value).or (t.parts.drop 1).head?)
    one (.staticVariable (variableWords src v)) t value

def foreachNode (sub : Sub) (t : Tree) : Build (List NodeId) := do
  let source ← maybe (sub .value) t.parts.head?
  let (hasKey, targets) := match (t.parts.drop 1).head? with
    | some p =>
      if p.kind = .pair then
        match p.parts with
        | key :: value :: _ => (true, [key, value])
        | _ => (false, [])
      else (false, [p])
    | none => (false, [])
  let targets ← each (sub .value) targets
  let body ← maybe (sub .phrase) ((t.part? .body).or (t.parts.drop 2).head?)
  one (.foreach hasKey) t (source ++ targets ++ body)

def catchPart (src : Source) (sub : Sub) (t : Tree) : Build (List NodeId) :=
  match t.kind with
  | .variableName => variableNode src t
  | .compoundStatement => sub .phrase t
  | _ => each (nameNode src .typeHint) t.names

def statement? (src : Source) (sub : Sub) (t : Tree) : Option (Build (List NodeId)) :=
  match t.kind with
  | .compoundStatement => some do one .block t (← statementsOf src sub t)
  | .expressionStatement => some do one .expressionStatement t (← flat sub t)
  | .returnStatement => some do one .returnStmt t (← flat sub t)
  | .controlFlow rule => some do one (.controlFlow rule) t (← flat sub t)
  | .namespaceDefinition => some (namespaceNode src sub t)
  | .importDeclaration => some (importNodes src t)
  | .foreachStatement => some (foreachNode sub t)
  | .catchClause => some do one .catchClause t (← each (catchPart src sub) t.parts)
  | .staticDeclaration => some (each (staticNode src sub) (t.parts.filter fun c => c.kind = .staticVariable))
  | k => if k.isDocumented then some (declaration src sub none t) else none

/-! ## Values -/

/-- A class in an expression: a name, or a value. -/
def scopeNode (src : Source) (sub : Sub) (t : Tree) : Build (List NodeId) :=
  if t.kind.isName then nameNode src .classRef t else sub .value t

/-- The two sides of a phrase. -/
def sides (sub : Sub) (t : Tree) : Build (List NodeId) := do
  let left ← maybe (sub .value) (leftSide? t)
  let right ← maybe (sub .value) (rightSide? t)
  return left ++ right

/-- The value of an argument: what stands beside its name, without the sign that spreads it. -/
def argumentValue? (t : Tree) : Option Tree :=
  (t.partsBeside .name).getLast?.bind fun v => if v.kind = .variadicUnpacking then v.parts.head? else some v

/-- One argument of a call. Dots in the place of the arguments are none. -/
def argumentNode (src : Source) (sub : Sub) (t : Tree) : Build (List NodeId) :=
  match t.kind with
  | .argument => do
    let unpack := Text.startsWith "..." (Text.trimStart (src.words t))
    let children ← maybe (sub .value) (argumentValue? t)
    one (.argument ((t.part? .name).map src.words) unpack) t children
  | .variadicUnpacking => do one (.argument none true) t (← maybe (sub .value) t.parts.head?)
  | .mark "variadic_placeholder" => return []
  | _ => do one (.argument none false) t (← sub .value t)

def argumentsOf (src : Source) (sub : Sub) (t : Tree) : Build (List NodeId) :=
  maybe (fun list => each (argumentNode src sub) list.parts)
    ((t.part? .arguments).or (t.parts.find? fun c => c.kind = .arguments))

/-- A part of a new object: the class if it stands first, or a class without a name. -/
def createdNode (src : Source) (sub : Sub) (isFirst : Bool) (t : Tree) : Build (List NodeId) :=
  if t.kind = .arguments then return []
  else if t.kind = .anonymousClass then one (.other t.kind.rule) t []
  else if isFirst then scopeNode src sub t
  else return []

def newNode (src : Source) (sub : Sub) (t : Tree) : Build (List NodeId) := do
  let named ← each (createdNode src sub true) (t.parts.take 1)
  let more ← each (createdNode src sub false) (t.parts.drop 1)
  let args ← argumentsOf src sub t
  one .new t (named ++ more ++ args)

def callNode (src : Source) (sub : Sub) (t : Tree) : Build (List NodeId) := do
  let callee ← match t.part? .function with
    | some f => if f.kind.isName then nameNode src .function f else sub .value f
    | none => pure []
  let args ← argumentsOf src sub t
  one .functionCall t (callee ++ args)

/-- A conditional; it is short if nothing stands between its signs. -/
def conditionalNode (sub : Sub) (t : Tree) : Build (List NodeId) := do
  let body := (t.part? .body).or (if 3 ≤ t.parts.length then (t.parts.drop 1).head? else none)
  let sides := [(t.part? .condition).or t.parts.head?, body, (t.part? .alternative).or t.parts.getLast?]
  let children ← each (sub .value) (sides.filterMap id)
  one (.ternary body.isNone) t children

/-- An operator between two operands. -/
def binaryNode (src : Source) (sub : Sub) (t : Tree) : Build (List NodeId) := do
  let op := operatorWords src t
  if Text.sameLetters op "instanceof" then
    let left ← maybe (sub .value) (leftSide? t)
    let right ← maybe (scopeNode src sub) (rightSide? t)
    one .instanceof t (left ++ right)
  else
    let children ← sides sub t
    one (if op == "??" then .coalesce else .binary op) t children

/-- A sign before or after an operand. The sign is what is left of the words without those of the operand. -/
def unaryNode (src : Source) (sub : Sub) (t : Tree) : Build (List NodeId) := do
  match t.parts.head? with
  | none => one (.unary "") t []
  | some inner =>
    let op := Text.trim (Text.eraseFirst (src.words inner) (src.words t))
    let children ← sub .value inner
    one (.unary op) t children

def castNode (src : Source) (sub : Sub) (t : Tree) : Build (List NodeId) := do
  let isEdge (c : Char) : Bool := c == '(' || c == ')' || Text.isBlank c
  let target := ((t.part? .type).map fun w => Text.lower (Text.dropBoth isEdge (src.words w))).getD ""
  let children ← maybe (sub .value) ((t.part? .value).or t.parts.getLast?)
  one (.cast target) t children

/-- One arm of a match: what is marked as its conditions, and its result. -/
def armNode (sub : Sub) (t : Tree) : Build (List NodeId) := do
  let conditions ← maybe (flat sub) (t.part? .conditions)
  let result ← maybe (sub .value) ((t.part? .result).or t.parts.getLast?)
  one (.matchArm (t.kind = .matchDefault)) t (conditions ++ result)

def matchNode (sub : Sub) (t : Tree) : Build (List NodeId) := do
  let condition ← maybe (sub .value) (t.part? .condition)
  let arms ← maybe (fun b => each (armNode sub) b.parts)
    ((t.part? .body).or (t.parts.find? fun p => p.kind = .matchBlock))
  one .matchExpr t (condition ++ arms)

/-- An element of an array, with its key if it has one. -/
def elementNodes (sub : Sub) (t : Tree) : Build (List NodeId) :=
  if t.kind = .arrayElement then flat sub t else sub .phrase t

/-- A phrase that can stand for a value though it is a statement. -/
def isStatementValue : Kind → Bool
  | .compoundStatement | .expressionStatement | .returnStatement | .controlFlow _ => true
  | k => k.isDocumented

def value (src : Source) (sub : Sub) (t : Tree) : Build (List NodeId) := do
  match t.kind with
  | .parenthesized | .byReference | .errorSuppression => maybe (sub .value) t.parts.head?
  | .variableName => variableNode src t
  | .name | .qualifiedName => nameNode src .constant t
  | .integer => one (.literal .int) t []
  | .float => one (.literal .float) t []
  | .string => one (.literal .string) t []
  | .boolean => one (.literal .bool) t []
  | .null => one (.literal .null) t []
  | .assignment => one (.assign false) t (← sides sub t)
  | .referenceAssignment => one (.assign true) t (← sides sub t)
  | .augmentedAssignment => one (.compoundAssign (operatorWords src t)) t (← sides sub t)
  | .objectCreation => newNode src sub t
  | .memberCall nullsafe =>
    let object ← maybe (sub .value) (t.part? .object)
    let args ← argumentsOf src sub t
    one (.methodCall (memberWords src t) nullsafe) t (object ++ args)
  | .scopedCall =>
    let scope ← maybe (scopeNode src sub) (t.part? .scope)
    let args ← argumentsOf src sub t
    one (.staticCall (memberWords src t)) t (scope ++ args)
  | .functionCall => callNode src sub t
  | .memberAccess nullsafe =>
    let object ← maybe (sub .value) (t.part? .object)
    one (.propertyFetch (memberWords src t) nullsafe) t object
  | .scopedProperty =>
    let scope ← maybe (scopeNode src sub) (t.part? .scope)
    let name := ((t.part? .name).map (variableWords src)).getD ""
    one (.staticPropertyFetch name) t scope
  | .classConstant =>
    let scope ← maybe (scopeNode src sub) t.parts.head?
    let name := ((t.parts.drop 1).head?.map src.words).getD ""
    one (.classConstantFetch name) t scope
  | .conditional => conditionalNode sub t
  | .binary => binaryNode src sub t
  | .unary | .update => unaryNode src sub t
  | .cast => castNode src sub t
  | .clone => one .clone t (← flat sub t)
  | .matchExpression => matchNode sub t
  | .closure => closureNode src sub t
  | .arrowFunction => arrowNode src sub t
  | .arrayCreation => one .arrayLiteral t (← each (elementNodes sub) t.parts)
  | .subscript => one .arrayAccess t (← flat sub t)
  | .listLiteral => one .listDestructure t (← flat sub t)
  | .anonymousClass => one (.other t.kind.rule) t []
  | k =>
    if k.isSkipped then return []
    else if isStatementValue k then
      match statement? src sub t with
      | some nodes => return (← nodes).take 1
      | none => return []
    else one (.other k.rule) t (← flat sub t)

/-- A phrase as a statement, or as a value if it is none. -/
def phrase (src : Source) (sub : Sub) (t : Tree) : Build (List NodeId) :=
  if t.kind.isSkipped then return []
  else match statement? src sub t with
    | some nodes => nodes
    | none => value src sub t

/-- The nodes of a phrase with at most `n` levels. -/
def lower (src : Source) : Nat → Sub
  | 0 => fun _ _ => return []
  | n + 1 => fun
    | .phrase => phrase src (lower src n)
    | .value => value src (lower src n)
    | .type => type src (lower src n)
    | .declared doc => declaration src (lower src n) doc

def programNode (src : Source) (t : Tree) : Build NodeId := do
  let children ← statementsOf src (lower src t.height) t
  push .file t.extent children

end Lowering

namespace Forest

/-- The forest of one file whose tree is known. -/
def ofTree (path : String) (source : Source) (tree : Tree) : Forest :=
  let (root, forest) := (Lowering.programNode source tree).run {}
  forest.addFile ⟨path, Digest.sha256 source, root⟩

/-- The forest of one file, nothing if the file does not follow the grammar. -/
def ofSource? (path : String) (source : Source) : Option Forest :=
  (Tree.ofSource source).map (ofTree path source)

end Forest

end EventAtlas
