import EventAtlas.Forest.Scope

/-!
# Forests

A forest keeps the nodes of all files in one arena; a node is known by its position. Files and name scopes are
lists beside it, and a later entry for the same node takes the place of an earlier one when they are searched.

Walks along child and parent links stop after as many steps as there are nodes. In a forest whose links form
trees no walk gets that far, so the bound only makes the walks total.
-/

namespace EventAtlas

/-- A file and the node that holds it. -/
structure SourceFile where
  path : String := ""
  contentHash : String := ""
  root : NodeId := 0
deriving Inhabited, Repr, DecidableEq

/-- Nodes of any number of files. -/
structure Forest where
  nodes : Array Node := #[]
  files : List SourceFile := []
  nameScopes : List NameScope := []
deriving Inhabited, Repr

namespace Forest

def empty : Forest := {}

def size (f : Forest) : Nat :=
  f.nodes.size

/-- The positions of all nodes in ascending order. -/
def ids (f : Forest) : List NodeId :=
  List.range f.size

/-- The node at a position; beyond the arena there is a node without meaning. -/
def node (f : Forest) (id : NodeId) : Node :=
  f.nodes.getD id {}

def kind (f : Forest) (id : NodeId) : NodeKind :=
  (f.node id).kind

def children (f : Forest) (id : NodeId) : List NodeId :=
  (f.node id).children

def parent (f : Forest) (id : NodeId) : Option NodeId :=
  (f.node id).parent

def modify (f : Forest) (id : NodeId) (g : Node → Node) : Forest :=
  { f with nodes := f.nodes.modify id g }

/-- The forest with one more node, which is the last. -/
def push (f : Forest) (n : Node) : Forest :=
  { f with nodes := f.nodes.push n }

def addFile (f : Forest) (file : SourceFile) : Forest :=
  { f with files := f.files ++ [file] }

/-! ## Name scopes -/

def nameScope? (f : Forest) (id : NodeId) : Option NameScope :=
  f.nameScopes.reverse.find? fun s => s.node == id

/-- Put `scope` in the place of the first scope of the same node. -/
def replaceScope (scope : NameScope) : List NameScope → List NameScope
  | [] => []
  | s :: rest => if s.node == scope.node then scope :: rest else s :: replaceScope scope rest

/-- Record the scope that a node opens, in the place of the last one recorded for it. -/
def setNameScope (f : Forest) (scope : NameScope) : Forest :=
  if (f.nameScope? scope.node).isSome then
    { f with nameScopes := (replaceScope scope f.nameScopes.reverse).reverse }
  else { f with nameScopes := f.nameScopes ++ [scope] }

/-! ## Joining forests -/

/-- The node with all its links moved by `offset`. -/
def shiftNode (offset : Nat) (n : Node) : Node :=
  { n with
    children := n.children.map (· + offset)
    parent := n.parent.map (· + offset)
    declaration := n.declaration.map (· + offset) }

/-- The forest with the nodes, files and scopes of another one after its own. -/
def absorb (f other : Forest) : Forest :=
  let offset := f.size
  let joined : Forest :=
    { f with
      nodes := f.nodes ++ other.nodes.map (shiftNode offset)
      files := f.files ++ other.files.map fun file => { file with root := file.root + offset } }
  other.nameScopes.foldl
    (fun g scope => g.setNameScope { scope with node := scope.node + offset }) joined

/-! ## Upward walks -/

/-- A node and what is above it, nearest first, for at most `n` nodes. -/
def climb (f : Forest) : Nat → NodeId → List NodeId
  | 0, _ => []
  | n + 1, id =>
    id :: match f.parent id with
      | some up => f.climb n up
      | none => []

/-- The node itself and its ancestors, nearest first. -/
def lineage (f : Forest) (id : NodeId) : List NodeId :=
  f.climb (f.size + 1) id

def ancestors (f : Forest) (id : NodeId) : List NodeId :=
  (f.lineage id).drop 1

/-- The nearest ancestor whose kind satisfies `p`. -/
def enclosing? (f : Forest) (id : NodeId) (p : NodeKind → Bool) : Option NodeId :=
  (f.ancestors id).find? fun a => p (f.kind a)

/-- The nearest class-like around a node. -/
def enclosingClass? (f : Forest) (id : NodeId) : Option NodeId :=
  f.enclosing? id NodeKind.isClassLike

/-- The nearest function-like around a node. -/
def enclosingFunction? (f : Forest) (id : NodeId) : Option NodeId :=
  f.enclosing? id NodeKind.isFunctionLike

/-- A node that has variables of its own. An arrow function shares those around it. -/
def ownsVariables : NodeKind → Bool
  | .method .. | .function _ | .closure _ | .file => true
  | _ => false

/-- The nearest node around that has variables of its own. -/
def variableScope? (f : Forest) (id : NodeId) : Option NodeId :=
  f.enclosing? id ownsVariables

def fileByRoot? (f : Forest) (root : NodeId) : Option SourceFile :=
  f.files.reverse.find? fun file => file.root == root

def fileOf? (f : Forest) (id : NodeId) : Option SourceFile :=
  (f.lineage id).getLast?.bind f.fileByRoot?

def nameScopeFor? (f : Forest) (id : NodeId) : Option NameScope :=
  (f.lineage id).findSome? f.nameScope?

/-! ## Children by meaning -/

def childrenWhere (f : Forest) (id : NodeId) (p : NodeKind → Bool) : List NodeId :=
  (f.children id).filter fun c => p (f.kind c)

/-- The text of the documentation comment attached to a node. -/
def docComment? (f : Forest) (id : NodeId) : Option String :=
  (f.children id).findSome? fun c =>
    match f.kind c with
    | .docComment text => some text
    | _ => none

/-- The declared type; of a function-like, the return type. -/
def typeHint? (f : Forest) (id : NodeId) : Option NodeId :=
  (f.children id).find? fun c => (f.kind c).isTypeHint

/-- The default value of a parameter or property, or the value of a constant. -/
def defaultValue? (f : Forest) (id : NodeId) : Option NodeId :=
  (f.children id).find? fun c => !(f.kind c).isTypeHint && !(f.kind c).isDocComment

def parameters (f : Forest) (id : NodeId) : List NodeId :=
  f.childrenWhere id NodeKind.isParameter

/-- The body of a function-like: its block, or the expression of an arrow function. -/
def body? (f : Forest) (id : NodeId) : Option NodeId :=
  match f.kind id with
  | .arrowFunction =>
    (f.children id).reverse.find? fun c => !(f.kind c).isTypeHint && !(f.kind c).isParameter
  | _ => (f.children id).find? fun c => f.kind c == .block

/-- The arguments of a call or an instantiation. -/
def arguments (f : Forest) (id : NodeId) : List NodeId :=
  f.childrenWhere id fun
    | .argument .. => true
    | _ => false

/-- The first child: a receiver, a scope, a callee or an operand. -/
def firstChild? (f : Forest) (id : NodeId) : Option NodeId :=
  (f.children id).head?

def members (f : Forest) (id : NodeId) : List NodeId :=
  f.childrenWhere id fun
    | .method .. | .property .. | .classConstant _ | .traitUse => true
    | _ => false

def namesWithRole (f : Forest) (id : NodeId) (role : NameRole) : List NodeId :=
  f.childrenWhere id fun
    | .name _ r => r == role
    | _ => false

/-- The qualified name of a name, or its text if it has none. -/
def nameOf? (f : Forest) (id : NodeId) : Option String :=
  match f.kind id with
  | .name text _ => some ((f.node id).resolvedName.getD text)
  | _ => none

/-- A node and everything below it, in source order, at most `n` levels deep. -/
def descend (f : Forest) : Nat → NodeId → List NodeId
  | 0, _ => []
  | n + 1, id => id :: (f.children id).flatMap (f.descend n)

/-- A node and everything below it, in source order. -/
def descendants (f : Forest) (id : NodeId) : List NodeId :=
  f.descend (f.size + 1) id

end Forest

end EventAtlas
