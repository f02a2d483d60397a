import EventAtlas.Doc.Block
import EventAtlas.Index.Table

/-!
# Classes of types and names

How a type leads to a declaration, how a name or a documented type leads to a type, and how the result of a method is
bound to the class of the object it is called on. Nothing here depends on what has been inferred.
-/

namespace EventAtlas.Index

/-- The declaration of the class that a type names. -/
def classOf? (x : Index) (t : Ty) : Option NodeId :=
  if t.isUnknown || t.isNative then none
  else (t.declaration.filter fun d => (x.forest.kind d).isClassLike).or (x.declaration? t.baseName)

/-- The declarations of the classes that types name. -/
def classesOf (x : Index) (types : TypeSet) : List NodeId :=
  types.toList.filterMap x.classOf?

def declaredType? (x : Index) (decl : NodeId) : Option Ty :=
  (x.forest.node decl).resolvedName.map fun fqn => .declared fqn decl

/-- The class-like around a node, or the node itself if it is one, as a type. -/
def enclosingType? (x : Index) (node : NodeId) : Option Ty :=
  let around := if (x.forest.kind node).isClassLike then some node else x.forest.enclosingClass? node
  around.bind x.declaredType?

/-- A qualified name as a type. -/
def namedType (x : Index) (fqn : String) : Ty :=
  match x.declaration? fqn with
  | some decl => .declared fqn decl
  | none => .named fqn

/-- The type that a name in documentation means; `scope` and `around` are those of the place of the documentation. -/
def docNameType (x : Index) (scope : Option NameScope) (around : Option Ty) (name : String) : Ty :=
  let bare := Text.unrooted name
  let lower := Text.lower bare
  if lower == "self" || lower == "static" || lower == "$this" then around.getD (.named bare)
  else if Typing.isNative bare then .named bare
  else x.namedType (match scope with
    | some s => s.resolveClass name
    | none => bare)

/-- The types that a documented type at a node means. -/
def docTypes (x : Index) (node : NodeId) (doc : DocType) : TypeSet :=
  let resolve : String → Id Ty := x.docNameType (x.forest.nameScopeFor? node) (x.enclosingType? node)
  (doc.types resolve).run

/-- A name in documentation is looked up as a class and refused there. -/
def refusesDocName (scope : Option NameScope) (name : String) : Bool :=
  let bare := Text.unrooted name
  let lower := Text.lower bare
  !(lower == "self" || lower == "static" || lower == "$this") && !Typing.isNative bare
    && scope.isSome && NameScope.refusesClass name

/-- The type that a name in documentation means, unless it is refused. -/
def docNameType? (x : Index) (scope : Option NameScope) (around : Option Ty) (name : String) : Option Ty :=
  if refusesDocName scope name then none else some (x.docNameType scope around name)

/-- The types that a documented type at a node means, unless a name in it is refused. -/
def docTypes? (x : Index) (node : NodeId) (doc : DocType) : Option TypeSet :=
  doc.types (x.docNameType? (x.forest.nameScopeFor? node) (x.enclosingType? node))

def docBlock? (x : Index) (node : NodeId) : Option DocBlock :=
  (x.forest.docComment? node).map DocBlock.parse

/-- The types that the part of the documentation of a node means. -/
def documented (x : Index) (node : NodeId) (part : DocBlock → Option DocType) : TypeSet :=
  (((x.docBlock? node).bind part).map (x.docTypes node)).getD {}

def nameTypes (x : Index) (node : NodeId) (text : String) : NameRole → TypeSet
  | .function => {}
  | .constant =>
    match Text.lower text with
    | "true" | "false" => .ofName "bool"
    | "null" => .ofName "null"
    | _ => {}
  | _ =>
    match (x.forest.node node).declaration.bind x.declaredType? with
    | some t => .singleton t
    | none =>
      match x.forest.nameOf? node with
      | some name => if name.isEmpty then {} else .singleton (x.namedType name)
      | none => {}

def thisType? (x : Index) (node : NodeId) : Option Ty :=
  match (x.forest.node node).declaration with
  | some decl => x.declaredType? decl
  | none => x.enclosingType? node

/-! ## Methods -/

/-- The declared type of a method names `static`. -/
def hintsStatic (x : Index) (method : NodeId) : Bool :=
  match x.forest.typeHint? method with
  | none => false
  | some hint => (x.forest.descendants hint).any fun n =>
    match x.forest.kind n with
    | .name text _ => Text.sameLetters text "static"
    | _ => false

/-- A documented type that means the object itself. -/
def meansReceiver : DocType → Bool
  | .nullable (.named n) | .named n => n == "static" || n == "$this"
  | _ => false

/-- The documented type of a method names `static` or `$this`. -/
def documentsStatic (x : Index) (method : NodeId) : Bool :=
  match (x.docBlock? method).bind DocBlock.returnType? with
  | some t => t.alternatives.any meansReceiver
  | none => false

/-- The result of a method on a receiver: where the method returns its object, the declaring class becomes the class
of the receiver. -/
def lateBound (x : Index) (method : NodeId) (returned : TypeSet) (receiver : Ty) : TypeSet :=
  match x.forest.enclosingClass? method with
  | none => returned
  | some declaring =>
    if x.hintsStatic method || x.documentsStatic method then
      .ofList (returned.toList.map fun t => if t.declaration = some declaring then receiver else t)
    else returned

/-- The return statements below a node, apart from those of nested functions and classes, at most `n` levels deep. -/
def returnsBelow (f : Forest) : Nat → NodeId → List NodeId
  | 0, _ => []
  | n + 1, node =>
    let below := (f.children node).flatMap fun c =>
      if (f.kind c).isClassLike || (f.kind c).isFunctionLike then [] else returnsBelow f n c
    if f.kind node = .returnStmt then node :: below else below

def returnsOf (f : Forest) (body : NodeId) : List NodeId :=
  returnsBelow f (f.size + 1) body

/-- The type of a call of a function by its name. -/
def functionTypes (f : Forest) : Option NodeId → TypeSet
  | none => {}
  | some callee =>
    match f.kind callee with
    | .name text _ =>
      let short := Text.lower (Text.afterLast '\\' text)
      if short == "isset" || short == "empty" then .ofName "bool" else {}
    | _ => {}

end EventAtlas.Index
