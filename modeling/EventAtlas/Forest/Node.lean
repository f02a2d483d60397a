import EventAtlas.Typing.Ty

/-!
# Nodes

A parsed program is a forest of nodes. A node has a kind, the place in its file, and its children in source
order. The links to its parent, to its qualified name and to the declaration it refers to are absent at first
and are filled in by the linking passes.
-/

namespace EventAtlas

/-- The bytes of a node and the line, counted from one, on which it starts. -/
structure Span where
  start : Nat := 0
  stop : Nat := 0
  line : Nat := 0
deriving Inhabited, Repr, DecidableEq

namespace Span

def length (s : Span) : Nat :=
  s.stop - s.start

/-- Start and end are the same. -/
def isEmpty (s : Span) : Bool :=
  s.start == s.stop

end Span

/-- Who may use a member. -/
inductive Visibility where
  | isPublic
  | isProtected
  | isPrivate
deriving Inhabited, Repr, DecidableEq

structure Modifiers where
  visibility : Visibility := .isPublic
  isStatic : Bool := false
  isAbstract : Bool := false
  isFinal : Bool := false
  isReadonly : Bool := false
deriving Inhabited, Repr, DecidableEq

/-- What a name stands for. -/
inductive NameRole where
  | classRef
  | typeHint
  /-- A parent class, or a parent of an interface. -/
  | extends
  | implements
  /-- A trait used by a class body. -/
  | traitUse
  | function
  | constant
deriving Inhabited, Repr, DecidableEq

namespace NameRole

/-- The name stands for a class, an interface or a trait. -/
def isClassLike : NameRole → Bool
  | function | constant => false
  | _ => true

end NameRole

/-- What an import makes known. -/
inductive ImportKind where
  | classLike
  | function
  | constant
deriving Inhabited, Repr, DecidableEq

/-- The sort of a literal. -/
inductive LiteralKind where
  | int
  | float
  | string
  | bool
  | null
deriving Inhabited, Repr, DecidableEq

namespace LiteralKind

def typeName : LiteralKind → String
  | int => "int"
  | float => "float"
  | string => "string"
  | bool => "bool"
  | null => "null"

end LiteralKind

inductive NodeKind where
  | file
  | namespaceDecl (name : String)
  | importDecl (kind : ImportKind) (name localName : String)
  | block
  | returnStmt
  | expressionStatement
  | foreach (hasKey : Bool)
  | catchClause
  | staticVariable (name : String)
  | docComment (text : String)
  /-- A statement that steers control, by the name of its grammar rule. -/
  | controlFlow (rule : String)
  | classDecl (name : String) (modifiers : Modifiers)
  | interfaceDecl (name : String)
  | traitDecl (name : String)
  | traitUse
  | method (name : String) (modifiers : Modifiers)
  | function (name : String)
  | property (name : String) (modifiers : Modifiers)
  | parameter (name : String) (variadic byRef : Bool) (promoted : Option Modifiers)
  | classConstant (name : String)
  | nullableType
  | unionType
  | intersectionType
  | name (text : String) (role : NameRole)
  | var (name : String)
  | assign (byRef : Bool)
  | compoundAssign (op : String)
  | new
  | methodCall (name : String) (nullsafe : Bool)
  | staticCall (name : String)
  | functionCall
  | argument (name : Option String) (unpack : Bool)
  | propertyFetch (name : String) (nullsafe : Bool)
  | staticPropertyFetch (name : String)
  | classConstantFetch (name : String)
  | ternary (short : Bool)
  | coalesce
  | binary (op : String)
  | unary (op : String)
  | cast (target : String)
  | literal (kind : LiteralKind)
  | arrayLiteral
  | arrayAccess
  | clone
  | matchExpr
  | matchArm (isDefault : Bool)
  | closure (isStatic : Bool)
  | arrowFunction
  | instanceof
  | listDestructure
  /-- A node without a meaning of its own, by the name of its grammar rule. -/
  | other (rule : String)
deriving Inhabited, Repr, DecidableEq

namespace NodeKind

/-- The word for the kind in messages and in the origin of unknown types. -/
def tag : NodeKind → String
  | file => "File"
  | namespaceDecl .. => "Namespace"
  | importDecl .. => "Use"
  | block => "Block"
  | returnStmt => "Return"
  | expressionStatement => "ExpressionStatement"
  | foreach .. => "Foreach"
  | catchClause => "Catch"
  | staticVariable .. => "StaticVariable"
  | docComment .. => "DocComment"
  | controlFlow .. => "ControlFlow"
  | classDecl .. => "Class"
  | interfaceDecl .. => "Interface"
  | traitDecl .. => "Trait"
  | traitUse => "TraitUse"
  | method .. => "Method"
  | function .. => "Function"
  | property .. => "Property"
  | parameter .. => "Parameter"
  | classConstant .. => "ClassConstant"
  | nullableType => "NullableType"
  | unionType => "UnionType"
  | intersectionType => "IntersectionType"
  | name .. => "Name"
  | var .. => "Variable"
  | assign .. => "Assign"
  | compoundAssign .. => "CompoundAssign"
  | new => "New"
  | methodCall .. => "MethodCall"
  | staticCall .. => "StaticCall"
  | functionCall => "FunctionCall"
  | argument .. => "Argument"
  | propertyFetch .. => "PropertyFetch"
  | staticPropertyFetch .. => "StaticPropertyFetch"
  | classConstantFetch .. => "ClassConstantFetch"
  | ternary .. => "Ternary"
  | coalesce => "Coalesce"
  | binary .. => "Binary"
  | unary .. => "Unary"
  | cast .. => "Cast"
  | literal .. => "Literal"
  | arrayLiteral => "ArrayLiteral"
  | arrayAccess => "ArrayAccess"
  | clone => "Clone"
  | matchExpr => "Match"
  | matchArm .. => "MatchArm"
  | closure .. => "Closure"
  | arrowFunction => "ArrowFunction"
  | instanceof => "Instanceof"
  | listDestructure => "ListDestructure"
  | other rule => rule

/-- The name that the kind carries; for an import, the alias. -/
def name? : NodeKind → Option String
  | namespaceDecl n | classDecl n _ | interfaceDecl n | traitDecl n | method n _ | function n | property n _
  | parameter n .. | classConstant n | staticVariable n | var n | methodCall n _ | staticCall n
  | propertyFetch n _ | staticPropertyFetch n | classConstantFetch n => some n
  | name text _ => some text
  | importDecl _ _ localName => some localName
  | _ => none

/-- A class, an interface or a trait. -/
def isClassLike : NodeKind → Bool
  | classDecl .. | interfaceDecl _ | traitDecl _ => true
  | _ => false

/-- A method, a function, a closure or an arrow function. -/
def isFunctionLike : NodeKind → Bool
  | method .. | function _ | closure _ | arrowFunction => true
  | _ => false

def isTypeHint : NodeKind → Bool
  | name _ .typeHint | nullableType | unionType | intersectionType => true
  | _ => false

def isDocComment : NodeKind → Bool
  | docComment _ => true
  | _ => false

def isMethod : NodeKind → Bool
  | method .. => true
  | _ => false

def isName : NodeKind → Bool
  | name .. => true
  | _ => false

def isMatchArm : NodeKind → Bool
  | matchArm _ => true
  | _ => false

def isParameter : NodeKind → Bool
  | parameter .. => true
  | _ => false

/-- The written form: the word for the kind, and the name in parentheses if there is one. -/
def display (k : NodeKind) : String :=
  match k.name? with
  | some n => k.tag ++ "(" ++ n ++ ")"
  | none => k.tag

end NodeKind

structure Node where
  kind : NodeKind := .other ""
  span : Span := {}
  children : List NodeId := []
  parent : Option NodeId := none
  /-- The qualified name of a name, a class-like or a function. -/
  resolvedName : Option String := none
  declaration : Option NodeId := none
deriving Inhabited, Repr, DecidableEq

end EventAtlas
