import EventAtlas.Text.Ascii

/-!
# Syntax trees

A source file is first a tree of phrases. A phrase has a kind, the bytes it covers, and the phrases inside it in
source order; a phrase may carry the part it plays in the one around it. Punctuation is not kept, comments are. The
words of a phrase are not stored: they are looked up in the source.
-/

namespace EventAtlas.Syntax

inductive Kind where
  | program
  | comment
  /-- Tags, text outside of them, empty statements and marks: nothing that has a meaning of its own. -/
  | mark (rule : String)
  | compoundStatement
  | expressionStatement
  | returnStatement
  | namespaceDefinition
  | importDeclaration
  | foreachStatement
  | pair
  | catchClause
  | typeList
  | staticDeclaration
  | staticVariable
  /-- A statement that steers control, or a part of one. -/
  | controlFlow (rule : String)
  | classDeclaration
  | enumDeclaration
  | interfaceDeclaration
  | traitDeclaration
  | functionDefinition
  | methodDeclaration
  | propertyDeclaration
  | propertyElement
  | propertyInitializer
  | constDeclaration
  | constElement
  | baseClause
  | interfaceClause
  | memberList
  /-- The members of an enumeration. -/
  | caseList
  | traitUse
  | visibilityModifier
  | staticModifier
  | abstractModifier
  | finalModifier
  | readonlyModifier
  | parameterList
  | simpleParameter
  | variadicParameter
  | promotedParameter
  | referenceMark
  | typeName
  /-- A native type, which is a word and no name. -/
  | primitiveType
  | optionalType
  | unionType
  | intersectionType
  | name
  | qualifiedName
  | relativeScope
  | reservedName
  | namespaceName
  | variableName
  | integer
  | float
  | string
  | boolean
  | null
  | parenthesized
  | byReference
  | errorSuppression
  | assignment
  | referenceAssignment
  | augmentedAssignment
  | operator
  | objectCreation
  | anonymousClass
  | memberCall (nullsafe : Bool)
  | scopedCall
  | functionCall
  | memberAccess (nullsafe : Bool)
  | scopedProperty
  | classConstant
  | conditional
  | binary
  | unary
  | update
  | cast
  | castType
  | clone
  | matchExpression
  | matchBlock
  | matchArm
  | matchDefault
  | closure
  | useClause
  | arrowFunction
  | arrayCreation
  | arrayElement
  | subscript
  | listLiteral
  | arguments
  | argument
  | variadicUnpacking
  /-- Any other phrase, by the name of its grammar rule. -/
  | other (rule : String)
deriving Inhabited, Repr, DecidableEq

namespace Kind

def rule : Kind → String
  | program => "program"
  | comment => "comment"
  | mark rule => rule
  | compoundStatement => "compound_statement"
  | expressionStatement => "expression_statement"
  | returnStatement => "return_statement"
  | namespaceDefinition => "namespace_definition"
  | importDeclaration => "namespace_use_declaration"
  | foreachStatement => "foreach_statement"
  | pair => "pair"
  | catchClause => "catch_clause"
  | typeList => "type_list"
  | staticDeclaration => "function_static_declaration"
  | staticVariable => "static_variable_declaration"
  | controlFlow rule => rule
  | classDeclaration => "class_declaration"
  | enumDeclaration => "enum_declaration"
  | interfaceDeclaration => "interface_declaration"
  | traitDeclaration => "trait_declaration"
  | functionDefinition => "function_definition"
  | methodDeclaration => "method_declaration"
  | propertyDeclaration => "property_declaration"
  | propertyElement => "property_element"
  | propertyInitializer => "property_initializer"
  | constDeclaration => "const_declaration"
  | constElement => "const_element"
  | baseClause => "base_clause"
  | interfaceClause => "class_interface_clause"
  | memberList => "declaration_list"
  | caseList => "enum_declaration_list"
  | traitUse => "use_declaration"
  | visibilityModifier => "visibility_modifier"
  | staticModifier => "static_modifier"
  | abstractModifier => "abstract_modifier"
  | finalModifier => "final_modifier"
  | readonlyModifier => "readonly_modifier"
  | parameterList => "formal_parameters"
  | simpleParameter => "simple_parameter"
  | variadicParameter => "variadic_parameter"
  | promotedParameter => "property_promotion_parameter"
  | referenceMark => "reference_modifier"
  | typeName => "named_type"
  | primitiveType => "primitive_type"
  | optionalType => "optional_type"
  | unionType => "union_type"
  | intersectionType => "intersection_type"
  | name => "name"
  | qualifiedName => "qualified_name"
  | relativeScope => "relative_scope"
  | reservedName => "reserved_identifier"
  | namespaceName => "namespace_name"
  | variableName => "variable_name"
  | integer => "integer"
  | float => "float"
  | string => "string"
  | boolean => "boolean"
  | null => "null"
  | parenthesized => "parenthesized_expression"
  | byReference => "by_ref"
  | errorSuppression => "error_suppression_expression"
  | assignment => "assignment_expression"
  | referenceAssignment => "reference_assignment_expression"
  | augmentedAssignment => "augmented_assignment_expression"
  | operator => "operator"
  | objectCreation => "object_creation_expression"
  | anonymousClass => "anonymous_class"
  | memberCall false => "member_call_expression"
  | memberCall true => "nullsafe_member_call_expression"
  | scopedCall => "scoped_call_expression"
  | functionCall => "function_call_expression"
  | memberAccess false => "member_access_expression"
  | memberAccess true => "nullsafe_member_access_expression"
  | scopedProperty => "scoped_property_access_expression"
  | classConstant => "class_constant_access_expression"
  | conditional => "conditional_expression"
  | binary => "binary_expression"
  | unary => "unary_op_expression"
  | update => "update_expression"
  | cast => "cast_expression"
  | castType => "cast_type"
  | clone => "clone_expression"
  | matchExpression => "match_expression"
  | matchBlock => "match_block"
  | matchArm => "match_conditional_expression"
  | matchDefault => "match_default_expression"
  | closure => "anonymous_function"
  | useClause => "anonymous_function_use_clause"
  | arrowFunction => "arrow_function"
  | arrayCreation => "array_creation_expression"
  | arrayElement => "array_element_initializer"
  | subscript => "subscript_expression"
  | listLiteral => "list_literal"
  | arguments => "arguments"
  | argument => "argument"
  | variadicUnpacking => "variadic_unpacking"
  | other rule => rule

/-- A declaration that takes the documentation comment before it. -/
def isDocumented : Kind → Bool
  | classDeclaration | interfaceDeclaration | traitDeclaration | enumDeclaration | functionDefinition
  | methodDeclaration | propertyDeclaration | constDeclaration => true
  | _ => false

/-- A phrase without a meaning of its own. -/
def isSkipped : Kind → Bool
  | mark _ | comment | referenceMark => true
  | _ => false

def isName : Kind → Bool
  | name | qualifiedName | relativeScope | reservedName | namespaceName => true
  | _ => false

def isParameter : Kind → Bool
  | simpleParameter | variadicParameter | promotedParameter => true
  | _ => false

/-- A sign that is kept although it is no phrase. -/
def isSign : Kind → Bool
  | operator => true
  | _ => false

end Kind

/-- The part that a phrase plays in the one around it. -/
inductive Role where
  | name
  | body
  | parameters
  | returnType
  | type
  | defaultValue
  | value
  | left
  | operator
  | right
  | object
  | scope
  | function
  | arguments
  | condition
  | alternative
  | conditions
  | result
deriving Inhabited, Repr, DecidableEq

/-- The bytes of a phrase and the line, counted from zero, on which it starts. -/
structure Extent where
  start : Nat := 0
  stop : Nat := 0
  row : Nat := 0
deriving Inhabited, Repr, DecidableEq

inductive Tree where
  | node (kind : Kind) (role : Option Role) (extent : Extent) (children : List Tree)
deriving Inhabited, Repr

namespace Tree

def kind : Tree → Kind
  | node k _ _ _ => k

/-- The part it plays. -/
def role : Tree → Option Role
  | node _ r _ _ => r

/-- The bytes it covers. -/
def extent : Tree → Extent
  | node _ _ e _ => e

/-- Everything inside, comments and signs too. -/
def children : Tree → List Tree
  | node _ _ _ cs => cs

/-- The phrases inside, comments too. -/
def phrases (t : Tree) : List Tree :=
  t.children.filter fun c => !c.kind.isSign

/-- Neither a comment nor a sign. -/
def isPart (t : Tree) : Bool :=
  t.kind ≠ .comment && !t.kind.isSign

/-- The phrases inside. -/
def parts (t : Tree) : List Tree :=
  t.children.filter isPart

/-- The phrase that plays a part. -/
def part? (t : Tree) (r : Role) : Option Tree :=
  t.children.find? fun c => c.role = some r

/-- The phrases inside, other than the one that plays a part. -/
def partsBeside (t : Tree) (r : Role) : List Tree :=
  (t.children.eraseP fun c => c.role = some r).filter isPart

/-- The phrase in a part. -/
def playing (r : Role) : Tree → Tree
  | node k _ e cs => node k (some r) e cs

/-- The names inside, outermost ones only. -/
def names : Tree → List Tree
  | node k r e cs => if k.isName then [node k r e cs] else namesOf cs
where
  /-- The names inside of phrases. -/
  namesOf : List Tree → List Tree
    | [] => []
    | t :: rest => (if t.isPart then t.names else []) ++ namesOf rest

/-- The number of levels. -/
def height : Tree → Nat
  | node _ _ _ cs => heights cs + 1
where
  /-- The number of levels of the highest. -/
  heights : List Tree → Nat
    | [] => 0
    | t :: rest => max t.height (heights rest)

end Tree

/-- The bytes of a file. -/
abbrev Source := ByteArray

namespace Source

def bytes (s : Source) (e : Extent) : ByteArray :=
  ByteArray.extract s e.start e.stop

/-- The text of an extent; what is no text counts as none. -/
def text (s : Source) (e : Extent) : String :=
  (String.fromUTF8? (s.bytes e)).getD ""

def words (s : Source) (t : Tree) : String :=
  s.text t.extent

end Source

end EventAtlas.Syntax
