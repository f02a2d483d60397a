import EventAtlas.Syntax.Declared

/-!
# Expressions

Operators have levels; an operator of a higher level binds tighter. An operand is a literal, a name or a variable
with what is accessed or called on it, or one of the forms that start with a keyword or a sign. A variable or a list
of targets before an assignment sign is assigned to whatever stands before it, and the value reaches as far as an
operator above the level of assignments.
-/

namespace EventAtlas.Syntax

open Reads

namespace Grammar

/-- How tightly an operator binds, and whether it groups to the right. -/
structure Binding where
  level : Nat
  right : Bool := false

def assignmentLevel : Nat := 4

def conditionalLevel : Nat := 5

def signLevel : Nat := 19

/-- The level above all operators between operands. -/
def operandLevel : Nat := 21

/-- The binding of a symbol between operands. -/
def symbolBinding? : String → Option Binding
  | "??" => some ⟨6, true⟩
  | "||" => some ⟨7, false⟩
  | "&&" => some ⟨8, false⟩
  | "|" => some ⟨9, false⟩
  | "^" => some ⟨10, false⟩
  | "&" => some ⟨11, false⟩
  | "==" | "!=" | "<>" | "===" | "!==" | "<=>" => some ⟨12, false⟩
  | "<" | "<=" | ">" | ">=" => some ⟨13, false⟩
  | "." => some ⟨14, false⟩
  | "<<" | ">>" => some ⟨15, false⟩
  | "+" | "-" => some ⟨16, false⟩
  | "*" | "/" | "%" => some ⟨17, false⟩
  | "**" => some ⟨18, true⟩
  | _ => none

def wordBinding? : String → Option Binding
  | "or" => some ⟨1, false⟩
  | "xor" => some ⟨2, false⟩
  | "and" => some ⟨3, false⟩
  | "instanceof" => some ⟨20, false⟩
  | _ => none

/-- The binding of an operator between operands. -/
def binding? : Token → Option Binding
  | .symbol s => symbolBinding? s
  | .word w => wordBinding? w
  | _ => none

/-- A sign that assigns after an operation. -/
def isAugmented (s : String) : Bool :=
  ["**=", "*=", "/=", "%=", "+=", "-=", ".=", "<<=", ">>=", "&=", "^=", "|=", "??="].contains s

def isCastWord (w : String) : Bool :=
  ["array", "binary", "bool", "boolean", "double", "int", "integer", "float", "object", "string", "unset"].contains w

/-- Something that can be assigned to. -/
def isTarget : Kind → Bool
  | .variableName | .subscript | .memberAccess _ | .scopedProperty | .memberCall _ | .scopedCall | .functionCall
  | .listLiteral => true
  | .other rule => rule == "dynamic_variable_name"
  | _ => false

/-! ## Arguments and arrays -/

/-- A value that may be taken by reference. -/
def referable (inner : Inner) : Reads Tree := do
  let start ← mark
  if ← accept "&" then
    let e ← inner (.expression 0)
    close .byReference start [e]
  else inner (.expression 0)

/-- A spread value after its dots. -/
def unpacking (inner : Inner) : Reads Tree := do
  let start ← mark
  expect "..."
  let e ← inner (.expression 0)
  close .variadicUnpacking start [e]

def argument (inner : Inner) : Reads Tree := do
  let start ← mark
  if ← sees "..." then
    if (← peekSecond?) == some (.symbol ")") then leaf (.mark "variadic_placeholder")
    else
      let u ← unpacking inner
      close .argument start [u]
  else
    let named := isWord (← peekToken?) && (← peekSecond?) == some (.symbol ":")
    let label ← if named then
        let n ← wordLeaf
        expect ":"
        pure [n.playing .name]
      else pure []
    let reference ← if ← sees "&" then pure [← leaf .referenceMark] else pure []
    let e ← inner (.expression 0)
    close .argument start (label ++ reference ++ [e])

def arguments (inner : Inner) : Reads Tree := do
  let start ← mark
  expect "("
  let args ← enclosed ")" (argument inner)
  return (← close .arguments start args).playing .arguments

def arrayElement (inner : Inner) : Reads Tree := do
  let start ← mark
  if ← sees "..." then
    let u ← unpacking inner
    close .arrayElement start [u]
  else
    let first ← referable inner
    if ← accept "=>" then
      let value ← referable inner
      close .arrayElement start [first, value]
    else close .arrayElement start [first]

/-- An array in brackets, or after the word for it. -/
def arrayLiteral (inner : Inner) : Reads Tree := do
  let start ← mark
  let closing ← if ← accept "[" then pure "]" else do
    expectWord "array"
    expect "("
    pure ")"
  let elements ← enclosed closing (arrayElement inner)
  close .arrayCreation start elements

/-! ## Targets -/

/-- Whether a list of targets may start here. -/
def seesList : Reads Bool := do
  if ← sees "[" then return true
  else return (← seesWord "list") && (← peekSecond?) == some (.symbol "(")

/-- A target: a list of targets, a reference or a variable. -/
def target (inner : Inner) : Reads Tree := do
  if ← seesList then inner .targets else referable inner

/-- A target with the key before it, if there is one. -/
def keyedTarget (inner : Inner) : Reads (List Tree) := do
  let first ← target inner
  if ← accept "=>" then return [first, ← target inner] else return [first]

/-- The targets up to the closing bracket; places may be left empty. -/
def targetList (inner : Inner) (closing : String) : Reads (List Tree) := do
  let items ← many do
    if ← sees closing then return none
    else if ← accept "," then return some []
    else
      let t ← keyedTarget inner
      if ← sees closing then return some t
      else
        expect ","
        return some t
  expect closing
  return items.flatten

/-- A list of targets in brackets, or after the word for it. -/
def targets (inner : Inner) : Reads Tree := do
  let start ← mark
  let closing ← if ← accept "[" then pure "]" else do
    expectWord "list"
    expect "("
    pure ")"
  let ts ← targetList inner closing
  close .listLiteral start ts

/-- A list of targets that is followed by an assignment sign. -/
def assignedTargets (inner : Inner) : Reads Tree := do
  let t ← inner .targets
  if ← sees "=" then return t else failure

/-! ## Variables and names -/

/-- A variable whose name is held by another variable, from the inside out; `starts` are the places of the dollar
signs, innermost first. -/
def dynamicVariable : List Extent → Tree → Reads Tree
  | [], t => return t
  | start :: rest, t => do
    let t ← close (.other "dynamic_variable_name") start [t]
    dynamicVariable rest t

/-- A variable, or dollar signs before a variable or an expression in braces. -/
def simpleVariable (inner : Inner) : Reads Tree := do
  let starts ← many do
    if ← sees "$" then
      let start ← mark
      expect "$"
      return some start
    else return none
  if starts.isEmpty then variableLeaf
  else
    let held ← if ← accept "\x7b" then do
        let e ← inner (.expression 0)
        expect "\x7d"
        pure e
      else variableLeaf
    dynamicVariable starts.reverse held

/-- The name of a member: a word, a variable or an expression in braces. -/
def memberName (inner : Inner) : Reads Tree := do
  match ← peekToken? with
  | some (.word _) => leaf .name
  | some (.symbol "\x7b") => do
    expect "\x7b"
    let e ← inner (.expression 0)
    expect "\x7d"
    return e
  | _ => simpleVariable inner

/-! ## Accesses and calls -/

/-- A member of an object, accessed or called. -/
def memberOf (inner : Inner) (start : Extent) (nullsafe : Bool) (object : Tree) : Reads Tree := do
  let name := (← memberName inner).playing .name
  let object := object.playing .object
  if ← sees "(" then
    let args ← arguments inner
    close (.memberCall nullsafe) start [object, name, args]
  else close (.memberAccess nullsafe) start [object, name]

/-- A member of a class, accessed or called. -/
def scopedOf (inner : Inner) (start : Extent) (scope : Tree) : Reads Tree := do
  let named := isWord (← peekToken?)
  let name := (← memberName inner).playing .name
  let scope := scope.playing .scope
  if ← sees "(" then
    let args ← arguments inner
    close .scopedCall start [scope, name, args]
  else close (if named then .classConstant else .scopedProperty) start [scope, name]

/-- An element in brackets, or the place after the last element. -/
def elementOf (inner : Inner) (start : Extent) (container : Tree) : Reads Tree := do
  if ← accept "]" then close .subscript start [container]
  else
    let index ← inner (.expression 0)
    expect "]"
    close .subscript start [container, index]

/-- One access or call on what was read; `calls` says whether it may be called. -/
def access? (inner : Inner) (calls : Bool) (start : Extent) (base : Tree) : Reads (Option Tree) := do
  match ← peekToken? with
  | some (.symbol "->") => do
    expect "->"
    return some (← memberOf inner start false base)
  | some (.symbol "?->") => do
    expect "?->"
    return some (← memberOf inner start true base)
  | some (.symbol "::") => do
    expect "::"
    return some (← scopedOf inner start base)
  | some (.symbol "[") => do
    expect "["
    return some (← elementOf inner start base)
  | some (.symbol "(") =>
    if calls then
      let args ← arguments inner
      return some (← close .functionCall start [base.playing .function, args])
    else return none
  | _ => return none

/-- As many accesses and calls as follow; `n` bounds their number. -/
def accesses (inner : Inner) (start : Extent) : Nat → Tree → Reads Tree
  | 0, _ => failure
  | n + 1, base => do
    match ← access? inner true start base with
    | some t => accesses inner start n t
    | none => return base

/-- What accesses and calls start from. -/
def atom (inner : Inner) : Reads Tree := do
  match ← peekToken? with
  | some .var | some (.symbol "$") => simpleVariable inner
  | some .integer => leaf .integer
  | some .float => leaf .float
  | some .string => leaf .string
  | some .qualified => leaf .qualifiedName
  | some (.symbol "[") => arrayLiteral inner
  | some (.symbol "(") => do
    let start ← mark
    expect "("
    let e ← inner (.expression 0)
    expect ")"
    close .parenthesized start [e]
  | some (.word w) =>
    if w == "true" || w == "false" then leaf .boolean
    else if w == "null" then leaf .null
    else if w == "array" && (← peekSecond?) == some (.symbol "(") then arrayLiteral inner
    else leaf .name
  | _ => failure

/-- An atom with the accesses and calls on it. -/
def chain (inner : Inner) : Reads Tree := do
  let start ← mark
  let base ← atom inner
  accesses inner start ((← get).ahead.length + 1) base

/-! ## Assignments -/

/-- The assignment to a target that was read, if one follows. -/
def assigned? (inner : Inner) (start : Extent) (left : Tree) : Reads (Option Tree) := do
  match ← peekToken? with
  | some (.symbol "=") => do
    expect "="
    let reference ← accept "&"
    let right ← inner (.expression assignmentLevel)
    let kind : Kind := if reference then .referenceAssignment else .assignment
    return some (← close kind start [left.playing .left, right.playing .right])
  | some (.symbol s) =>
    if isAugmented s then
      let op ← leaf .operator
      let right ← inner (.expression assignmentLevel)
      return some (← close .augmentedAssignment start
        [left.playing .left, op.playing .operator, right.playing .right])
    else if s == "++" || s == "--" then
      let _ ← take
      return some (← close .update start [left])
    else return none
  | _ => return none

/-- A chain, assigned to if it is a target and an assignment follows. -/
def chainOrAssignment (inner : Inner) : Reads Tree := do
  let start ← mark
  let left ← chain inner
  if isTarget left.kind then return (← assigned? inner start left).getD left else return left

/-- An array, or an assignment to a list of targets. -/
def arrayOrAssignment (inner : Inner) : Reads Tree := do
  let start ← mark
  match ← attempt (assignedTargets inner) with
  | some left => return (← assigned? inner start left).getD left
  | none => chainOrAssignment inner

/-! ## Functions -/

/-- The variables that a closure takes along. -/
def useClause? (inner : Inner) : Reads (List Tree) := do
  if ← seesWord "use" then
    let start ← mark
    expectWord "use"
    expect "("
    let vs ← enclosed ")" (referable inner)
    return [← close .useClause start vs]
  else return []

/-- A function without a name, or one whose body is an expression. -/
def closure (inner : Inner) : Reads Tree := do
  let start ← mark
  attributes
  let static ← modifiers ["static"]
  if ← acceptWord "fn" then
    let _ ← accept "&"
    let ps ← parameters inner
    let type ← returnType?
    expect "=>"
    let body ← inner (.expression 0)
    close .arrowFunction start (static ++ [ps] ++ type ++ [body.playing .body])
  else
    expectWord "function"
    let _ ← accept "&"
    let ps ← parameters inner
    let uses ← useClause? inner
    let type ← returnType?
    let body ← inner .block
    close .closure start (static ++ [ps] ++ uses ++ type ++ [body.playing .body])

/-! ## Forms that start with a word -/

/-- The class after `new`, given by an expression: accesses without calls; `n` bounds their number. -/
def classAccesses (inner : Inner) (start : Extent) : Nat → Tree → Reads Tree
  | 0, _ => failure
  | n + 1, base => do
    match ← peekToken? with
    | some (.symbol "->") => do
      expect "->"
      let name := (← memberName inner).playing .name
      let t ← close (.memberAccess false) start [base.playing .object, name]
      classAccesses inner start n t
    | some (.symbol "?->") => do
      expect "?->"
      let name := (← memberName inner).playing .name
      let t ← close (.memberAccess true) start [base.playing .object, name]
      classAccesses inner start n t
    | some (.symbol "::") => do
      expect "::"
      let name := (← simpleVariable inner).playing .name
      let t ← close .scopedProperty start [base.playing .scope, name]
      classAccesses inner start n t
    | some (.symbol "[") => do
      expect "["
      let t ← elementOf inner start base
      classAccesses inner start n t
    | _ => return base

/-- The class that is named after `new` or `instanceof`. -/
def classReference (inner : Inner) : Reads Tree := do
  let start ← mark
  let base ← if isNameToken (← peekToken?) then nameLeaf else atom inner
  classAccesses inner start ((← get).ahead.length + 1) base

/-- Names with commas between them. -/
def nameClause (kind : Kind) (word : String) : Reads (List Tree) := do
  if ← seesWord word then
    let start ← mark
    expectWord word
    let names ← commaSeparated nameLeaf
    return [← close kind start names]
  else return []

/-- A class without a name, after `new`. -/
def anonymousClass (inner : Inner) : Reads Tree := do
  let start ← mark
  attributes
  let mods ← modifiers ["readonly", "final", "abstract"]
  expectWord "class"
  let args ← if ← sees "(" then pure [← arguments inner] else pure []
  let base ← nameClause .baseClause "extends"
  let interfaces ← nameClause .interfaceClause "implements"
  let body ← inner .members
  close .anonymousClass start (mods ++ args ++ base ++ interfaces ++ [body])

/-- Whether a class without a name follows. -/
def seesAnonymousClass : Reads Bool := do
  if (← seesWord "class") || (← sees "#[") then return true
  else return (← seesWord "readonly") && (← peekSecond?) == some (.word "class")

/-- A new object. -/
def creation (inner : Inner) : Reads Tree := do
  let start ← mark
  expectWord "new"
  if ← seesAnonymousClass then
    let c ← anonymousClass inner
    close .objectCreation start [c]
  else
    let c ← classReference inner
    let args ← if ← sees "(" then pure [← arguments inner] else pure []
    close .objectCreation start (c :: args)

def matchArm (inner : Inner) : Reads Tree := do
  let start ← mark
  if (← seesWord "default") && (← peekSecond?) != some (.symbol "::") then
    expectWord "default"
    let _ ← accept ","
    expect "=>"
    let e ← inner (.expression 0)
    close .matchDefault start [e.playing .result]
  else
    let conditions ← enclosed "=>" (inner (.expression 0))
    let list ← close (.other "match_condition_list") start conditions
    let e ← inner (.expression 0)
    close .matchArm start [list, e.playing .result]

def bracketed (inner : Inner) : Reads Tree := do
  let start ← mark
  expect "("
  let e ← inner (.expression 0)
  expect ")"
  close .parenthesized start [e]

def matchExpression (inner : Inner) : Reads Tree := do
  let start ← mark
  expectWord "match"
  let condition := (← bracketed inner).playing .condition
  let blockStart ← mark
  expect "\x7b"
  let arms ← enclosed "\x7d" (matchArm inner)
  let block := (← close .matchBlock blockStart arms).playing .body
  close .matchExpression start [condition, block]

/-- Whether an operand may follow a word that can stand alone. -/
def seesOperand : Reads Bool := do
  let s ← get
  match s.ahead with
  | [] => return false
  | l :: _ =>
    if l.token = .gap then return false
    else match ← peekToken? with
      | some (.symbol s) => return !([";", ")", ",", "]", "\x7d", ":", "=>"].contains s)
      | some _ => return true
      | none => return false

/-- A value that a generator gives. -/
def yield (inner : Inner) : Reads Tree := do
  let start ← mark
  expectWord "yield"
  let rule : Kind := .other "yield_expression"
  if ← acceptWord "from" then
    let e ← inner (.expression 0)
    close rule start [e]
  else if ← seesOperand then
    let e ← arrayElement inner
    close rule start [e]
  else close rule start []

/-- A word before an expression that reaches as far as it can. -/
def wordBefore (inner : Inner) (rule : String) : Reads Tree := do
  let start ← mark
  let _ ← take
  let e ← inner (.expression 0)
  close (.other rule) start [e]

/-- A copy of an object. -/
def cloning (inner : Inner) : Reads Tree := do
  let start ← mark
  expectWord "clone"
  let e ← inner (.expression operandLevel)
  close .clone start [e]

def wordOperand (inner : Inner) (w : String) : Reads Tree := do
  let second ← peekSecond?
  match w with
  | "new" => creation inner
  | "clone" => cloning inner
  | "print" => wordBefore inner "print_intrinsic"
  | "throw" => wordBefore inner "throw_expression"
  | "include" => wordBefore inner "include_expression"
  | "include_once" => wordBefore inner "include_once_expression"
  | "require" => wordBefore inner "require_expression"
  | "require_once" => wordBefore inner "require_once_expression"
  | "yield" => yield inner
  | "fn" | "function" => closure inner
  | "static" =>
    if second == some (.word "fn") || second == some (.word "function") then closure inner
    else chainOrAssignment inner
  | "match" => if second == some (.symbol "(") then matchExpression inner else chainOrAssignment inner
  | "list" => if second == some (.symbol "(") then arrayOrAssignment inner else chainOrAssignment inner
  | _ => chainOrAssignment inner

/-! ## Operands and operators -/

/-- A sign before an operand. -/
def signed (inner : Inner) (kind : Kind) (level : Nat) : Reads Tree := do
  let start ← mark
  let _ ← take
  let e ← inner (.expression level)
  close kind start [e]

def seesCast : Reads Bool := do
  match ← peekSecond? with
  | some (.word w) => return isCastWord w && (← peekThird?) == some (.symbol ")")
  | _ => return false

def castOperand (inner : Inner) : Reads Tree := do
  let start ← mark
  expect "("
  let type := (← leaf .castType).playing .type
  expect ")"
  let value := (← inner (.expression operandLevel)).playing .value
  close .cast start [type, value]

def operand (inner : Inner) : Reads Tree := do
  match ← peekToken? with
  | some (.symbol s) =>
    if ["!", "-", "+", "~"].contains s then signed inner .unary (signLevel + 1)
    else if s == "@" then signed inner .errorSuppression operandLevel
    else if s == "++" || s == "--" then signed inner .update operandLevel
    else if s == "(" then
      if ← seesCast then castOperand inner else chainOrAssignment inner
    else if s == "[" then arrayOrAssignment inner
    else if s == "#[" then closure inner
    else chainOrAssignment inner
  | some (.word w) => wordOperand inner w
  | _ => chainOrAssignment inner

def conditional (inner : Inner) (start : Extent) (condition : Tree) : Reads Tree := do
  expect "?"
  let condition := condition.playing .condition
  if ← accept ":" then
    let e := (← inner (.expression (conditionalLevel + 1))).playing .alternative
    close .conditional start [condition, e]
  else
    let body := (← inner (.expression 0)).playing .body
    expect ":"
    let e := (← inner (.expression (conditionalLevel + 1))).playing .alternative
    close .conditional start [condition, body, e]

/-- An operator with its right operand, after its left operand. -/
def operation (inner : Inner) (start : Extent) (left : Tree) (b : Binding) : Reads Tree := do
  let isClassTest ← seesWord "instanceof"
  let op := (← leaf .operator).playing .operator
  let right ←
    if isClassTest then classReference inner
    else inner (.expression (if b.right then b.level else b.level + 1))
  close .binary start [left.playing .left, op, right.playing .right]

/-- The operators of at least this level that follow an operand; `n` bounds their number. -/
def operations (inner : Inner) (level : Nat) (start : Extent) : Nat → Tree → Reads Tree
  | 0, _ => failure
  | n + 1, left => do
    match ← peekToken? with
    | none => return left
    | some token =>
      if token = .symbol "?" then
        if conditionalLevel < level then return left
        else operations inner level start n (← conditional inner start left)
      else match binding? token with
        | some b =>
          if b.level < level then return left
          else operations inner level start n (← operation inner start left b)
        | none => return left

/-- An expression whose operators are of at least this level. -/
def expression (inner : Inner) (level : Nat) : Reads Tree := do
  let start ← mark
  let left ← operand inner
  operations inner level start ((← get).ahead.length + 1) left

end Grammar

end EventAtlas.Syntax
