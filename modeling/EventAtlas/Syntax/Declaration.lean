import EventAtlas.Syntax.Expression

/-!
# Declarations

Functions, class-like declarations with their members, and constants. Attributes count as the start of what they
stand before. The bodies of property hooks and the adaptations of used traits are passed over.
-/

namespace EventAtlas.Syntax

open Reads

namespace Grammar

def classModifiers : List String :=
  ["abstract", "final", "readonly"]

def memberModifiers : List String :=
  ["public", "protected", "private", "static", "abstract", "final", "readonly", "var"]

/-! ## Functions -/

/-- The name, parameters and return type of a function, after the word for it. -/
def signature (inner : Inner) : Reads (List Tree) := do
  let _ ← accept "&"
  let name := (← wordLeaf).playing .name
  let ps ← parameters inner
  let type ← returnType?
  return name :: ps :: type

def functionDefinition (inner : Inner) (start : Extent) : Reads Tree := do
  expectWord "function"
  let head ← signature inner
  let body := (← inner .block).playing .body
  close .functionDefinition start (head ++ [body])

/-! ## Members -/

/-- A method; its body may be missing. -/
def methodDeclaration (inner : Inner) (start : Extent) (mods : List Tree) : Reads Tree := do
  expectWord "function"
  let head ← signature inner
  if ← sees "\x7b" then
    let body := (← inner .block).playing .body
    close .methodDeclaration start (mods ++ head ++ [body])
  else
    semicolon
    close .methodDeclaration start (mods ++ head)

def constElement (inner : Inner) : Reads Tree := do
  let start ← mark
  let name ← wordLeaf
  expect "="
  let value ← inner (.expression 0)
  close .constElement start [name, value]

/-- Constants; a type may stand before their names. -/
def constDeclaration (inner : Inner) (start : Extent) (mods : List Tree) : Reads Tree := do
  expectWord "const"
  let type ← if (← peekSecond?) == some (.symbol "=") then pure [] else pure [(← inner .type).playing .type]
  let elements ← commaSeparated (constElement inner)
  semicolon
  close .constDeclaration start (mods ++ type ++ elements)

def propertyElement (inner : Inner) : Reads Tree := do
  let start ← mark
  let name := (← variableLeaf).playing .name
  let value ← if ← accept "=" then pure [(← inner (.expression 0)).playing .defaultValue] else pure []
  close .propertyElement start (name :: value)

/-- Everything in braces, passed over. -/
def braces : Reads Unit := do
  expect "\x7b"
  skipBrackets "\x7b" "\x7d" ((← get).ahead.length + 1) 1

def propertyDeclaration (inner : Inner) (start : Extent) (mods : List Tree) : Reads Tree := do
  let type ← if (← peekToken?) == some .var then pure [] else pure [(← inner .type).playing .type]
  let elements ← commaSeparated (propertyElement inner)
  if ← sees "\x7b" then braces else semicolon
  close .propertyDeclaration start (mods ++ type ++ elements)

/-- Traits that are used, perhaps with adaptations. -/
def traitUse (start : Extent) : Reads Tree := do
  expectWord "use"
  let names ← commaSeparated nameLeaf
  if ← sees "\x7b" then braces else semicolon
  close .traitUse start names

def enumCase (inner : Inner) (start : Extent) : Reads Tree := do
  expectWord "case"
  let name ← wordLeaf
  let value ← if ← accept "=" then pure [← inner (.expression 0)] else pure []
  semicolon
  close (.other "enum_case") start (name :: value)

def member (inner : Inner) : Reads Tree := do
  let start ← mark
  attributes
  let mods ← modifiers memberModifiers
  match ← peekToken? with
  | some (.word "function") => methodDeclaration inner start mods
  | some (.word "const") => constDeclaration inner start mods
  | some (.word "use") => if mods.isEmpty then traitUse start else failure
  | some (.word "case") => if mods.isEmpty then enumCase inner start else failure
  | _ => if mods.isEmpty then failure else propertyDeclaration inner start mods

/-- The members of a class in braces. -/
def members (inner : Inner) : Reads Tree := do
  let start ← mark
  expect "\x7b"
  let ms ← interleaved (sees "\x7d") (member inner)
  expect "\x7d"
  close .memberList start ms

/-! ## Class-like declarations -/

def classDeclaration (inner : Inner) (start : Extent) : Reads Tree := do
  let mods ← modifiers classModifiers
  expectWord "class"
  let name := (← wordLeaf).playing .name
  let base ← nameClause .baseClause "extends"
  let interfaces ← nameClause .interfaceClause "implements"
  let body ← inner .members
  close .classDeclaration start (mods ++ [name] ++ base ++ interfaces ++ [body])

def interfaceDeclaration (inner : Inner) (start : Extent) : Reads Tree := do
  expectWord "interface"
  let name := (← wordLeaf).playing .name
  let base ← nameClause .baseClause "extends"
  let body ← inner .members
  close .interfaceDeclaration start ([name] ++ base ++ [body])

def traitDeclaration (inner : Inner) (start : Extent) : Reads Tree := do
  expectWord "trait"
  let name := (← wordLeaf).playing .name
  let body ← inner .members
  close .traitDeclaration start [name, body]

/-- An enumeration; the type of its cases may be given. -/
def enumDeclaration (inner : Inner) (start : Extent) : Reads Tree := do
  expectWord "enum"
  let name := (← wordLeaf).playing .name
  let type ← if ← accept ":" then pure [← inner .type] else pure []
  let interfaces ← nameClause .interfaceClause "implements"
  let body ← inner .members
  close .enumDeclaration start ([name] ++ type ++ interfaces ++ [body])

/-- The declaration that starts with a word, if one does. -/
def declaration? (inner : Inner) (start : Extent) : Reads (Option Tree) := do
  let second ← peekSecond?
  match ← peekToken? with
  | some (.word "function") =>
    let third ← peekThird?
    if isWord second || (second == some (.symbol "&") && isWord third) then
      return some (← functionDefinition inner start)
    else return none
  | some (.word "const") => return some (← constDeclaration inner start [])
  | some (.word w) =>
    if w == "class" || classModifiers.contains w then
      if isWord second then return some (← classDeclaration inner start) else return none
    else if !isWord second then return none
    else if w == "interface" then return some (← interfaceDeclaration inner start)
    else if w == "trait" then return some (← traitDeclaration inner start)
    else if w == "enum" then return some (← enumDeclaration inner start)
    else return none
  | _ => return none

end Grammar

end EventAtlas.Syntax
