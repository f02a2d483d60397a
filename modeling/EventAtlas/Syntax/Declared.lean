import EventAtlas.Syntax.Grammar

/-!
# Declared types and parameters

A declared type is a name, a name with a question mark, alternatives with bars between them or names joined by
ampersands; joined names may be an alternative when they stand in brackets. An ampersand before a variable belongs to
a parameter and not to its type.
-/

namespace EventAtlas.Syntax

open Reads

namespace Grammar

def typeLeaf : Reads Tree := do
  let start ← mark
  let name ← nameLeaf
  close .typeName start [name]

/-- Names joined by ampersands, or one name. -/
def joinedTypes : Reads Tree := do
  let start ← mark
  let first ← typeLeaf
  let more ← many do
    if (← sees "&") && isNameToken (← peekSecond?) then
      expect "&"
      return some (← typeLeaf)
    else return none
  if more.isEmpty then return first else close .intersectionType start (first :: more)

def typeAlternative : Reads Tree := do
  if ← accept "(" then
    let t ← joinedTypes
    expect ")"
    return t
  else joinedTypes

def declaredType : Reads Tree := do
  let start ← mark
  if ← accept "?" then
    let t ← typeLeaf
    close .optionalType start [t]
  else
    let first ← typeAlternative
    let more ← many do
      if ← accept "|" then return some (← typeAlternative) else return none
    if more.isEmpty then return first else close .unionType start (first :: more)

/-- The type after a colon, if there is one. -/
def returnType? : Reads (List Tree) := do
  if ← accept ":" then return [(← declaredType).playing .returnType] else return []

def modifierKind? : String → Option Kind
  | "public" | "protected" | "private" => some .visibilityModifier
  | "static" => some .staticModifier
  | "abstract" => some .abstractModifier
  | "final" => some .finalModifier
  | "readonly" => some .readonlyModifier
  | "var" => some (.mark "var_modifier")
  | _ => none

/-- The modifiers ahead among those that are allowed. -/
def modifiers (allowed : List String) : Reads (List Tree) :=
  many do
    match ← peekToken? with
    | some (.word w) =>
      if allowed.contains w then
        match modifierKind? w with
        | some kind => return some (← leaf kind)
        | none => return none
      else return none
    | _ => return none

/-- A reference before the name of a promoted parameter. -/
def promotedName : Reads Tree := do
  let start ← mark
  if ← accept "&" then
    let v ← variableLeaf
    close .byReference start [v]
  else variableLeaf

/-- The marks and the name of a parameter: its kind and what was read. -/
def parameterName (promoted : Bool) : Reads (Kind × List Tree) := do
  if promoted then return (.promotedParameter, [(← promotedName).playing .name])
  else
    let reference ← if ← sees "&" then pure [← leaf .referenceMark] else pure []
    let variadic ← accept "..."
    let v ← variableLeaf
    return (if variadic then .variadicParameter else .simpleParameter, reference ++ [v.playing .name])

def parameter (inner : Inner) : Reads Tree := do
  let start ← mark
  attributes
  let mods ← modifiers ["public", "protected", "private", "readonly"]
  let typed := match ← peekToken? with
    | some (.symbol s) => s == "?" || s == "("
    | some (.word _) | some .qualified => true
    | _ => false
  let type ← if typed then pure [(← inner .type).playing .type] else pure []
  let (kind, named) ← parameterName (!mods.isEmpty)
  let value ← if ← accept "=" then pure [(← inner (.expression 0)).playing .defaultValue] else pure []
  close kind start (mods ++ type ++ named ++ value)

def parameters (inner : Inner) : Reads Tree := do
  let start ← mark
  expect "("
  let ps ← enclosed ")" (parameter inner)
  return (← close .parameterList start ps).playing .parameters

end Grammar

end EventAtlas.Syntax
