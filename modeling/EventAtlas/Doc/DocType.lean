import EventAtlas.Typing.TypeSet

/-!
# Documented types

Documentation comments give types as expressions: names, `?T`, `A|B`, `A&B`, `T[]` and `Base<A, B>`. An expression
denotes a set of types once it is known what a class name stands for. Refined spellings of native types denote the
native type; the arguments of an array are its key and its elements, and so are those of any other container.
-/

namespace EventAtlas

inductive DocType where
  | named (name : String)
  | nullable (inner : DocType)
  | union (parts : List DocType)
  | intersection (parts : List DocType)
  | array (element : DocType)
  | generic (base : String) (args : List DocType)
deriving Inhabited, Repr, BEq

namespace DocType

/-- The parts of a union, those of unions inside it too; of any other type, the type itself. -/
def alternatives : DocType → List DocType
  | union parts => alternativesOf parts
  | t => [t]
where
  alternativesOf : List DocType → List DocType
    | [] => []
    | t :: rest => t.alternatives ++ alternativesOf rest

def arrayNames : List String :=
  ["array", "list", "iterable", "non-empty-array", "non-empty-list"]

/-- Names of strings that may take arguments. -/
def stringNames : List String :=
  ["class-string", "non-empty-string", "numeric-string", "callable-string"]

/-- Names of integers that may take arguments. -/
def intNames : List String :=
  ["positive-int", "negative-int", "non-negative-int", "int-mask"]

/-- The native types that a name stands for, if it does not name a class. -/
def nativeTypes? (name : String) : Option TypeSet :=
  let plain := Text.lower name
  if stringNames.contains plain || plain == "literal-string" then some (.ofName "string")
  else if intNames.contains plain then some (.ofName "int")
  else if plain == "array-key" then some (.ofList [.named "int", .named "string"])
  else if arrayNames.contains plain then some (.ofName "array")
  else (Typing.native? name).map .ofName

/-- The native type of a name whose arguments do not count. -/
def refined? (base : String) : Option TypeSet :=
  let plain := Text.lower base
  if stringNames.contains plain then some (.ofName "string")
  else if intNames.contains plain || plain == "int" then some (.ofName "int")
  else none

/-- The containers for every element type and, if keys are given, every key type. -/
def containers (make : Option Ty → Ty → Ty) (keys : Option TypeSet) (elements : TypeSet) : TypeSet :=
  .ofList (elements.toList.flatMap fun element =>
    match keys with
    | some keys => keys.toList.map fun key => make (some key) element
    | none => [make none element])

/-- An array with these keys and elements. -/
def arrayType : Option Ty → Ty → Ty
  | some key, element => .mapOf key element
  | none, element => .arrayOf element

variable {m : Type → Type} [Monad m]

/-- The types of a name; `resolve` says what a class name stands for. -/
def nameTypes (resolve : String → m Ty) (name : String) : m TypeSet :=
  match nativeTypes? name with
  | some types => pure types
  | none => do return .singleton (← resolve name)

/-- The types that a documented type denotes; `resolve` says what a class name stands for. -/
def types (resolve : String → m Ty) : DocType → m TypeSet
  | named name => nameTypes resolve name
  | nullable inner => do return (← inner.types resolve).add .null
  | union parts | intersection parts => do
    let sets ← typesOf resolve parts
    return sets.foldl TypeSet.union .empty
  | array element => do return .ofList ((← element.types resolve).toList.map Ty.arrayOf)
  | generic base args =>
    match refined? base with
    | some types => pure types
    | none => do
      match ← lastTypes resolve args with
      | none => nameTypes resolve base
      | some elements =>
        let keys ← firstTypes resolve args
        if arrayNames.contains (Text.lower base) then
          return containers arrayType keys elements
        else
          let container ← resolve base
          return containers (Ty.generic container) keys elements
where
  /-- The types of each part. -/
  typesOf (resolve : String → m Ty) : List DocType → m (List TypeSet)
    | [] => pure []
    | t :: rest => do
      let head ← t.types resolve
      return head :: (← typesOf resolve rest)
  lastTypes (resolve : String → m Ty) : List DocType → m (Option TypeSet)
    | [] => pure none
    | [t] => do return some (← t.types resolve)
    | _ :: rest => lastTypes resolve rest
  /-- The types of the first of several arguments. -/
  firstTypes (resolve : String → m Ty) : List DocType → m (Option TypeSet)
    | t :: _ :: _ => do return some (← t.types resolve)
    | _ => pure none

end DocType

end EventAtlas
