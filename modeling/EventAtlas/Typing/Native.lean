import EventAtlas.Text.Blank

/-!
# Native type names

Scalar and pseudo types have one spelling each, whatever case, leading separators or alias they are written
with. Every other name is a class name and keeps its letters; only leading separators and blanks at the
ends go.
-/

namespace EventAtlas.Typing

def nativeNames : List String :=
  ["array", "bool", "callable", "false", "float", "int", "iterable", "mixed", "never", "null", "object",
    "resource", "string", "true", "void"]

/-- Other spellings of native types, used in documentation. -/
def nativeAliases : List (String × String) :=
  [("boolean", "bool"), ("integer", "int"), ("double", "float"), ("real", "float"), ("list", "array")]

/-- The native type that `name` denotes, in its one spelling. -/
def native? (name : String) : Option String :=
  let plain := Text.lower (Text.unrooted name)
  if nativeNames.contains plain then some plain else nativeAliases.lookup plain

def isNative (name : String) : Bool :=
  (native? name).isSome

/-- The spelling under which a type is kept. -/
def normalize (name : String) : String :=
  let trimmed := Text.trim name
  (native? trimmed).getD (Text.unrooted trimmed)

/-- The last segment of a qualified name. -/
def shortName (name : String) : String :=
  Text.afterLast '\\' name

end EventAtlas.Typing
