import EventAtlas.Typing.TypeSet

/-!
# Types of operations

Operations on numbers, comparisons and casts have types that depend on the sign and, for sums and products, on the
types of the operands.
-/

namespace EventAtlas.Operation

/-- An integer or a float. -/
def number : TypeSet :=
  .ofList [.named "int", .named "float"]

/-- All types of a set that is not empty satisfy `p`. -/
def onlyTypes (p : String → Bool) (s : TypeSet) : Bool :=
  !s.isEmpty && s.toList.all fun t => p t.name

/-- The result of a sum, a difference, a product or a power. -/
def arithmetic (op : String) (left right : TypeSet) : TypeSet :=
  if op == "+" && left.contains "array" && right.contains "array" then .ofName "array"
  else if onlyTypes (· == "int") left && onlyTypes (· == "int") right then .ofName "int"
  else if onlyTypes (fun n => n == "int" || n == "float") left
      && onlyTypes (fun n => n == "int" || n == "float") right then .ofName "float"
  else number

/-- What the sign of an operation says about its result. -/
inductive Result where
  /-- The result does not depend on the operands. -/
  | fixed (types : TypeSet)
  | arithmetic
  | unknown

/-- The result of an operation on two operands. -/
def binary (op : String) : Result :=
  if ["==", "!=", "===", "!==", "<>", "<", ">", "<=", ">=", "&&", "||", "and", "or", "xor"].contains op then
    .fixed (.ofName "bool")
  else if op == "<=>" then .fixed (.ofName "int")
  else if op == "." then .fixed (.ofName "string")
  else if op == "/" then .fixed number
  else if ["%", "&", "|", "^", "<<", ">>"].contains op then .fixed (.ofName "int")
  else if ["+", "-", "*", "**"].contains op then .arithmetic
  else .unknown

/-- The result of an assignment with an operation; if it is unknown, the value counts. -/
def compound (op : String) : Result :=
  if op == ".=" then .fixed (.ofName "string")
  else if op == "/=" then .fixed number
  else if ["%=", "&=", "|=", "^=", "<<=", ">>="].contains op then .fixed (.ofName "int")
  else if ["+=", "-=", "*=", "**="].contains op then .arithmetic
  else .unknown

def cast (target : String) : TypeSet :=
  match target with
  | "binary" => .ofName "string"
  | "unset" => .ofName "null"
  | _ =>
    match Typing.native? target with
    | some name => .ofName name
    | none => {}

end EventAtlas.Operation
