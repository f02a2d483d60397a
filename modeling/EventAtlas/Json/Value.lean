import EventAtlas.Text.Ascii

/-!
# JSON values

Objects keep their fields in the order in which they are written, also repeated ones: whether a repeated field is
a mistake depends on what the object is read as. Whole numbers are integers; any other number is kept as written.
-/

namespace EventAtlas

inductive Json where
  | null
  | bool (b : Bool)
  | int (n : Int)
  /-- A number with a fraction or an exponent, as written. -/
  | decimal (literal : String)
  | str (s : String)
  | arr (items : List Json)
  | obj (fields : List (String × Json))
deriving Inhabited, Repr, BEq

namespace Json

def nat (n : Nat) : Json :=
  .int n

def items : Json → List Json
  | arr js => js
  | _ => []

def fields : Json → List (String × Json)
  | obj fs => fs
  | _ => []

/-- The first field of this name. -/
def get? (j : Json) (name : String) : Option Json :=
  j.fields.lookup name

def modifyField (name : String) (g : Json → Json) : Json → Json
  | obj fs => obj (fs.map fun (k, v) => (k, if k == name then g v else v))
  | j => j

def strs (ss : List String) : Json :=
  .arr (ss.map .str)

/-- The value, or null when there is none. -/
def ofOption (j : Option Json) : Json :=
  j.getD .null

/-- The text, or null when there is none. -/
def strOrNull (s : Option String) : Json :=
  ofOption (s.map .str)

def optionalField (name : String) (j : Option Json) : List (String × Json) :=
  (j.map fun v => (name, v)).toList

/-- The fields of an object in key order, a repeated key with its last value. -/
def insertField (k : String) (v : Json) : List (String × Json) → List (String × Json)
  | [] => [(k, v)]
  | (k', v') :: rest =>
    match compare k k' with
    | .lt => (k, v) :: (k', v') :: rest
    | .eq => (k, v) :: rest
    | .gt => (k', v') :: insertField k v rest

/-- The value with the fields of every object in key order. -/
def sortKeys : Json → Json
  | .arr items => .arr (sortItems items)
  | .obj fields => .obj ((sortFields fields).foldl (fun out f => insertField f.1 f.2 out) [])
  | j => j
where
  sortItems : List Json → List Json
    | [] => []
    | j :: rest => j.sortKeys :: sortItems rest
  sortFields : List (String × Json) → List (String × Json)
    | [] => []
    | (k, j) :: rest => (k, j.sortKeys) :: sortFields rest

/-- The number of levels of a value: one more than those of what it holds. -/
def depth : Json → Nat
  | .arr items => itemsDepth items + 1
  | .obj fields => fieldsDepth fields + 1
  | _ => 1
where
  /-- The number of levels of the deepest item. -/
  itemsDepth : List Json → Nat
    | [] => 0
    | j :: rest => max j.depth (itemsDepth rest)
  /-- The number of levels of the deepest field. -/
  fieldsDepth : List (String × Json) → Nat
    | [] => 0
    | (_, j) :: rest => max j.depth (fieldsDepth rest)

end Json

end EventAtlas
