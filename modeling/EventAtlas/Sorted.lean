/-!
# Sorted association lists

A map whose entries stand in ascending order of their keys, each key once. Listing such a map is reading
it from left to right, so whatever is printed from one is printed in key order. `insert` replaces the
value of a key that is there.
-/

namespace EventAtlas

/-- A map held as a list of entries in ascending key order. -/
structure Sorted (κ : Type) (α : Type) where
  entries : List (κ × α) := []
deriving Inhabited, Repr

namespace Sorted

variable {κ α β : Type}

def empty : Sorted κ α := {}

/-- Put an entry at its place, over an entry of the same key. -/
def insertEntry [Ord κ] (k : κ) (v : α) : List (κ × α) → List (κ × α)
  | [] => [(k, v)]
  | (k', v') :: rest =>
    match compare k k' with
    | .lt => (k, v) :: (k', v') :: rest
    | .eq => (k, v) :: rest
    | .gt => (k', v') :: insertEntry k v rest

def insert [Ord κ] (m : Sorted κ α) (k : κ) (v : α) : Sorted κ α :=
  ⟨insertEntry k v m.entries⟩

/-- The map that binds each key of the list to the value it has there last. -/
def ofList [Ord κ] (entries : List (κ × α)) : Sorted κ α :=
  entries.foldl (fun m e => m.insert e.1 e.2) empty

def find? [BEq κ] (m : Sorted κ α) (k : κ) : Option α :=
  (m.entries.find? (fun e => e.1 == k)).map Prod.snd

def contains [BEq κ] (m : Sorted κ α) (k : κ) : Bool :=
  m.entries.any fun e => e.1 == k

def erase [BEq κ] (m : Sorted κ α) (k : κ) : Sorted κ α :=
  ⟨m.entries.filter fun e => !(e.1 == k)⟩

/-- The map in which the value of `k` went through `f`. -/
def adjust [BEq κ] (m : Sorted κ α) (k : κ) (f : α → α) : Sorted κ α :=
  ⟨m.entries.map fun e => if e.1 == k then (e.1, f e.2) else e⟩

def keys (m : Sorted κ α) : List κ :=
  m.entries.map Prod.fst

/-- The values in ascending order of their keys. -/
def values (m : Sorted κ α) : List α :=
  m.entries.map Prod.snd

def size (m : Sorted κ α) : Nat :=
  m.entries.length

def isEmpty (m : Sorted κ α) : Bool :=
  m.entries.isEmpty

end Sorted

end EventAtlas
