import EventAtlas.Json.Value

/-!
# Faults

What can go wrong, as far as whoever runs the program can tell: a kind with a message and a code. Every part of
the project has its own errors, and each of them becomes one of these when it leaves the program.
-/

namespace EventAtlas

/-- A failure of the program as a whole. -/
inductive Fault where
  | invalidArguments (message : String) (details : Option Json)
  | invalidConfig (message : String)
  | unitNotFound (fqn : String)
  | fileNotFound (path : String)
  | resolution (message : String)
  | circular (chain : List String)
  | parse (file message : String)
  | internal (message : String)
deriving Inhabited, Repr

namespace Fault

def message : Fault → String
  | invalidArguments m _ => "invalid arguments: " ++ m
  | invalidConfig m => "invalid configuration: " ++ m
  | unitNotFound fqn => "unit not found: " ++ fqn
  | fileNotFound path => "file not found: " ++ path
  | resolution m => "resolution error: " ++ m
  | circular chain => "circular reference: " ++ Text.joinWith " -> " chain
  | parse file m => "parse error in " ++ file ++ ": " ++ m
  | internal m => "internal error: " ++ m

/-- The code of a fault, which is the exit code of the program too. -/
def code : Fault → Nat
  | invalidArguments .. | invalidConfig _ => 2
  | unitNotFound _ | fileNotFound _ | resolution _ | circular _ => 3
  | parse .. => 4
  | internal _ => 10

/-- What a fault is about, as data. -/
def details? : Fault → Option Json
  | invalidArguments _ details => details
  | unitNotFound fqn => some (.obj [("fqn", .str fqn)])
  | fileNotFound path => some (.obj [("path", .str path)])
  | circular chain => some (.obj [("chain", .strs chain)])
  | parse file _ => some (.obj [("file", .str file)])
  | invalidConfig _ | resolution _ | internal _ => none

end Fault

end EventAtlas
