import EventAtlas.Forest.Node
import EventAtlas.Sorted

/-!
# Name scopes

A file or a namespace block has a namespace and a table of imports. Class and function aliases are looked up
without regard to ASCII case, constants exactly. A name that starts with a separator is qualified already; a
native type keeps its one spelling; the first segment of any other class name may be an alias; what is left
belongs to the current namespace.
-/

namespace EventAtlas

/-- The namespace and the imports in effect below one node. -/
structure NameScope where
  /-- The node that opens the scope. -/
  node : NodeId := 0
  /-- The current namespace, empty for the global one. -/
  current : String := ""
  /-- Imported classes by lower-case alias. -/
  classes : Sorted String String := {}
  /-- Imported functions by lower-case alias. -/
  functions : Sorted String String := {}
  /-- Imported constants by alias. -/
  constants : Sorted String String := {}
deriving Inhabited, Repr

namespace NameScope

/-- The scope that `node` opens for a namespace, without imports. -/
def opened (node : NodeId) (ns : String) : NameScope :=
  { node, current := Text.dropBoth Text.isSeparator ns }

def addImport (s : NameScope) (kind : ImportKind) (name short : String) : NameScope :=
  let target := Text.unrooted name
  match kind with
  | .classLike => { s with classes := s.classes.insert (Text.lower short) target }
  | .function => { s with functions := s.functions.insert (Text.lower short) target }
  | .constant => { s with constants := s.constants.insert short target }

def qualify (s : NameScope) (name : String) : String :=
  if s.current.isEmpty then name else s.current ++ "\\" ++ name

/-- The number of bytes of the keyword `namespace` and the separator after it. -/
def keywordBytes : Nat := 10

/-- What follows the keyword `namespace` and a separator, if something does. -/
def relative? (name : String) : Option String :=
  match Text.stripChars? "namespace\\".toList ((name.toList.take keywordBytes).map Char.toLower) with
  | some _ =>
    let rest := name.toList.drop keywordBytes
    if rest.isEmpty then none else some (String.ofList rest)
  | none => none

/-- A name can be tested for the keyword `namespace`: its first ten bytes are whole characters. -/
def isDivisible (name : String) : Bool :=
  name.utf8ByteSize ≤ keywordBytes
    || (List.range (keywordBytes + 1)).any fun n =>
      (String.ofList (name.toList.take n)).utf8ByteSize == keywordBytes

def resolveClass (s : NameScope) (written : String) : String :=
  let name := Text.trim written
  if name.isEmpty then ""
  else match Text.strip? "\\" name with
    | some rest => rest
    | none =>
      match Typing.native? name with
      | some native => native
      | none =>
        match relative? name with
        | some rest => s.qualify rest
        | none =>
          match Text.splitFirst? Text.isSeparator name with
          | some (first, rest) =>
            match s.classes.find? (Text.lower first) with
            | some target => target ++ "\\" ++ rest
            | none => s.qualify name
          | none => (s.classes.find? (Text.lower name)).getD (s.qualify name)

/-- Resolving the class name is refused: the test for the keyword would cut a character in two. -/
def refusesClass (written : String) : Bool :=
  let name := Text.trim written
  !name.isEmpty && !Text.startsWith "\\" name && !Typing.isNative name && !isDivisible name

/-- The qualified name of a class-like, unless resolving it is refused. -/
def resolveClass? (s : NameScope) (written : String) : Option String :=
  if refusesClass written then none else some (s.resolveClass written)

def resolveFunction (s : NameScope) (written : String) : String :=
  let name := Text.trim written
  match Text.strip? "\\" name with
  | some rest => rest
  | none =>
    if Text.contains "\\" name then s.qualify name
    else (s.functions.find? (Text.lower name)).getD (s.qualify name)

def resolveConstant (s : NameScope) (written : String) : String :=
  let name := Text.trim written
  match Text.strip? "\\" name with
  | some rest => rest
  | none =>
    match s.constants.find? name with
    | some target => target
    | none =>
      let small := Text.lower name
      if ["true", "false", "null"].contains small then small else s.qualify name

end NameScope

end EventAtlas
