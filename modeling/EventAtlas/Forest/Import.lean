import EventAtlas.Forest.Node

/-!
# Imports from their text

A `use` declaration is read from its text: a keyword may say that functions or constants are imported, a group
in braces shares the name before it, and a clause is a name or a name with an alias. A clause of any other
number of words imports nothing.
-/

namespace EventAtlas

/-- One imported name with the alias under which it is known. -/
structure Import where
  kind : ImportKind
  name : String
  short : String
deriving Inhabited, Repr, DecidableEq

namespace Import

/-- What follows a keyword, in any ASCII case, and the blanks after it, of which there must be one. -/
def stripKeyword? (keyword text : String) : Option String :=
  let head := text.toList.take keyword.length
  let rest := text.toList.drop keyword.length
  if head.map Char.toLower == keyword.toList && (rest.head?.map Text.isBlank).getD false then
    some (Text.trimStart (String.ofList rest))
  else none

/-- The kind that a leading keyword asks for, and the text after it. -/
def splitKind (text : String) : ImportKind × String :=
  match stripKeyword? "function" text with
  | some rest => (.function, rest)
  | none =>
    match stripKeyword? "const" text with
    | some rest => (.constant, rest)
    | none => (.classLike, text)

/-- The name of a clause, without leading separators, and its alias. -/
def splitAlias? (clause : String) : Option (String × String) :=
  match Text.words clause with
  | [name] =>
    let plain := Text.unrooted name
    some (plain, Text.afterLast '\\' plain)
  | [name, keyword, short] =>
    if Text.lower keyword == "as" then some (Text.unrooted name, short) else none
  | _ => none

/-- The text without `use`, semicolons at its end and blanks around it. -/
def body (text : String) : String :=
  let inner := Text.trim (Text.dropRight (· == ';') (Text.trim text))
  (stripKeyword? "use" inner).getD inner

/-- The clauses of a group, each below the shared name. -/
def ofGroup (kind : ImportKind) (stem : String) (clauses : String) : List Import :=
  (Text.splitAt ',' clauses).filterMap fun clause =>
    let (own, rest) := splitKind (Text.trim clause)
    let chosen := if own = .classLike then kind else own
    (splitAlias? rest).map fun (name, short) => ⟨chosen, stem ++ "\\" ++ name, short⟩

def ofClauses (kind : ImportKind) (clauses : String) : List Import :=
  (Text.splitAt ',' clauses).filterMap fun clause =>
    (splitAlias? (Text.trim clause)).map fun (name, short) => ⟨kind, Text.unrooted name, short⟩

/-- The shared name of a group: what stands before the brace, without blanks and separators at its ends. -/
def stemOf (before : String) : String :=
  Text.unrooted (Text.dropRight Text.isSeparator (Text.trim before))

/-- The text before the first opening brace and the text between it and the last closing brace. A text without
both braces has no group; a text whose last closing brace comes first has braces that do not match. -/
inductive Braces where
  | none
  | mismatched
  | group (before inside : String)

def Braces.ofText (text : String) : Braces :=
  let cs := text.toList
  if !cs.contains '{' || !cs.contains '}' then .none
  else
    let before := cs.takeWhile (· != '{')
    let after := (cs.dropWhile (· != '{')).drop 1
    if after.contains '}' then
      .group (String.ofList before)
        (String.ofList ((after.reverse.dropWhile (· != '}')).drop 1).reverse)
    else .mismatched

/-- The imports of a `use` declaration; nothing for braces that do not match. -/
def ofText? (text : String) : Option (List Import) :=
  let (kind, rest) := splitKind (body text)
  match Braces.ofText rest with
  | .none => some (ofClauses kind rest)
  | .group before inside => some (ofGroup kind (stemOf before) inside)
  | .mismatched => none

end Import

end EventAtlas
