import EventAtlas.Doc.DocType
import EventAtlas.Text.Letter

/-!
# Reading documented types

From loose to tight, a type is a union `A|B`, an intersection `A&B`, a type with brackets `T[]`, and one of `?T`,
`(T)`, a literal or a name with arguments. Blanks may stand around a bar, after an ampersand, inside brackets and
around commas, and nowhere else. A shape in braces and the signature of a callable are read over.

A list goes on as long as a separator with a further part follows; a separator without one is left unread. So a
reader that is not asked to read everything stops at the longest type from the left.
-/

namespace EventAtlas.DocType

/-- Reads something from the front of a list of characters. -/
abbrev Reader (α : Type) := List Char → Option (α × List Char)

namespace Reader

/-- A blank inside a type. -/
def isSpace (c : Char) : Bool :=
  c = ' ' || c = '\t' || c = '\r' || c = '\n'

/-- The rest after blanks. -/
def skip (cs : List Char) : List Char :=
  cs.dropWhile isSpace

/-- The rest after one character. -/
def char? (c : Char) : List Char → Option (List Char)
  | d :: rest => if d = c then some rest else none
  | [] => none

/-- As many parts as follow, at most `n` of them; `step` reads one with what stands before it. -/
def many (step : Reader α) : Nat → List Char → List α × List Char
  | 0, cs => ([], cs)
  | n + 1, cs =>
    match step cs with
    | some (a, rest) =>
      let (as, rest) := many step n rest
      (a :: as, rest)
    | none => ([], cs)

/-- As many parts as follow. -/
def all (step : Reader α) (cs : List Char) : List α × List Char :=
  many step cs.length cs

/-- A separator, with blanks around it if they are allowed, and a further part. -/
def further (separator : Char) (blankBefore : Bool) (part : Reader α) (cs : List Char) : Option (α × List Char) := do
  let rest ← char? separator (if blankBefore then skip cs else cs)
  part (skip rest)

/-- Up to a closing quote. -/
def quoted (quote : Char) (cs : List Char) : Option (DocType × List Char) := do
  let rest ← char? quote cs
  let rest ← char? quote (rest.dropWhile (· != quote))
  some (.named "string", rest)

def integer (cs : List Char) : Option (DocType × List Char) :=
  let digits := (char? '-' cs).getD cs
  match digits.takeWhile Char.isDigit with
  | [] => none
  | _ => some (.named "int", digits.dropWhile Char.isDigit)

def startsName (c : Char) : Bool :=
  Text.isLetter c || c = '_' || c = '\\'

def continuesName (c : Char) : Bool :=
  Text.isLetterOrNumber c || c = '_' || c = '\\' || c = '-'

/-- A name; the variable for the current object counts as one. -/
def name (cs : List Char) : Option (String × List Char) :=
  match Text.stripChars? "$this".toList cs with
  | some rest => some ("$this", rest)
  | none =>
    match cs with
    | c :: rest =>
      if startsName c then
        some (String.ofList (c :: rest.takeWhile continuesName), rest.dropWhile continuesName)
      else none
    | [] => none

/-- A name whose signature may follow it. -/
def isCallable (name : String) : Bool :=
  ["callable", "closure"].contains (Text.unrooted (Text.lower name))

/-- The rest after the bracket that closes the one at the front; `depth` are open. -/
def balanced? (opening closing : Char) : Nat → List Char → Option (List Char)
  | _, [] => none
  | depth, c :: rest =>
    if c = opening then balanced? opening closing (depth + 1) rest
    else if c = closing then
      if depth ≤ 1 then some rest else balanced? opening closing (depth - 1) rest
    else balanced? opening closing depth rest

/-- The arguments in angle brackets, if they are there. -/
def arguments (part : Reader DocType) (cs : List Char) : Option (List DocType × List Char) := do
  let rest ← char? '<' cs
  let (first, rest) ← part (skip rest)
  let (more, rest) := all (further ',' true part) rest
  let rest ← char? '>' (skip rest)
  some (first :: more, rest)

/-- The rest after a shape or, for a callable, a signature. -/
def narrowing? (name : String) (returned : Reader DocType) (cs : List Char) : Option (List Char) :=
  match cs with
  | '{' :: _ => balanced? '{' '}' 0 cs
  | '(' :: _ =>
    if isCallable name then do
      let rest ← balanced? '(' ')' 0 cs
      match further ':' true returned rest with
      | some (_, rest) => some rest
      | none => some rest
    else some cs
  | _ => some cs

/-- How loosely the parts of a type hold together. -/
inductive Level where
  | union
  | intersection
  | bracketed
  | plain

/-- A type of this level, with at most `n` levels inside one another. -/
def type : Nat → Level → Reader DocType
  | 0, _, _ => none
  | n + 1, .union, cs => do
    let (first, rest) ← type n .intersection cs
    match all (further '|' true (type n .intersection)) rest with
    | ([], rest) => some (first, rest)
    | (more, rest) => some (.union (first :: more), rest)
  | n + 1, .intersection, cs => do
    let (first, rest) ← type n .bracketed cs
    match all (further '&' false (type n .bracketed)) rest with
    | ([], rest) => some (first, rest)
    | (more, rest) => some (.intersection (first :: more), rest)
  | n + 1, .bracketed, cs => do
    let (inner, rest) ← type n .plain cs
    let (pairs, rest) := all (fun cs => (Text.stripChars? ['[', ']'] cs).map fun rest => ((), rest)) rest
    some (pairs.foldl (fun t _ => .array t) inner, rest)
  | n + 1, .plain, cs =>
    ((do
      let rest ← char? '?' cs
      let (t, rest) ← type n .bracketed rest
      some (DocType.nullable t, rest)).or do
      let rest ← char? '(' cs
      let (t, rest) ← type n .union (skip rest)
      let rest ← char? ')' (skip rest)
      some (t, rest))
    |>.or (quoted '\'' cs)
    |>.or (quoted '"' cs)
    |>.or (integer cs)
    |>.or do
      let (base, rest) ← name cs
      match arguments (type n .union) rest with
      | some (args, rest) =>
        let rest ← narrowing? base (type n .bracketed) rest
        some (.generic base args, rest)
      | none =>
        let rest ← narrowing? base (type n .bracketed) rest
        some (.named base, rest)

/-- The longest type at the front. Each level of nesting takes a character and passes four levels at most. -/
def union (cs : List Char) : Option (DocType × List Char) :=
  type (4 * cs.length + 4) .union cs

end Reader

/-- The type that a whole text denotes, blanks around it apart. -/
def parse? (text : String) : Option DocType :=
  match Reader.union (Text.trim text).toList with
  | some (t, []) => some t
  | _ => none

end EventAtlas.DocType
