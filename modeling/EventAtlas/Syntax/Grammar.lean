import EventAtlas.Syntax.Token

/-!
# Reading phrases

A reader of phrases takes lexemes from the front. Comments and gaps before a lexeme are passed over, except where a
list of statements or members asks for them. The end of the last lexeme that was taken is the end of the phrase that
is being read. A statement ends with a semicolon or before a closing tag.
-/

namespace EventAtlas.Syntax

/-- The lexemes ahead and the end of the last one taken. -/
structure Input where
  ahead : List Lexeme
  last : Nat := 0
deriving Inhabited, Repr

abbrev Reads := StateT Input Option

/-- The rules of the grammar that refer to each other. -/
inductive Rule where
  | statement
  | block
  /-- The members of a class in braces. -/
  | members
  /-- An expression whose operators bind at least this tightly. -/
  | expression (level : Nat)
  /-- A list of targets that an array is taken apart into. -/
  | targets
  | type
deriving Inhabited, Repr, DecidableEq

/-- The readers of the rules inside the phrase that is being read. -/
abbrev Inner := Rule → Reads Tree

namespace Reads

/-- A comment or a gap. -/
def isExtra (l : Lexeme) : Bool :=
  l.token = .comment || l.token = .gap

/-- Pass over comments and gaps. -/
def skip : Reads Unit :=
  modify fun s => { s with ahead := s.ahead.dropWhile isExtra }

/-- The next lexeme, which is not taken. -/
def peek? : Reads (Option Lexeme) := do
  return (← get).ahead.find? fun l => !isExtra l

/-- The token of the next lexeme. -/
def peekToken? : Reads (Option Token) := do
  return (← peek?).map Lexeme.token

def peekSecond? : Reads (Option Token) := do
  let after := ((← get).ahead.dropWhile isExtra).drop 1
  return (after.find? fun l => !isExtra l).map Lexeme.token

def peekThird? : Reads (Option Token) := do
  let after := ((← get).ahead.dropWhile isExtra).drop 1
  let after := (after.dropWhile isExtra).drop 1
  return (after.find? fun l => !isExtra l).map Lexeme.token

def take : Reads Lexeme := do
  skip
  match (← get).ahead with
  | l :: rest =>
    set { ahead := rest, last := l.extent.stop : Input }
    return l
  | [] => failure

/-- The place at which the next lexeme starts. -/
def mark : Reads Extent := do
  match ← peek? with
  | some l => return l.extent
  | none => failure

/-- The phrase from a place to the end of the last lexeme taken. -/
def close (kind : Kind) (start : Extent) (children : List Tree) : Reads Tree := do
  return .node kind none { start with stop := (← get).last } children

/-- Whether the next lexeme is this symbol. -/
def sees (s : String) : Reads Bool := do
  return (← peekToken?) == some (.symbol s)

/-- Whether the next lexeme is this word. -/
def seesWord (w : String) : Reads Bool := do
  return (← peekToken?) == some (.word w)

/-- Take the symbol if it is next. -/
def accept (s : String) : Reads Bool := do
  if ← sees s then
    let _ ← take
    return true
  else return false

/-- Take the word if it is next. -/
def acceptWord (w : String) : Reads Bool := do
  if ← seesWord w then
    let _ ← take
    return true
  else return false

/-- Take this symbol. -/
def expect (s : String) : Reads Unit := do
  if ← accept s then return else failure

def expectWord (w : String) : Reads Unit := do
  if ← acceptWord w then return else failure

/-- A phrase of one lexeme. -/
def leaf (kind : Kind) : Reads Tree := do
  let l ← take
  return .node kind none l.extent []

/-- What a reader gives, or nothing with the input as before. -/
def attempt (p : Reads α) : Reads (Option α) := fun s =>
  match p s with
  | some (a, s) => some (some a, s)
  | none => some (none, s)

/-- Repeat while a reader gives something; `n` bounds the number of rounds. -/
def repeating (step : Reads (Option α)) : Nat → Reads (List α)
  | 0 => failure
  | n + 1 => do
    match ← step with
    | some a => return a :: (← repeating step n)
    | none => return []

/-- Repeat as long as a reader gives something. -/
def many (step : Reads (Option α)) : Reads (List α) := do
  repeating step ((← get).ahead.length + 1)

/-- At least one, with commas between them. -/
def commaSeparated (item : Reads α) : Reads (List α) := do
  let first ← item
  let more ← many do
    if ← accept "," then return some (← item) else return none
  return first :: more

/-- Any number up to a closing symbol, which is taken, with commas between them and perhaps one at the end. -/
def enclosed (closing : String) (item : Reads α) : Reads (List α) := do
  let items ← many do
    if ← sees closing then return none
    else
      let a ← item
      if ← sees closing then return some a
      else
        expect ","
        return some a
  expect closing
  return items

def isWord : Option Token → Bool
  | some (.word _) => true
  | _ => false

def isNameToken : Option Token → Bool
  | some (.word _) | some .qualified => true
  | _ => false

def nameLeaf : Reads Tree := do
  match ← peekToken? with
  | some (.word _) => leaf .name
  | some .qualified => leaf .qualifiedName
  | _ => failure

def wordLeaf : Reads Tree := do
  if isWord (← peekToken?) then leaf .name else failure

def variableLeaf : Reads Tree := do
  if (← peekToken?) == some .var then leaf .variableName else failure

/-- The change in the number of open brackets. -/
def bracketStep (opening closing : String) (depth : Nat) : Token → Nat
  | .symbol s => if s == closing then depth - 1 else if s == opening || s == "#" ++ opening then depth + 1 else depth
  | _ => depth

/-- Pass over everything up to the bracket that closes the one that has been taken. -/
def skipBrackets (opening closing : String) : Nat → Nat → Reads Unit
  | 0, _ => failure
  | _ + 1, 0 => return
  | n + 1, depth + 1 => do
    let l ← take
    skipBrackets opening closing n (bracketStep opening closing (depth + 1) l.token)

def attributes : Reads Unit := do
  let _ ← many do
    if ← accept "#[" then
      skipBrackets "[" "]" ((← get).ahead.length + 1) 1
      return some ()
    else return none

/-- The comments ahead up to the first gap, and what follows them. -/
def beforeGap (ls : List Lexeme) : List Lexeme × List Lexeme :=
  (ls.takeWhile fun l => l.token = .comment, ls.dropWhile fun l => l.token = .comment)

/-- The end of a statement: a semicolon, or nothing before a closing tag. -/
def semicolon : Reads Unit := do
  let s ← get
  let (comments, rest) := beforeGap s.ahead
  match rest with
  | l :: after =>
    if l.token = .gap then
      let last := (comments.getLast?.map fun c => c.extent.stop).getD s.last
      set { ahead := rest, last : Input }
    else if l.token = .symbol ";" then
      set { ahead := after, last := l.extent.stop : Input }
    else failure
  | [] => failure

/-- The comment or gap at the front as a phrase. -/
def extra? : Reads (Option Tree) := do
  let s ← get
  match s.ahead with
  | l :: rest =>
    if isExtra l then
      set { s with ahead := rest }
      let kind : Kind := if l.token = .comment then .comment else .mark "text_interpolation"
      return some (.node kind none l.extent [])
    else return none
  | [] => return none

/-- Phrases with the comments and gaps between them, up to where `done` holds. -/
def interleaved (done : Reads Bool) (item : Reads Tree) : Reads (List Tree) :=
  many do
    match ← extra? with
    | some t => return some t
    | none => if ← done then return none else return some (← item)

end Reads

end EventAtlas.Syntax
