import EventAtlas.Json.Value

/-!
# Writing JSON

Two written forms: the compact one without any blanks, and the pretty one with two blanks per level, a line for
each item and no blanks inside empty brackets. In texts, only the quote, the backslash and control characters
are escaped.
-/

namespace EventAtlas.Json

/-- The escaped form of a character inside a text. -/
def escapeChar (c : Char) : List Char :=
  if c = '"' then ['\\', '"']
  else if c = '\\' then ['\\', '\\']
  else if c = '\n' then ['\\', 'n']
  else if c = '\r' then ['\\', 'r']
  else if c = '\t' then ['\\', 't']
  else if c.toNat = 8 then ['\\', 'b']
  else if c.toNat = 12 then ['\\', 'f']
  else if c.toNat < 0x20 then
    ['\\', 'u', '0', '0', Nat.digitChar (c.toNat / 16), Nat.digitChar (c.toNat % 16)]
  else [c]

def quote (s : String) : String :=
  String.ofList ('"' :: s.toList.flatMap escapeChar ++ ['"'])

def compact : Json → String
  | .null => "null"
  | .bool b => if b then "true" else "false"
  | .int n => toString n
  | .decimal literal => literal
  | .str s => quote s
  | .arr items => "[" ++ Text.joinWith "," (compactItems items) ++ "]"
  | .obj fields => "\x7b" ++ Text.joinWith "," (compactFields fields) ++ "\x7d"
where
  compactItems : List Json → List String
    | [] => []
    | j :: rest => j.compact :: compactItems rest
  compactFields : List (String × Json) → List String
    | [] => []
    | (k, j) :: rest => (quote k ++ ":" ++ j.compact) :: compactFields rest

/-- The start of a line at this level. -/
def newline (level : Nat) : String :=
  "\n" ++ String.ofList (List.replicate (2 * level) ' ')

def prettyAt (level : Nat) : Json → String
  | .arr [] => "[]"
  | .obj [] => "\x7b\x7d"
  | .arr items =>
    "[" ++ newline (level + 1) ++ Text.joinWith ("," ++ newline (level + 1)) (prettyItems (level + 1) items)
      ++ newline level ++ "]"
  | .obj fields =>
    "\x7b" ++ newline (level + 1) ++ Text.joinWith ("," ++ newline (level + 1)) (prettyFields (level + 1) fields)
      ++ newline level ++ "\x7d"
  | j => j.compact
where
  prettyItems (level : Nat) : List Json → List String
    | [] => []
    | j :: rest => j.prettyAt level :: prettyItems level rest
  prettyFields (level : Nat) : List (String × Json) → List String
    | [] => []
    | (k, j) :: rest => (quote k ++ ": " ++ j.prettyAt level) :: prettyFields level rest

def pretty (j : Json) : String :=
  j.prettyAt 0

end EventAtlas.Json
