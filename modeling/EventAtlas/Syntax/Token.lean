import EventAtlas.Syntax.Tree

/-!
# Lexemes

The source is read byte by byte, each byte as the character of its value; so a position is a number of characters
and a text outside ASCII needs no decoding. Blanks separate lexemes. Comments, and everything from a closing tag to
the next opening one, may stand between any two of them and are lexemes too.
-/

namespace EventAtlas.Syntax

inductive Token where
  /-- An identifier or a keyword, in small letters. -/
  | word (lower : String)
  /-- A name with separators. -/
  | qualified
  | var
  | integer
  | float
  | string
  | symbol (text : String)
  | comment
  /-- From a closing tag to the next opening one, or text before the first. -/
  | gap
deriving Inhabited, Repr, DecidableEq

/-- A lexeme with its place. -/
structure Lexeme where
  token : Token
  extent : Extent
deriving Inhabited, Repr, DecidableEq

namespace Token

/-! ## Classes of bytes -/

def byteChar (b : UInt8) : Char :=
  Char.ofNat b.toNat

/-- The number of bytes of the blank at the front, zero if there is none. Apart from the ASCII blanks these are the
no-break space, the zero-width space, the word joiner and the byte order mark. -/
def blankLength : List Char → Nat
  | [] => 0
  | c :: rest =>
    let n := c.toNat
    if n = 0x20 || (9 ≤ n && n ≤ 13) then 1
    else if n = 0xC2 then
      match rest with
      | a :: _ => if a.toNat = 0xA0 then 2 else 0
      | [] => 0
    else if n = 0xE2 || n = 0xEF then
      match rest with
      | a :: b :: _ =>
        if [(0xE2, 0x80, 0x8B), (0xE2, 0x81, 0xA0), (0xEF, 0xBB, 0xBF)].contains (n, a.toNat, b.toNat) then 3
        else 0
      | _ => 0
    else 0

/-- The front of a list can start a name: a letter, an underscore, or a byte outside ASCII that belongs to no blank
and to no character beyond the first plane. -/
def startsName (cs : List Char) : Bool :=
  match cs with
  | c :: _ => c.isAlpha || c = '_' || (0x80 ≤ c.toNat && c.toNat < 0xF0 && blankLength cs = 0)
  | [] => false

/-- The length of the name at the front; `started` holds after its first byte. -/
def nameLength (started : Bool) : List Char → Nat
  | [] => 0
  | c :: rest =>
    if startsName (c :: rest) || (started && c.isDigit) then nameLength true rest + 1 else 0

/-- The length of a name with separators: names with one separator before each. -/
def segmentsLength : Nat → List Char → Nat
  | 0, _ => 0
  | n + 1, '\\' :: rest =>
    match nameLength false rest with
    | 0 => 0
    | k => k + 1 + segmentsLength n (rest.drop k)
  | _ + 1, _ => 0

/-! ## Numbers -/

/-- The length of the digits at the front, with single underscores between them. -/
def digitsLength (p : Char → Bool) : List Char → Nat
  | [] => 0
  | c :: rest =>
    if p c then digitsLength p rest + 1
    else if c = '_' then
      match rest with
      | d :: _ => if p d then digitsLength p rest + 1 else 0
      | [] => 0
    else 0

def isHex (c : Char) : Bool :=
  c.isDigit || ('a' ≤ c && c ≤ 'f') || ('A' ≤ c && c ≤ 'F')

def isBinary (c : Char) : Bool :=
  c = '0' || c = '1'

def isOctal (c : Char) : Bool :=
  '0' ≤ c && c ≤ '7'

def exponentLength : List Char → Nat
  | c :: rest =>
    if c = 'e' || c = 'E' then
      let (sign, digits) := match rest with
        | '+' :: digits | '-' :: digits => (1, digits)
        | digits => (0, digits)
      match digitsLength Char.isDigit digits with
      | 0 => 0
      | k => 1 + sign + k
    else 0
  | [] => 0

/-- The fraction of a number whose whole part has been read. -/
def fractionLength : List Char → Nat
  | '.' :: rest =>
    match rest with
    | '.' :: _ => 0
    | _ => 1 + digitsLength Char.isDigit rest
  | _ => 0

/-- A number: whether it has a fraction or an exponent, and its length. -/
def number? (cs : List Char) : Option (Token × Nat) :=
  match cs with
  | '0' :: 'x' :: rest | '0' :: 'X' :: rest =>
    match digitsLength isHex rest with
    | 0 => none
    | k => some (.integer, k + 2)
  | '0' :: 'b' :: rest | '0' :: 'B' :: rest =>
    match digitsLength isBinary rest with
    | 0 => none
    | k => some (.integer, k + 2)
  | '0' :: 'o' :: rest | '0' :: 'O' :: rest => some (.integer, digitsLength isOctal rest + 2)
  | _ =>
    let whole := digitsLength Char.isDigit cs
    let fraction := fractionLength (cs.drop whole)
    let exponent := exponentLength (cs.drop (whole + fraction))
    if whole = 0 && fraction ≤ 1 then none
    else if fraction = 0 && exponent = 0 then some (.integer, whole)
    else some (.float, whole + fraction + exponent)

/-! ## Texts -/

/-- The length up to and including the closing quote, nothing if there is none. A backslash takes the next byte
along. -/
def quotedLength? (quote : Char) : List Char → Option Nat
  | [] => none
  | '\\' :: _ :: rest => (quotedLength? quote rest).map (· + 2)
  | c :: rest => if c = quote then some 1 else (quotedLength? quote rest).map (· + 1)

/-- The length of a text in which expressions in braces may stand. Inside of these, texts and braces are read over;
`depth` braces are open and `n` bounds the number of steps. -/
def templateLength? (quote : Char) : Nat → Nat → List Char → Option Nat
  | 0, _, _ => none
  | _ + 1, _, [] => none
  | n + 1, 0, '\\' :: _ :: rest => (templateLength? quote n 0 rest).map (· + 2)
  | n + 1, 0, '{' :: '$' :: rest => (templateLength? quote n 1 rest).map (· + 2)
  | n + 1, 0, '$' :: '{' :: rest => (templateLength? quote n 1 rest).map (· + 2)
  | n + 1, 0, c :: rest =>
    if c = quote then some 1 else (templateLength? quote n 0 rest).map (· + 1)
  | n + 1, depth + 1, c :: rest =>
    if c = '}' then (templateLength? quote n depth rest).map (· + 1)
    else if c = '{' then (templateLength? quote n (depth + 2) rest).map (· + 1)
    else if c = '\'' then
      match quotedLength? '\'' rest with
      | some k => (templateLength? quote n (depth + 1) (rest.drop k)).map (· + k + 1)
      | none => none
    else if c = '"' then
      match templateLength? '"' n 0 rest with
      | some k => (templateLength? quote n (depth + 1) (rest.drop k)).map (· + k + 1)
      | none => none
    else (templateLength? quote n (depth + 1) rest).map (· + 1)

/-- The length up to and including the label that ends a text of several lines: the first label at the start of a
line, blanks before it apart. `atLineStart` holds where a line starts. -/
def labelledLength? (label : List Char) (atLineStart : Bool) : List Char → Option Nat
  | [] => none
  | c :: rest =>
    let indent := ((c :: rest).takeWhile fun d => d = ' ' || d = '\t').length
    match atLineStart, Text.stripChars? label ((c :: rest).drop indent) with
    | true, some after =>
      if nameLength true after = 0 then some (indent + label.length)
      else (labelledLength? label (c = '\n') rest).map (· + 1)
    | _, _ => (labelledLength? label (c = '\n') rest).map (· + 1)

/-- The length of a text of several lines after its three angle brackets. -/
def heredocLength? (cs : List Char) : Option Nat :=
  let blanks := (cs.takeWhile fun c => c = ' ' || c = '\t').length
  let opened := cs.drop blanks
  let (quote, named) := match opened with
    | '\'' :: rest => (some '\'', rest)
    | '"' :: rest => (some '"', rest)
    | rest => (none, rest)
  match nameLength false named with
  | 0 => none
  | k =>
    let label := named.take k
    let after := named.drop k
    let closed := match quote with
      | some q => if after.head? == some q then some (after.drop 1) else none
      | none => some after
    match closed with
    | none => none
    | some body =>
      match body with
      | '\n' :: _ | '\r' :: _ =>
        (labelledLength? label false body).map fun m =>
          blanks + k + m + (if quote.isSome then 2 else 0)
      | _ => none

/-! ## Comments and tags -/

/-- The length of a comment to the end of its line or to a closing tag. -/
def lineCommentLength : List Char → Nat
  | '?' :: '>' :: _ | '\n' :: _ | '\r' :: _ | [] => 0
  | _ :: rest => lineCommentLength rest + 1

/-- The length up to and including the end of a block comment. -/
def blockCommentLength? : List Char → Option Nat
  | [] => none
  | '*' :: '/' :: _ => some 2
  | _ :: rest => (blockCommentLength? rest).map (· + 1)

def openTagLength? : List Char → Option Nat
  | '<' :: '?' :: rest =>
    match rest with
    | '=' :: _ => some 3
    | a :: b :: c :: _ => if [a, b, c].map Char.toLower == ['p', 'h', 'p'] then some 5 else some 2
    | _ => some 2
  | _ => none

/-- The length of text up to and including the next opening tag, or to the end. -/
def gapLength : List Char → Nat
  | [] => 0
  | c :: rest =>
    match openTagLength? (c :: rest) with
    | some k => k
    | none => gapLength rest + 1

/-! ## Symbols -/

/-- The symbols, longer ones before shorter ones. -/
def symbols : List String :=
  ["===", "!==", "<=>", "**=", "...", "<<=", ">>=", "??=", "?->",
    "==", "!=", "<>", "<=", ">=", "&&", "||", "??", "++", "--", "->", "=>", "::", "+=", "-=", "*=", "/=", ".=",
    "%=", "&=", "|=", "^=", "<<", ">>", "**", "#[",
    "+", "-", "*", "/", "%", "=", "<", ">", "!", ".", "&", "|", "^", "~", "?", ":", ";", ",", "(", ")", "[", "]",
    "\x7b", "\x7d", "@", "$", "\\"]

def symbol? (cs : List Char) : Option (Token × Nat) :=
  (symbols.find? fun s => (Text.stripChars? s.toList cs).isSome).map fun s => (.symbol s, s.length)

/-! ## Lexemes -/

def text? : List Char → Option (Token × Nat)
  | '\'' :: rest => (quotedLength? '\'' rest).map fun k => (.string, k + 1)
  | '"' :: rest => (templateLength? '"' (rest.length + 1) 0 rest).map fun k => (.string, k + 1)
  | '\x60' :: rest => (templateLength? '\x60' (rest.length + 1) 0 rest).map fun k => (.string, k + 1)
  | _ => none

/-- A name, a keyword or a name with separators. -/
def name? (cs : List Char) : Option (Token × Nat) :=
  let first := nameLength false cs
  let more := segmentsLength cs.length (cs.drop first)
  if more = 0 then
    if first = 0 then none
    else some (.word (String.ofList ((cs.take first).map Char.toLower)), first)
  else some (.qualified, first + more)

/-- The token at the front, which is no blank, and its length. -/
def scan? (cs : List Char) : Option (Token × Nat) :=
  match cs with
  | '?' :: '>' :: rest => some (.gap, gapLength rest + 2)
  | '/' :: '/' :: rest => some (.comment, lineCommentLength rest + 2)
  | '/' :: '*' :: rest => (blockCommentLength? rest).map fun k => (.comment, k + 2)
  | '#' :: rest =>
    if rest.head? == some '[' then some (.symbol "#[", 2) else some (.comment, lineCommentLength rest + 1)
  | '<' :: '<' :: '<' :: rest =>
    match heredocLength? rest with
    | some k => some (.string, k + 3)
    | none => symbol? cs
  | '$' :: rest =>
    match nameLength false rest with
    | 0 => some (.symbol "$", 1)
    | k => some (.var, k + 1)
  | '\'' :: _ | '"' :: _ | '\x60' :: _ => text? cs
  | 'b' :: '\'' :: rest | 'B' :: '\'' :: rest => (text? ('\'' :: rest)).map fun (t, k) => (t, k + 1)
  | 'b' :: '"' :: rest | 'B' :: '"' :: rest => (text? ('"' :: rest)).map fun (t, k) => (t, k + 1)
  | '.' :: c :: _ => if c.isDigit then number? cs else symbol? cs
  | c :: _ =>
    if c.isDigit then number? cs
    else match name? cs with
      | some r => some r
      | none => symbol? cs
  | [] => none

end Token

namespace Lexeme

/-- The number of line ends. -/
def rowsOf (cs : List Char) : Nat :=
  cs.count '\n'

/-- The lexemes of a list at a place; `n` bounds the number of steps. Nothing if some part is no lexeme. -/
def scan : Nat → Nat → Nat → List Char → Option (List Lexeme)
  | 0, _, _, _ => none
  | _ + 1, _, _, [] => some []
  | n + 1, offset, row, cs =>
    match Token.blankLength cs with
    | 0 =>
      match Token.scan? cs with
      | none => none
      | some (token, k) =>
        let rows := rowsOf (cs.take k)
        (scan n (offset + k) (row + rows) (cs.drop k)).map
          (⟨token, ⟨offset, offset + k, row⟩⟩ :: ·)
    | k => scan n (offset + k) (row + rowsOf (cs.take k)) (cs.drop k)

/-- The number of blanks at the front; `n` bounds the number of steps. -/
def leadingBlanks : Nat → List Char → Nat
  | 0, _ => 0
  | n + 1, cs =>
    match Token.blankLength cs with
    | 0 => 0
    | k => k + leadingBlanks n (cs.drop k)

/-- The lexemes of a file: everything up to the first opening tag is a gap. -/
def ofSource (s : Source) : Option (List Lexeme) :=
  let cs := (ByteArray.toList s).map Token.byteChar
  let blanks := leadingBlanks cs.length cs
  let row := rowsOf (cs.take blanks)
  match cs.drop blanks with
  | [] => some []
  | body =>
    let k := Token.gapLength body
    (scan (body.length + 1) (blanks + k) (row + rowsOf (body.take k)) (body.drop k)).map
      (⟨.gap, ⟨blanks, blanks + k, row⟩⟩ :: ·)

end Lexeme

end EventAtlas.Syntax
