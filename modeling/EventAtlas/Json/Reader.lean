import EventAtlas.Json.Value

/-!
# Reading JSON

A reader takes characters from the front of a list and returns what it read with the rest. Nothing lenient is
accepted: no trailing comma, no leading zero, no bare control character in a text, no half of a surrogate pair,
nothing but blanks after the value. Brackets nest at most 127 deep.
-/

namespace EventAtlas.Json

/-- Reads something from the front of a list of characters. -/
abbrev Reader (α : Type) := List Char → Option (α × List Char)

namespace Reader

/-- A blank between tokens. -/
def isSpace (c : Char) : Bool :=
  c = ' ' || c = '\n' || c = '\t' || c = '\r'

/-- The rest after the blanks. -/
def skip (cs : List Char) : List Char :=
  cs.dropWhile isSpace

def hexDigit? (c : Char) : Option Nat :=
  if c.isDigit then some (c.toNat - '0'.toNat)
  else if 'a' ≤ c && c ≤ 'f' then some (c.toNat - 'a'.toNat + 10)
  else if 'A' ≤ c && c ≤ 'F' then some (c.toNat - 'A'.toNat + 10)
  else none

def hex4 : Reader Nat
  | a :: b :: c :: d :: rest => do
    let a ← hexDigit? a
    let b ← hexDigit? b
    let c ← hexDigit? c
    let d ← hexDigit? d
    some (((a * 16 + b) * 16 + c) * 16 + d, rest)
  | _ => none

/-- The character after `\u`: one unit, or two units that form a surrogate pair. -/
def escapedUnit (cs : List Char) : Option (Char × List Char) := do
  let (high, rest) ← hex4 cs
  if 0xDC00 ≤ high && high ≤ 0xDFFF then none
  else if 0xD800 ≤ high && high ≤ 0xDBFF then
    match rest with
    | '\\' :: 'u' :: rest =>
      let (low, rest) ← hex4 rest
      if 0xDC00 ≤ low && low ≤ 0xDFFF then
        some (Char.ofNat (0x10000 + (high - 0xD800) * 0x400 + (low - 0xDC00)), rest)
      else none
    | _ => none
  else some (Char.ofNat high, rest)

def escaped : Reader Char
  | '"' :: rest => some ('"', rest)
  | '\\' :: rest => some ('\\', rest)
  | '/' :: rest => some ('/', rest)
  | 'b' :: rest => some (Char.ofNat 8, rest)
  | 'f' :: rest => some (Char.ofNat 12, rest)
  | 'n' :: rest => some ('\n', rest)
  | 'r' :: rest => some ('\r', rest)
  | 't' :: rest => some ('\t', rest)
  | 'u' :: rest => escapedUnit rest
  | _ => none

/-- The characters of a text up to its closing quote; `n` bounds their number, and they are collected latest
first. -/
def textChars : Nat → List Char → List Char → Option (List Char × List Char)
  | 0, _, _ => none
  | _ + 1, _, [] => none
  | n + 1, out, c :: rest =>
    if c = '"' then some (out.reverse, rest)
    else if c = '\\' then
      match escaped rest with
      | some (d, rest) => textChars n (d :: out) rest
      | none => none
    else if c.toNat < 0x20 then none
    else textChars n (c :: out) rest

/-- A text whose opening quote has been read. -/
def text (cs : List Char) : Option (String × List Char) :=
  (textChars (cs.length + 1) [] cs).map fun (out, rest) => (String.ofList out, rest)

def digitsValue (ds : List Char) : Nat :=
  ds.foldl (fun n d => n * 10 + (d.toNat - '0'.toNat)) 0

def digits (cs : List Char) : Option (List Char × List Char) :=
  match cs.takeWhile Char.isDigit with
  | [] => none
  | ds => some (ds, cs.dropWhile Char.isDigit)

/-- The whole part of a number: zero, or digits that do not start with zero. -/
def whole : Reader (List Char)
  | '0' :: rest => some (['0'], rest)
  | cs => digits cs

/-- The fraction of a number, empty if there is none. -/
def fraction : Reader (List Char)
  | '.' :: rest => (digits rest).map fun (ds, rest) => ('.' :: ds, rest)
  | cs => some ([], cs)

def exponentSign : List Char → List Char × List Char
  | '+' :: rest => (['+'], rest)
  | '-' :: rest => (['-'], rest)
  | cs => ([], cs)

/-- The exponent of a number, empty if there is none. -/
def exponent : Reader (List Char)
  | c :: rest =>
    if c = 'e' || c = 'E' then
      let (sign, rest) := exponentSign rest
      (digits rest).map fun (ds, rest) => (c :: sign ++ ds, rest)
    else some ([], c :: rest)
  | [] => some ([], [])

/-- The digits of a number whose sign has been read. -/
def unsigned (negative : Bool) (cs : List Char) : Option (Json × List Char) := do
  let (w, rest) ← whole cs
  let (f, rest) ← fraction rest
  let (e, rest) ← exponent rest
  let sign := if negative then ['-'] else []
  if f.isEmpty && e.isEmpty then
    if negative then
      if digitsValue w = 0 then some (.decimal "-0.0", rest)
      else some (.int (-(digitsValue w : Int)), rest)
    else some (.int (digitsValue w), rest)
  else some (.decimal (String.ofList (sign ++ w ++ f ++ e)), rest)

def number : Reader Json
  | '-' :: rest => unsigned true rest
  | cs => unsigned false cs

/-- The items after an opening bracket; `n` bounds their number, and they are collected latest first. -/
def items (value : Reader Json) : Nat → List Json → List Char → Option (List Json × List Char)
  | 0, _, _ => none
  | n + 1, out, cs => do
    let (j, rest) ← value cs
    match skip rest with
    | ',' :: rest => items value n (j :: out) rest
    | ']' :: rest => some ((j :: out).reverse, rest)
    | _ => none

def field (value : Reader Json) (cs : List Char) : Option ((String × Json) × List Char) :=
  match skip cs with
  | '"' :: rest => do
    let (name, rest) ← text rest
    match skip rest with
    | ':' :: rest =>
      let (j, rest) ← value rest
      some ((name, j), rest)
    | _ => none
  | _ => none

/-- The fields after an opening brace; `n` bounds their number, and they are collected latest first. -/
def fields (value : Reader Json) :
    Nat → List (String × Json) → List Char → Option (List (String × Json) × List Char)
  | 0, _, _ => none
  | n + 1, out, cs => do
    let (f, rest) ← field value cs
    match skip rest with
    | ',' :: rest => fields value n (f :: out) rest
    | '}' :: rest => some ((f :: out).reverse, rest)
    | _ => none

/-- The rest after a word, with the value that the word stands for. -/
def word (w : String) (j : Json) (cs : List Char) : Option (Json × List Char) :=
  (Text.stripChars? w.toList cs).map fun rest => (j, rest)

/-- A value inside fewer than `depth` brackets. -/
def value : Nat → Reader Json
  | 0, _ => none
  | depth + 1, cs =>
    match skip cs with
    | [] => none
    | '"' :: rest => (text rest).map fun (s, rest) => (.str s, rest)
    | '[' :: rest =>
      if depth = 0 then none
      else match skip rest with
        | ']' :: rest => some (.arr [], rest)
        | rest => (items (value depth) (rest.length + 1) [] rest).map fun (js, rest) => (.arr js, rest)
    | '{' :: rest =>
      if depth = 0 then none
      else match skip rest with
        | '}' :: rest => some (.obj [], rest)
        | rest => (fields (value depth) (rest.length + 1) [] rest).map fun (fs, rest) => (.obj fs, rest)
    | 't' :: rest => word "true" (.bool true) ('t' :: rest)
    | 'f' :: rest => word "false" (.bool false) ('f' :: rest)
    | 'n' :: rest => word "null" .null ('n' :: rest)
    | cs => number cs

end Reader

/-- The value that a whole text denotes. -/
def parse? (s : String) : Option Json :=
  match Reader.value 128 s.toList with
  | some (j, rest) => if (Reader.skip rest).isEmpty then some j else none
  | none => none

end EventAtlas.Json
