/-!
# Text up to ASCII case

Class and function names of the analysed language are compared without regard to ASCII case, and only
ASCII case: letters beyond it stay as they are. This module holds that comparison and the few ways in
which the project cuts a text apart. Everything is a function on lists of characters underneath, so a
statement about a text is a statement about a list.
-/

namespace EventAtlas.Text

/-- The text with the ASCII capitals made small; every other character stays. -/
def lower (s : String) : String :=
  String.ofList (s.toList.map Char.toLower)

/-- Two texts are the same up to ASCII case. -/
def sameLetters (a b : String) : Bool :=
  lower a == lower b

/-- Drop the leading characters that satisfy `p`. -/
def dropLeft (p : Char → Bool) (s : String) : String :=
  String.ofList (s.toList.dropWhile p)

/-- Drop the trailing characters that satisfy `p`. -/
def dropRight (p : Char → Bool) (s : String) : String :=
  String.ofList (s.toList.reverse.dropWhile p).reverse

/-- Drop the characters that satisfy `p` from both ends. -/
def dropBoth (p : Char → Bool) (s : String) : String :=
  dropRight p (dropLeft p s)

/-- The separator between the segments of a qualified name. -/
def isSeparator (c : Char) : Bool :=
  c == '\\'

/-- The name without its leading separators. -/
def unrooted (name : String) : String :=
  dropLeft isSeparator name

/-- `stripChars? head text` is what follows `head` in `text`, if `text` starts with it. -/
def stripChars? : List Char → List Char → Option (List Char)
  | [], text => some text
  | _ :: _, [] => none
  | c :: head, d :: text => if c = d then stripChars? head text else none

/-- What follows `head` in `s`, if `s` starts with `head`. -/
def strip? (head s : String) : Option String :=
  (stripChars? head.toList s.toList).map String.ofList

def startsWith (head s : String) : Bool :=
  (stripChars? head.toList s.toList).isSome

def endsWith (tail s : String) : Bool :=
  (stripChars? tail.toList.reverse s.toList.reverse).isSome

/-- Drop `head` from the start as often as it stands there; `n` bounds the number of rounds. -/
def stripManyChars (head : List Char) : Nat → List Char → List Char
  | 0, text => text
  | n + 1, text =>
    match stripChars? head text with
    | some rest => stripManyChars head n rest
    | none => text

/-- Drop `head` from the start of `s` as often as it stands there. -/
def stripMany (head s : String) : String :=
  String.ofList (stripManyChars head.toList s.toList.length s.toList)

/-- Drop `tail` from the end of `s` as often as it stands there. -/
def stripManyEnd (tail s : String) : String :=
  String.ofList
    (stripManyChars tail.toList.reverse s.toList.length s.toList.reverse).reverse

/-- The pieces of a list between the members that satisfy `p`: always one more than there are such members. -/
def pieces (p : α → Bool) : List α → List (List α)
  | [] => [[]]
  | c :: rest =>
    if p c then [] :: pieces p rest
    else match pieces p rest with
      | [] => [[c]]
      | piece :: more => (c :: piece) :: more

/-- The pieces of `s` between the occurrences of `c`. -/
def splitAt (c : Char) (s : String) : List String :=
  (pieces (· == c) s.toList).map String.ofList

/-- The part of `s` before the first character that satisfies `p`, and the part after it. -/
def splitFirst? (p : Char → Bool) (s : String) : Option (String × String) :=
  match s.toList.dropWhile (fun c => !p c) with
  | [] => none
  | _ :: rest => some (String.ofList (s.toList.takeWhile (fun c => !p c)), String.ofList rest)

/-- The part of `s` after the last `c`; all of `s` when there is none. -/
def afterLast (c : Char) (s : String) : String :=
  String.ofList (s.toList.reverse.takeWhile (· != c)).reverse

/-- Some part of `text` is `word`. -/
def containsChars (word : List Char) : List Char → Bool
  | [] => word.isEmpty
  | c :: rest => (stripChars? word (c :: rest)).isSome || containsChars word rest

def contains (word s : String) : Bool :=
  containsChars word.toList s.toList

/-- The text without the first occurrence of `word`. -/
def eraseFirstChars (word : List Char) : List Char → List Char
  | [] => []
  | c :: rest =>
    match stripChars? word (c :: rest) with
    | some after => after
    | none => c :: eraseFirstChars word rest

/-- `s` without the first occurrence of `word`. -/
def eraseFirst (word s : String) : String :=
  String.ofList (eraseFirstChars word.toList s.toList)

/-- The texts one after another with `sep` between them. -/
def joinWith (sep : String) : List String → String
  | [] => ""
  | [s] => s
  | s :: rest => s ++ sep ++ joinWith sep rest

end EventAtlas.Text
