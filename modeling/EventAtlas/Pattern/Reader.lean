import EventAtlas.Pattern.Expr

/-!
# Reading patterns

Flags hold from where they are set to the end of the group around them. With the verbose flag, blanks and comments
between the parts of a pattern do not count. A repetition needs something to repeat, brackets need their partners,
group names differ, ranges ascend, and an escaped letter or digit must have a meaning; everything else is refused.
-/

namespace EventAtlas.Pattern

/-- What holds at some place of a pattern. -/
structure Flags where
  ignoreCase : Bool := false
  multiLine : Bool := false
  dotAll : Bool := false
  crlf : Bool := false
  unicode : Bool := true
  verbose : Bool := false
deriving Inhabited, Repr, DecidableEq

namespace Flags

def word (f : Flags) : CharSet :=
  if f.unicode then .word else .asciiWord

/-- The set closed under case if case does not count. -/
def fold (f : Flags) (s : CharSet) : CharSet :=
  if f.ignoreCase then .anyCase s else s

def literal? (f : Flags) (c : Char) : Option Expr :=
  if !f.unicode && 0x80 ≤ c.toNat then none else some (.chars (f.fold (.single c)))

/-- Any character; without the flag for it, no line end. -/
def dot? (f : Flags) : Option Expr :=
  if !f.unicode then none
  else if f.dotAll then some (.chars .all)
  else if f.crlf then some (.chars (.compl (.union (.single '\n') (.single '\r'))))
  else some (.chars (.compl (.single '\n')))

/-- The start of a text or a line. -/
def caret (f : Flags) : Anchor :=
  if !f.multiLine then .textStart else if f.crlf then .lineStartCrlf else .lineStart

/-- The end of a text or a line. -/
def dollar (f : Flags) : Anchor :=
  if !f.multiLine then .textEnd else if f.crlf then .lineEndCrlf else .lineEnd

/-- The letter of a flag switched. The flag for greed has no effect on what matches. -/
def switch? (f : Flags) (on : Bool) : Char → Option Flags
  | 'i' => some { f with ignoreCase := on }
  | 'm' => some { f with multiLine := on }
  | 's' => some { f with dotAll := on }
  | 'R' => some { f with crlf := on }
  | 'u' => some { f with unicode := on }
  | 'x' => some { f with verbose := on }
  | 'U' => some f
  | _ => none

end Flags

namespace Reader

/-! ## Blanks -/

/-- The rest after blanks and comments; `n` bounds the number of characters. -/
def skipBlanks : Nat → List Char → List Char
  | 0, cs => cs
  | _ + 1, [] => []
  | n + 1, c :: rest =>
    if Text.isBlank c then skipBlanks n rest
    else if c = '#' then skipBlanks n (rest.dropWhile (· != '\n'))
    else c :: rest

/-- The rest after what does not count. -/
def skip (f : Flags) (cs : List Char) : List Char :=
  if f.verbose then skipBlanks cs.length cs else cs

/-! ## Escapes -/

/-- What an escape stands for. -/
inductive Escape where
  | literal (c : Char)
  | set (s : CharSet)
  | anchor (a : Anchor)

/-- The characters with a meaning of their own. -/
def isMeta (c : Char) : Bool :=
  "\\.+*?()|[]\x7b\x7d^$#&-~".toList.contains c

/-- A character that may be escaped without need. -/
def isEscapable (c : Char) : Bool :=
  isMeta c || (c.toNat < 0x80 && !c.isAlphanum && c != '<' && c != '>')

def hexDigit? (c : Char) : Option Nat :=
  if c.isDigit then some (c.toNat - '0'.toNat)
  else if 'a' ≤ c && c ≤ 'f' then some (c.toNat - 'a'.toNat + 10)
  else if 'A' ≤ c && c ≤ 'F' then some (c.toNat - 'A'.toNat + 10)
  else none

/-- The character of a code point, if there is one. -/
def charOf? (n : Nat) : Option Char :=
  if n < 0xD800 || (0xDFFF < n && n < 0x110000) then some (Char.ofNat n) else none

/-- The number of `n` hexadecimal digits. -/
def hexDigits (f : Flags) : Nat → Nat → List Char → Option (Nat × List Char)
  | 0, value, cs => some (value, cs)
  | n + 1, value, cs =>
    match skip f cs with
    | c :: rest => (hexDigit? c).bind fun d => hexDigits f n (value * 16 + d) rest
    | [] => none

/-- The number of hexadecimal digits up to a closing brace; `n` bounds their number. -/
def hexBraced (f : Flags) : Nat → Option Nat → List Char → Option (Nat × List Char)
  | 0, _, _ => none
  | n + 1, value, cs =>
    match skip f cs with
    | '}' :: rest => value.map fun v => (v, rest)
    | c :: rest => (hexDigit? c).bind fun d => hexBraced f n (some (value.getD 0 * 16 + d)) rest
    | [] => none

/-- A character by its code point, in braces or with a fixed number of digits. -/
def hexChar (f : Flags) (digits : Nat) (cs : List Char) : Option (Escape × List Char) := do
  let (value, rest) ← match skip f cs with
    | '{' :: rest => hexBraced f (rest.length + 1) none rest
    | rest => hexDigits f digits 0 rest
  let c ← charOf? value
  some (.literal c, rest)

/-- The name of a property without blanks, hyphens and underscores, in small letters. -/
def propertyName (cs : List Char) : String :=
  String.ofList ((cs.filter fun c => !(c = '_' || c = '-' || Text.isBlank c)).map Char.toLower)

def property (f : Flags) (negated : Bool) (cs : List Char) : Option (Escape × List Char) := do
  let (name, rest) ← match skip f cs with
    | '{' :: rest =>
      match rest.dropWhile (· != '}') with
      | _ :: after => some (rest.takeWhile (· != '}'), after)
      | [] => none
    | c :: rest => some ([c], rest)
    | [] => none
  let (negated, name) := match name with
    | '^' :: name => (!negated, name)
    | name => (negated, name)
  if !f.unicode then none
  else
    let s ← CharSet.property? (propertyName name)
    some (.set (if negated then .compl s else s), rest)

/-- One of the classes of digits, blanks and word characters. -/
def shorthand? (f : Flags) : Char → Option CharSet
  | 'd' => some (if f.unicode then .digit else .asciiDigit)
  | 's' => some (if f.unicode then .space else .asciiSpace)
  | 'w' => some f.word
  | 'D' => if f.unicode then some (.compl .digit) else none
  | 'S' => if f.unicode then some (.compl .space) else none
  | 'W' => if f.unicode then some (.compl .word) else none
  | _ => none

def isBoundaryLetter (c : Char) : Bool :=
  c.isAlpha || c = '-'

/-- The word boundary after `\b`: plain, or named in braces. Braces that cannot hold a name are left unread. -/
def wordBoundary (f : Flags) (cs : List Char) : Option (Escape × List Char) :=
  match cs with
  | '{' :: inside =>
    match skip f inside with
    | [] => none
    | c :: rest =>
      if isBoundaryLetter c then
        let body := (c :: rest).filter fun c => !(f.verbose && Text.isBlank c)
        match body.dropWhile isBoundaryLetter with
        | '}' :: after =>
          match String.ofList (body.takeWhile isBoundaryLetter) with
          | "start" => some (.anchor (.wordStart f.word), after)
          | "end" => some (.anchor (.wordEnd f.word), after)
          | "start-half" => some (.anchor (.wordStartHalf f.word), after)
          | "end-half" => some (.anchor (.wordEndHalf f.word), after)
          | _ => none
        | _ => none
      else some (.anchor (.boundary f.word), cs)
  | _ => some (.anchor (.boundary f.word), cs)

/-- What the characters after a backslash stand for. -/
def escape (f : Flags) : List Char → Option (Escape × List Char)
  | [] => none
  | 'x' :: rest => hexChar f 2 rest
  | 'u' :: rest => hexChar f 4 rest
  | 'U' :: rest => hexChar f 8 rest
  | 'p' :: rest => property f false rest
  | 'P' :: rest => property f true rest
  | 'b' :: rest => wordBoundary f rest
  | 'a' :: rest => some (.literal (Char.ofNat 7), rest)
  | 'f' :: rest => some (.literal (Char.ofNat 12), rest)
  | 't' :: rest => some (.literal '\t', rest)
  | 'n' :: rest => some (.literal '\n', rest)
  | 'r' :: rest => some (.literal '\r', rest)
  | 'v' :: rest => some (.literal (Char.ofNat 11), rest)
  | 'A' :: rest => some (.anchor .textStart, rest)
  | 'z' :: rest => some (.anchor .textEnd, rest)
  | 'B' :: rest => some (.anchor (.notBoundary f.word), rest)
  | '<' :: rest => some (.anchor (.wordStart f.word), rest)
  | '>' :: rest => some (.anchor (.wordEnd f.word), rest)
  | c :: rest =>
    if ['d', 's', 'w', 'D', 'S', 'W'].contains c then (shorthand? f c).map fun s => (.set s, rest)
    else if isEscapable c then some (.literal c, rest)
    else none

/-! ## Classes in brackets -/

/-- How the two sides of a set operator are joined. -/
inductive SetOperator where
  | inter
  | diff
  | symmDiff

def SetOperator.apply : SetOperator → CharSet → CharSet → CharSet
  | inter => .inter
  | diff => .diff
  | symmDiff => .symmDiff

/-- What stands before an operator that has been read. -/
abbrev SetLeft := Option (CharSet × SetOperator)

/-- The members read so far together with what stands before them. -/
def joinLeft (f : Flags) (left : SetLeft) (members : CharSet) : CharSet :=
  match left with
  | some (s, op) => op.apply (f.fold s) (f.fold members)
  | none => members

/-- The name of an ASCII class after `[:`, its negation, and the rest after `:]`. -/
def asciiName? (cs : List Char) : Option (Bool × String × List Char) :=
  let (negated, cs) := match cs with
    | '^' :: rest => (true, rest)
    | cs => (false, cs)
  match cs.dropWhile (· != ':') with
  | ':' :: ']' :: rest => some (negated, String.ofList (cs.takeWhile (· != ':')), rest)
  | _ => none

/-- A member of a class: a character or a set. -/
def classItem (f : Flags) : List Char → Option (Escape × List Char)
  | '\\' :: rest => escape f rest
  | c :: rest => some (.literal c, rest)
  | [] => none

/-- The set of a single member. -/
def itemSet? (f : Flags) : Escape → Option CharSet
  | .literal c => if !f.unicode && 0x80 ≤ c.toNat then none else some (.single c)
  | .set s => some s
  | .anchor _ => none

def classRange (f : Flags) (cs : List Char) : Option (CharSet × List Char) := do
  let (first, rest) ← classItem f cs
  match skip f rest with
  | [] => none
  | '-' :: after =>
    match skip f after with
    | [] => none
    | ']' :: _ | '-' :: _ => (itemSet? f first).map fun s => (s, '-' :: after)
    | after =>
      let (last, rest) ← classItem f after
      match first, last with
      | .literal a, .literal b =>
        if b < a || (!f.unicode && 0x80 ≤ b.toNat) then none else some (.range a.toNat b.toNat, rest)
      | _, _ => none
  | rest => (itemSet? f first).map fun s => (s, rest)

/-- The opening of a class after its bracket: its negation, the members that only stand at the start, the rest. -/
def classStart (f : Flags) (cs : List Char) : Bool × CharSet × List Char :=
  let (negated, cs) := match skip f cs with
    | '^' :: rest => (true, skip f rest)
    | cs => (false, cs)
  let dashes := cs.takeWhile (· == '-')
  match dashes, skip f (cs.dropWhile (· == '-')) with
  | [], ']' :: rest => (negated, .single ']', rest)
  | [], rest => (negated, .empty, rest)
  | _, rest => (negated, .single '-', rest)

/-- The members of a class up to its closing bracket; `n` bounds the number of steps. -/
def classMembers (f : Flags) : Nat → SetLeft → CharSet → List Char → Option (CharSet × List Char)
  | 0, _, _, _ => none
  | n + 1, left, members, cs =>
    match skip f cs with
    | [] => none
    | ']' :: rest => some (joinLeft f left members, rest)
    | '&' :: '&' :: rest => classMembers f n (some (joinLeft f left members, .inter)) .empty rest
    | '-' :: '-' :: rest => classMembers f n (some (joinLeft f left members, .diff)) .empty rest
    | '~' :: '~' :: rest => classMembers f n (some (joinLeft f left members, .symmDiff)) .empty rest
    | '[' :: ':' :: rest =>
      match asciiName? rest with
      | some (negated, name, rest) => do
        let s ← CharSet.asciiClass? name
        classMembers f n left (.union members (if negated then .compl s else s)) rest
      | none => nested n left members (':' :: rest)
    | '[' :: rest => nested n left members rest
    | cs => do
      let (s, rest) ← classRange f cs
      classMembers f n left (.union members s) rest
where
  /-- A class inside a class. -/
  nested (n : Nat) (left : SetLeft) (members : CharSet) (cs : List Char) : Option (CharSet × List Char) := do
    let (negated, start, rest) := classStart f cs
    let (s, rest) ← classMembers f n none start rest
    let s := f.fold s
    classMembers f n left (.union members (if negated then .compl s else s)) rest

/-- A class after its opening bracket. -/
def bracketed (f : Flags) (cs : List Char) : Option (Expr × List Char) := do
  let (negated, start, rest) := classStart f cs
  let (s, rest) ← classMembers f (cs.length + 1) none start rest
  if negated && !f.unicode then none
  else
    let s := f.fold s
    some (.chars (if negated then .compl s else s), rest)

/-! ## Repetitions -/

/-- A number, with blanks around it. -/
def count? (f : Flags) (cs : List Char) : Option (Option Nat × List Char) :=
  let cs := cs.dropWhile Text.isBlank
  let digits := cs.takeWhile Char.isDigit
  let rest := skip f ((cs.dropWhile Char.isDigit).dropWhile Text.isBlank)
  if digits.isEmpty then some (none, rest)
  else
    let value := digits.foldl (fun n d => n * 10 + (d.toNat - '0'.toNat)) 0
    if value < 4294967296 then some (some value, rest) else none

/-- The bounds of a repetition after its opening brace. -/
def bounds (f : Flags) (cs : List Char) : Option ((Nat × Option Nat) × List Char) := do
  let (least, rest) ← count? f (skip f cs)
  match rest with
  | ',' :: rest =>
    match skip f rest with
    | '}' :: rest => some ((← least, none), rest)
    | rest =>
      let (most, rest) ← count? f rest
      match rest with
      | '}' :: rest => if (← least) ≤ (← most) then some ((← least, most), rest) else none
      | _ => none
  | '}' :: rest => some ((← least, least), rest)
  | _ => none

/-- The rest after the mark for less greed. -/
def dropLazy : List Char → List Char
  | '?' :: rest => rest
  | cs => cs

/-! ## Groups -/

/-- Flags after `(?`, up to the colon or the closing bracket; `seen` are those read, and `on` says whether the next
is switched on. -/
def flagLetters (f : Flags) (on : Bool) (seen : List Char) : List Char → Option (Flags × List Char × List Char)
  | [] => none
  | c :: rest =>
    if c = ':' || c = ')' then
      if seen.head? == some '-' then none else some (f, seen, c :: rest)
    else if seen.contains c then none
    else if c = '-' then flagLetters f false (c :: seen) rest
    else match f.switch? on c with
      | some f => flagLetters f on (c :: seen) rest
      | none => none

def isGroupChar (first : Bool) (c : Char) : Bool :=
  if first then c = '_' || Text.isLetter c
  else c = '_' || c = '.' || c = '[' || c = ']' || Text.isLetterOrNumber c

def groupName (cs : List Char) : Option (String × List Char) :=
  match cs.takeWhile (· != '>'), cs.dropWhile (· != '>') with
  | c :: name, '>' :: rest =>
    if isGroupChar true c && name.all (isGroupChar false) then some (String.ofList (c :: name), rest) else none
  | _, _ => none

/-- What an opening bracket starts. -/
inductive Opening where
  /-- Flags for the rest of the group around. -/
  | flags (f : Flags)
  /-- A group with these flags and perhaps a name. -/
  | group (f : Flags) (name : Option String)

/-- What stands after an opening bracket. -/
def opening (f : Flags) (cs : List Char) : Option (Opening × List Char) :=
  match skip f cs with
  | '?' :: '=' :: _ | '?' :: '!' :: _ | '?' :: '<' :: '=' :: _ | '?' :: '<' :: '!' :: _ => none
  | '?' :: 'P' :: '<' :: rest | '?' :: '<' :: rest =>
    (groupName rest).map fun (name, rest) => (.group f (some name), rest)
  | '?' :: rest =>
    match flagLetters f true [] rest with
    | some (_, [], ')' :: _) => none
    | some (g, _, ')' :: rest) => some (.flags g, rest)
    | some (g, _, ':' :: rest) => some (.group g none, rest)
    | _ => none
  | rest => some (.group f none, rest)

/-! ## Patterns -/

/-- The parts of a branch, latest first; flags that were set in between stand there without a pattern. -/
abbrev Parts := List (Option Expr)

/-- The parts one after another. -/
def sequence (parts : Parts) : Expr :=
  parts.foldl (fun e p => match p with
    | some p => .seq p e
    | none => e) .empty

def repeatLast (parts : Parts) (least : Nat) (most : Option Nat) : Option Parts :=
  match parts with
  | some p :: rest => some (some (.times p least most) :: rest)
  | _ => none

/-- The branches that were read before the last, latest first, and the last. -/
def branches (done : List Expr) (last : Expr) : Expr :=
  done.foldl (fun e p => .alt p e) last

/-- The part that an escape stands for. -/
def escapeExpr? (f : Flags) : Escape → Option Expr
  | .literal c => f.literal? c
  | .set s => some (.chars (f.fold s))
  | .anchor a => some (.anchor a)

/-- Branches up to the closing bracket or the end, which is left unread; `n` bounds the number of parts. -/
def body : Nat → Flags → List String → List Expr → Parts → List Char → Option (Expr × List String × List Char)
  | 0, _, _, _, _, _ => none
  | n + 1, f, names, done, parts, cs =>
    match skip f cs with
    | [] => some (branches done (sequence parts), names, [])
    | ')' :: rest => some (branches done (sequence parts), names, ')' :: rest)
    | '|' :: rest => body n f names (sequence parts :: done) [] rest
    | '(' :: rest => do
      match ← opening f rest with
      | (.flags g, rest) => body n g names done (none :: parts) rest
      | (.group g name, rest) =>
        if names.any fun m => some m == name then none
        else
          match ← body n g (name.toList ++ names) [] [] rest with
          | (p, names, ')' :: rest) => body n f names done (some p :: parts) rest
          | _ => none
    | '[' :: rest => do
      let (p, rest) ← bracketed f rest
      body n f names done (some p :: parts) rest
    | '?' :: rest => do body n f names done (← repeatLast parts 0 (some 1)) (dropLazy rest)
    | '*' :: rest => do body n f names done (← repeatLast parts 0 none) (dropLazy rest)
    | '+' :: rest => do body n f names done (← repeatLast parts 1 none) (dropLazy rest)
    | '{' :: rest => do
      let ((least, most), rest) ← bounds f rest
      body n f names done (← repeatLast parts least most) (dropLazy (skip f rest))
    | '\\' :: rest => do
      let (e, rest) ← escape f rest
      body n f names done (some (← escapeExpr? f e) :: parts) rest
    | '.' :: rest => do body n f names done (some (← f.dot?) :: parts) rest
    | '^' :: rest => body n f names done (some (.anchor f.caret) :: parts) rest
    | '$' :: rest => body n f names done (some (.anchor f.dollar) :: parts) rest
    | c :: rest => do body n f names done (some (← f.literal? c) :: parts) rest

end Reader

def weightLimit : Nat := 400000

end EventAtlas.Pattern

namespace EventAtlas

/-- A pattern with its text. -/
structure Pattern where
  source : String
  expr : Pattern.Expr
deriving Inhabited, Repr, BEq

namespace Pattern

/-- The pattern that a text denotes. -/
def parse? (source : String) : Option Pattern :=
  match Reader.body (source.length + 1) {} [] [] [] source.toList with
  | some (e, _, []) => if e.weight ≤ weightLimit then some ⟨source, e⟩ else none
  | _ => none

def isMatch (p : Pattern) (text : String) : Bool :=
  let points := (text.toList.map Char.toNat).toArray
  !(p.expr.reach points (List.range (points.size + 1))).isEmpty

end Pattern

end EventAtlas
