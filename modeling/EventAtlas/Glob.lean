import EventAtlas.Pattern.Expr

/-!
# Globs

A glob is matched against a whole path, byte by byte. A star stands for any bytes and a question mark for one byte,
slashes not excepted; two stars that fill a path component stand for any number of components. Braces hold
alternatives, which may nest, and empty ones do not count; brackets hold classes; a backslash takes the meaning from
the character after it.
-/

namespace EventAtlas

namespace Glob

inductive Token where
  | literal (c : Char)
  | anyByte
  | anyBytes
  /-- Any number of components at the start. -/
  | leading
  /-- Any number of components at the end, at least one. -/
  | trailing
  /-- Any number of components in between. -/
  | between
  | class (negated : Bool) (ranges : List (Char × Char))
  | alternatives (branches : List (List Token))
deriving Inhabited, Repr

/-! ## Reading -/

/-- The members of a class up to its closing bracket, latest first. `first` holds at the first member, and `open?` when
the last member is waiting for the end of its range. -/
def classRanges (first waiting : Bool) : List (Char × Char) → List Char → Option (List (Char × Char) × List Char)
  | _, [] => none
  | ranges, c :: rest =>
    if c = ']' && !first then
      some (if waiting then ('-', '-') :: ranges else ranges, rest)
    else if c = '-' && !first && !waiting then classRanges false true ranges rest
    else if waiting then
      match ranges with
      | (a, _) :: more => if c < a then none else classRanges false false ((a, c) :: more) rest
      | [] => none
    else classRanges false false ((c, c) :: ranges) rest

/-- A class after its opening bracket. -/
def classToken (cs : List Char) : Option (Token × List Char) :=
  let (negated, cs) := match cs with
    | '!' :: rest | '^' :: rest => (true, rest)
    | cs => (false, cs)
  (classRanges true false [] cs).map fun (ranges, rest) => (.class negated ranges.reverse, rest)

/-- What two stars amount to. -/
inductive Stars where
  /-- Two plain stars. -/
  | plain
  /-- A component of its own at the start. -/
  | leading
  /-- A component of its own after a slash; it is the last one if `last`. -/
  | component (last : Bool)

/-- What two stars amount to, from the character before them, the parts before them, whether they stand inside braces,
and the rest; with the rest after a slash that belongs to them. -/
def stars (inside : Bool) (before : Option Char) (empty : Bool) (cs : List Char) : Stars × List Char :=
  if empty then
    match cs with
    | [] => (.leading, [])
    | '/' :: rest => (.leading, rest)
    | cs => (.plain, cs)
  else if before != some '/' && !(inside && (before == some ',' || before == some '{')) then (.plain, cs)
  else
    match cs with
    | [] => (.component true, [])
    | '/' :: rest => (.component false, rest)
    | c :: rest => if inside && (c = ',' || c = '}') then (.component true, c :: rest) else (.plain, c :: rest)

/-- The parts, latest first, with a component of two stars in the place of the slash before it. -/
def replaceSlash (last : Bool) : List Token → List Token
  | .leading :: rest => .leading :: rest
  | .trailing :: rest => .trailing :: rest
  | _ :: rest => (if last then .trailing else .between) :: rest
  | [] => []

/-- The character before the rest, after a run of stars has been read. -/
def lastRead (slash : Bool) : Option Char :=
  some (if slash then '/' else '*')

/-- The branches of braces or, outside of them, the one branch of a glob. `done` are the branches read, latest first,
and `parts` the parts of the current one; `n` bounds the number of steps. -/
def branches : Nat → Bool → Option Char → List (List Token) → List Token → List Char →
    Option (List (List Token) × List Char)
  | 0, _, _, _, _, _ => none
  | _ + 1, inside, _, done, parts, [] => if inside then none else some ((parts.reverse :: done).reverse, [])
  | n + 1, inside, before, done, parts, c :: rest =>
    if c = '?' then branches n inside (some c) done (.anyByte :: parts) rest
    else if c = '*' then
      match rest with
      | '*' :: rest =>
        match stars inside before parts.isEmpty rest with
        | (.plain, rest) => branches n inside (some '*') done (.anyBytes :: .anyBytes :: parts) rest
        | (.leading, after) =>
          branches n inside (lastRead (after.length < rest.length)) done (.leading :: parts) after
        | (.component last, after) =>
          branches n inside (lastRead (after.length < rest.length)) done (replaceSlash last parts) after
      | rest => branches n inside (some '*') done (.anyBytes :: parts) rest
    else if c = '[' then do
      let (t, rest) ← classToken rest
      branches n inside (some ']') done (t :: parts) rest
    else if c = '{' then do
      let (bs, rest) ← branches n true (some '{') [] [] rest
      branches n inside (some '}') done (.alternatives bs :: parts) rest
    else if c = '}' then
      if inside then some ((parts.reverse :: done).reverse, rest) else none
    else if c = ',' && inside then branches n inside (some ',') (parts.reverse :: done) [] rest
    else if c = '\\' then
      match rest with
      | d :: rest => branches n inside (some d) done (.literal d :: parts) rest
      | [] => none
    else branches n inside (some c) done (.literal c :: parts) rest

/-! ## Matching -/

open Pattern (CharSet Expr)

def bytesOf (c : Char) : List Nat :=
  c.toString.toUTF8.toList.map UInt8.toNat

/-- The bytes of a class member. Of a range between characters of several bytes, the last byte of the first and the
first byte of the last bound the range, and their other bytes are members. -/
def rangeBytes (r : Char × Char) : CharSet :=
  let singles (ns : List Nat) : CharSet := ns.foldl (fun s n => .union s (.range n n)) .empty
  if r.1 = r.2 then singles (bytesOf r.1)
  else
    let first := bytesOf r.1
    let last := bytesOf r.2
    .union (.range (first.getLastD 0) (last.headD 0)) (.union (singles first.dropLast) (singles last.tail))

/-- Any bytes. -/
def anything : Expr :=
  .times (.chars .all) 0 none

def slash : Expr :=
  .chars (.single '/')

/-- The pattern over bytes that a part stands for. -/
def Token.expr : Token → Expr
  | literal c => (bytesOf c).foldr (fun n e => .seq (.chars (.range n n)) e) .empty
  | anyByte => .chars .all
  | anyBytes => anything
  | leading => .alt (.times slash 0 (some 1)) (.seq anything slash)
  | trailing => .seq slash anything
  | between => .alt slash (.seq slash (.seq anything slash))
  | «class» negated ranges =>
    let s := ranges.foldl (fun s r => CharSet.union s (rangeBytes r)) .empty
    .chars (if negated then .compl s else s)
  | alternatives bs =>
    match choices bs with
    | [] => .empty
    | e :: es => es.foldl .alt e
where
  /-- The branches that are not empty. -/
  choices : List (List Token) → List Expr
    | [] => []
    | [] :: rest => choices rest
    | (t :: ts) :: rest => .seq t.expr (sequence ts) :: choices rest
  /-- The parts one after another. -/
  sequence : List Token → Expr
    | [] => .empty
    | t :: rest => .seq t.expr (sequence rest)

/-- The parts one after another; a lone pair of stars stands for every path. -/
def exprOf : List Token → Expr
  | [.leading] => anything
  | ts => Token.expr.sequence ts

end Glob

/-- A glob with its text. -/
structure Glob where
  source : String
  expr : Pattern.Expr
deriving Inhabited, Repr

namespace Glob

/-- The glob that a text denotes. -/
def parse? (source : String) : Option Glob :=
  match branches (source.length + 1) false none [] [] source.toList with
  | some ([ts], _) => some ⟨source, exprOf ts⟩
  | _ => none

def isMatch (g : Glob) (path : String) : Bool :=
  let bytes := (path.toUTF8.toList.map UInt8.toNat).toArray
  (g.expr.reach bytes [0]).contains bytes.size

end Glob

end EventAtlas
