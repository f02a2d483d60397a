import EventAtlas.Doc.TypeReader

/-!
# Documentation comments

A documentation comment gives types in tags, one to a line: `@var`, `@param` and `@return`, also in the spellings of
two tools. A line whose tag or type cannot be read is passed over. After its type a tag may name a variable; a `@var`
may also name it before.
-/

namespace EventAtlas

/-- The tags that give types. -/
inductive DocTagKind where
  | var
  | param
  | returns
deriving Inhabited, Repr, DecidableEq

structure DocTag where
  kind : DocTagKind
  type : DocType
  /-- The variable that the tag names, without the dollar sign. -/
  name : Option String
deriving Inhabited, Repr, BEq

structure DocBlock where
  tags : List DocTag := []
deriving Inhabited, Repr, BEq

namespace DocTag

/-- A variable; the name comes without the dollar sign. -/
def readVariable (cs : List Char) : Option (String × List Char) := do
  let plain := ((Text.stripChars? ['.', '.', '.'] cs).or (Text.stripChars? ['&'] cs)).getD cs
  let rest ← DocType.Reader.char? '$' plain
  let isNamePart (c : Char) : Bool := Text.isLetterOrNumber c || c = '_'
  match rest.takeWhile isNamePart with
  | [] => none
  | name => some (String.ofList name, rest.dropWhile isNamePart)

/-- The kind that the word after the at sign names. -/
def kindOf? (word : String) : Option DocTagKind :=
  let plain := ((Text.strip? "psalm-" word).or (Text.strip? "phpstan-" word)).getD word
  match plain with
  | "var" => some .var
  | "param" => some .param
  | "return" => some .returns
  | _ => none

/-- The tag of a line whose at sign has been read. -/
def ofLine? (line : String) : Option DocTag := do
  let (word, rest) := (Text.splitFirst? Text.isBlank line).getD (line, "")
  let kind ← kindOf? word
  let cs := (Text.trimStart rest).toList
  if kind = .var && cs.head? == some '$' then
    let (name, rest) ← readVariable cs
    let (type, _) ← DocType.Reader.union (rest.dropWhile Text.isBlank)
    some ⟨kind, type, some name⟩
  else
    let (type, rest) ← DocType.Reader.union cs
    some ⟨kind, type, (readVariable (DocType.Reader.skip rest)).map Prod.fst⟩

end DocTag

namespace DocBlock

def parse (text : String) : DocBlock :=
  let body := Text.stripManyEnd "*/" (Text.stripMany "/**" (Text.trim text))
  ⟨(Text.lines body).filterMap fun raw =>
    let line := Text.trim (Text.dropLeft (· == '*') (Text.trim raw))
    (Text.strip? "@" line).bind DocTag.ofLine?⟩

def vars (b : DocBlock) : List DocTag :=
  b.tags.filter fun t => t.kind = .var

/-- The documented type of a variable: that of the tag that names it, or else of a tag that names none. Without a
variable, that of the first tag. -/
def varType? (b : DocBlock) : Option String → Option DocType
  | some name =>
    ((b.vars.find? fun t => t.name == some name).or (b.vars.find? fun t => t.name.isNone)).map DocTag.type
  | none => b.vars.head?.map DocTag.type

/-- The variables that `@var` tags name, with their types. -/
def namedVars (b : DocBlock) : List (String × DocType) :=
  b.vars.filterMap fun t => t.name.map fun name => (name, t.type)

def paramType? (b : DocBlock) (name : String) : Option DocType :=
  (b.tags.find? fun t => t.kind = .param && t.name == some name).map DocTag.type

def returnType? (b : DocBlock) : Option DocType :=
  (b.tags.find? fun t => t.kind = .returns).map DocTag.type

end DocBlock

end EventAtlas
