import EventAtlas.Command

/-!
# The command line

A command line is an optional level for messages, a command, and what the command takes: options with a value each, and
a root. An option is written as one word with an equals sign or as two words; a value that is a word of its own does not
start with a hyphen, a lone hyphen apart. After two hyphens every word is a root. An option is given once, unless it may
be repeated.

Words are read from left to right. A word that asks for help or for the version ends the reading, and so does the first
mistake.
-/

namespace EventAtlas.CommandLine

/-- What the value of an option is. -/
inductive ValueKind where
  | text
  | path
  | oneOf (words : List String)
deriving Inhabited, Repr, DecidableEq

def ValueKind.admits : ValueKind → String → Bool
  | text, _ => true
  | path, v => !v.isEmpty
  | oneOf words, v => words.contains v

structure OptionSpec where
  name : String
  kind : ValueKind
  help : String
  isRequired : Bool := false
  isRepeatable : Bool := false
  /-- The value without the option. -/
  fallback : Option String := none
deriving Inhabited, Repr, DecidableEq

/-- A command with its options. -/
structure CommandSpec where
  name : String
  help : String
  options : List OptionSpec
  needsRoot : Bool := false
deriving Inhabited, Repr, DecidableEq

/-- The level for messages, which stands before the command or after it. -/
def levelOption : OptionSpec where
  name := "log-level"
  kind := .oneOf ["trace", "debug", "info", "warn", "error"]
  help := "Log level for tracing output"
  fallback := some "warn"

def excludeOption : OptionSpec where
  name := "exclude"
  kind := .text
  help := "Exclude paths matching this glob (repeatable)"
  isRepeatable := true

def snapshotOption : OptionSpec where
  name := "snapshot"
  kind := .path
  help := "Read the index from a snapshot instead of parsing sources"

def commands : List CommandSpec := [
  { name := "index", help := "Parse a source tree and list its units", needsRoot := true
    options := [
      { name := "out", kind := .path, help := "Write a snapshot of the index to this file" },
      excludeOption] },
  { name := "facts", help := "Extract domain facts"
    options := [
      snapshotOption,
      { name := "config", kind := .path, help := "Collector configuration (JSON)", isRequired := true }] },
  { name := "types", help := "Show the resolved types of a unit's members"
    options := [
      snapshotOption,
      { name := "class", kind := .text, help := "Fully-qualified class, interface or trait name", isRequired := true },
      { name := "method", kind := .text, help := "Only this method (and its parameters)" },
      excludeOption] }]

/-! ## Words -/

/-- A word before two hyphens. -/
inductive Word where
  /-- Two hyphens. -/
  | separator
  | long (name : String) (value : Option String)
  | short (letters : List Char)
  | plain (text : String)
deriving Inhabited, Repr, DecidableEq

def Word.of (w : String) : Word :=
  match w.toList with
  | ['-', '-'] => .separator
  | '-' :: '-' :: _ =>
    let body := (Text.strip? "--" w).getD ""
    match Text.splitFirst? (· == '=') body with
    | some (name, value) => .long name (some value)
    | none => .long body none
  | '-' :: c :: rest => .short (c :: rest)
  | _ => .plain w

/-- The word may be the value of the option before it. -/
def isValue (w : String) : Bool :=
  Word.of w = .plain w

/-! ## Arguments -/

/-- What has been given so far. -/
structure Arguments where
  root : Option String := none
  /-- The values of options, first to last. -/
  values : List (String × String) := []
deriving Inhabited, Repr, DecidableEq

namespace Arguments

def value? (a : Arguments) (name : String) : Option String :=
  a.values.lookup name

/-- The values of an option that may be repeated. -/
def all (a : Arguments) (name : String) : List String :=
  (a.values.filter fun v => v.1 == name).map Prod.snd

def give (a : Arguments) (o : OptionSpec) (v : String) : Option Arguments :=
  if o.kind.admits v && (o.isRepeatable || (a.value? o.name).isNone) then
    some { a with values := a.values ++ [(o.name, v)] }
  else none

def giveRoot (a : Arguments) (path : String) : Option Arguments :=
  if path.isEmpty || a.root.isSome then none else some { a with root := some path }

/-- The arguments as they may be given to a command: with all that it needs, and not a snapshot and a root. -/
def complete (a : Arguments) (c : CommandSpec) : Bool :=
  (c.options.all fun o => !o.isRequired || (a.value? o.name).isSome)
    && (!c.needsRoot || a.root.isSome)
    && ((a.value? "snapshot").isNone || a.root.isNone)

def toCommand? (a : Arguments) (c : CommandSpec) : Option Command :=
  if !a.complete c then none
  else
    match c.name with
    | "index" => a.root.map fun root => .index root (a.value? "out") (a.all "exclude")
    | "facts" => (a.value? "config").map fun config => .facts a.root (a.value? "snapshot") config
    | "types" => (a.value? "class").map fun fqn =>
      .types a.root (a.value? "snapshot") fqn (a.value? "method") (a.all "exclude")
    | _ => none

end Arguments

/-! ## Reading -/

/-- What a command line asks for. -/
inductive Request where
  | run (c : Command)
  /-- Help on a command, or on all of them, in full or in short. -/
  | help (command : Option CommandSpec) (inFull : Bool)
  | version
deriving Inhabited, Repr, DecidableEq

def readCommand (c : CommandSpec) : List String → Arguments → Option Request
  | [], a => (a.toCommand? c).map .run
  | w :: rest, a =>
    match Word.of w with
    | .separator => (rest.foldlM Arguments.giveRoot a).bind fun a => (a.toCommand? c).map .run
    | .long "help" none => some (.help (some c) true)
    | .long name value =>
      match (levelOption :: c.options).find? (·.name == name) with
      | none => none
      | some o =>
        match value with
        | some v => (a.give o v).bind (readCommand c rest)
        | none =>
          match rest with
          | v :: rest => if isValue v then (a.give o v).bind (readCommand c rest) else none
          | [] => none
    | .short ('h' :: _) => some (.help (some c) false)
    | .short _ => none
    | .plain path => (a.giveRoot path).bind (readCommand c rest)

/-- Help on the command that words name, or on all of them. -/
def readHelp : List String → Option Request
  | [] => some (.help none true)
  | [name] => (commands.find? (·.name == name)).map fun c => .help (some c) true
  | _ => none

def read : List String → Arguments → Option Request
  | [], _ => none
  | w :: rest, a =>
    match Word.of w with
    | .long "help" none => some (.help none true)
    | .long "version" none => some .version
    | .long name value =>
      if name ≠ levelOption.name then none
      else
        match value with
        | some v => (a.give levelOption v).bind (read rest)
        | none =>
          match rest with
          | v :: rest => if isValue v then (a.give levelOption v).bind (read rest) else none
          | [] => none
    | .short ('h' :: _) => some (.help none false)
    | .short ('V' :: _) => some .version
    | .plain "help" => readHelp rest
    | .plain name => (commands.find? (·.name == name)).bind fun c => readCommand c rest {}
    | .separator | .short _ => none

/-- What a command line asks for; nothing if there is a mistake in it. -/
def request? (words : List String) : Option Request :=
  read words {}

end EventAtlas.CommandLine
