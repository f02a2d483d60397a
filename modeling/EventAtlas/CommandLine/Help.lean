import EventAtlas.CommandLine.Grammar

/-!
# Help

The help on the program and on its commands: what it is, how it is called, and a table for each of the commands, the
operands and the options. The entries of a table start in the same column. In full, the options of the program stand on
lines of their own above their texts.
-/

namespace EventAtlas.CommandLine

/-- The name under which the program is called. -/
def programName : String := "eventlens"

def versionLine : String := programName ++ " 0.1.0\n"

namespace Help

/-- A row of a table: what it is about, and the texts about it. -/
structure Row where
  head : String
  texts : List String
deriving Inhabited, Repr, DecidableEq

def placeholder (name : String) : String :=
  "<" ++ String.ofList (name.toList.map fun c => if c = '-' then '_' else c.toUpper) ++ ">"

/-- How an option with its value is written. -/
def usage (o : OptionSpec) : String :=
  "--" ++ o.name ++ " " ++ placeholder o.name

/-- What is said about the values of an option. -/
def valueTexts (o : OptionSpec) : List String :=
  o.fallback.toList.map (fun v => "[default: " ++ v ++ "]")
    ++ match o.kind with
      | .oneOf words => ["[possible values: " ++ Text.joinWith ", " words ++ "]"]
      | _ => []

def optionRow (o : OptionSpec) : Row :=
  ⟨"    " ++ usage o, o.help :: valueTexts o⟩

/-- A title and what stands below it. -/
def titled (title : String) (lines : List String) : String :=
  title ++ ":\n" ++ Text.joinWith "\n" lines

/-- A text with blanks after it, up to a width. -/
def padded (width : Nat) (s : String) : String :=
  s ++ String.ofList (List.replicate (width - s.length) ' ')

/-- Rows with their texts beside their heads. -/
def beside (rows : List Row) : List String :=
  let width := (rows.map fun r => r.head.length).foldl max 0
  rows.map fun r => "  " ++ padded width r.head ++ "  " ++ Text.joinWith " " r.texts

def below (r : Row) : String :=
  let indent := "\n          "
  match r.texts with
  | [] => "  " ++ r.head
  | [text] => "  " ++ r.head ++ indent ++ text
  | text :: more => "  " ++ r.head ++ indent ++ text ++ indent ++ indent ++ Text.joinWith indent more

/-- Parts with an empty line between them, and the end of the last line. -/
def page (parts : List String) : String :=
  Text.joinWith "\n\n" parts ++ "\n"

def command (c : CommandSpec) : String :=
  let root := if c.needsRoot then "<ROOT>" else "[ROOT]"
  let needed := (c.options.filter OptionSpec.isRequired).map usage
  page [c.help,
    "Usage: " ++ Text.joinWith " " ([programName, c.name, "[OPTIONS]"] ++ needed ++ [root]),
    titled "Arguments" (beside [⟨root, ["Source root"]⟩]),
    titled "Options" (beside ((levelOption :: c.options).map optionRow ++ [⟨"-h, --help", ["Print help"]⟩]))]

def program (inFull : Bool) : String :=
  let rows := commands.map (fun c => ⟨c.name, [c.help]⟩)
    ++ [⟨"help", ["Print this message or the help of the given subcommand(s)"]⟩]
  let more := if inFull then "Print help (see a summary with '-h')" else "Print help (see more with '--help')"
  let options := [optionRow levelOption, ⟨"-h, --help", [more]⟩, ⟨"-V, --version", ["Print version"]⟩]
  page [
    if inFull then
      "Static type inference and architectural fact extraction for PHP.\n\n"
        ++ "All responses are JSON on stdout; logs go to stderr."
    else "Architectural fact extraction for PHP",
    "Usage: " ++ programName ++ " [OPTIONS] <COMMAND>",
    titled "Commands" (beside rows),
    titled "Options" (if inFull then [Text.joinWith "\n\n" (options.map below)] else beside options)]

end Help

end EventAtlas.CommandLine
