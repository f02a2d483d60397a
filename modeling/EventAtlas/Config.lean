import EventAtlas.Component
import EventAtlas.Facts.Collector
import EventAtlas.Fault
import EventAtlas.Workspace.Disk

/-!
# Configuration

A configuration gives collectors, components by directory, and globs for files to leave out. Fields other than these
three are refused, and there must be a collector. A configuration that is not there is told apart from one that cannot
be read.
-/

namespace EventAtlas

/-- What an analysis is asked to do. -/
structure Config where
  collectors : CollectorSet
  components : ComponentMap
  exclude : List String
deriving Inhabited, Repr

/-- What can be wrong with a configuration. -/
inductive ConfigError where
  | notFound (path : String)
  /-- What the path leads to is no file. -/
  | unreadable (path : String)
  /-- The file is no text. -/
  | undecodable (path : String)
  | malformed
  | collector (e : CollectorError)
  | noCollectors
  | emptyComponentName (directory : String)
deriving Inhabited, Repr, DecidableEq

namespace ConfigError

def message : ConfigError → String
  | notFound path | unreadable path => "failed to read " ++ path
  | undecodable path => "failed to read " ++ path ++ ": stream did not contain valid UTF-8"
  | malformed => "invalid configuration document"
  | collector e => e.message
  | noCollectors => "no collectors configured"
  | emptyComponentName directory => "component for prefix '" ++ directory ++ "' has an empty name"

def toFault : ConfigError → Fault
  | notFound path => .fileNotFound path
  | e => .invalidConfig e.message

end ConfigError

namespace Config

/-- Add components one after another, in order of their directories; their names are trimmed. -/
def addComponents : List (String × String) → ComponentMap → Except ConfigError ComponentMap
  | [], m => .ok m
  | (directory, name) :: rest, m =>
    if (Text.trim name).isEmpty then .error (.emptyComponentName directory)
    else addComponents rest (m.insert directory (Text.trim name))

/-- The configuration that a JSON value gives. -/
def ofJson (j : Json) : Except ConfigError Config :=
  let parts : Option (RawCollectors × Sorted String String × List String) := do
    let r ← Json.Record.of? ["collectors", "components", "exclude"] true j
    some (← r.defaulted "collectors" {} RawCollectors.ofJson?,
      ← r.defaulted "components" {} (Json.asMap? Json.asStr?),
      ← r.defaulted "exclude" [] (Json.asList? Json.asStr?))
  match parts with
  | none => .error .malformed
  | some (raw, components, exclude) =>
    if Sorted.isEmpty raw then .error .noCollectors
    else
      match CollectorSet.check raw with
      | .error e => .error (.collector e)
      | .ok collectors => do
        return { collectors, components := ← addComponents components.entries {}, exclude }

def parse (text : String) : Except ConfigError Config :=
  match Json.parse? text with
  | some j => ofJson j
  | none => .error .malformed

def load (d : Disk) (path : String) : Except ConfigError Config :=
  match d.locate path with
  | .error .absent => .error (.notFound path)
  | .error .notDirectory => .error (.unreadable path)
  | .ok name =>
    match d.files.find? name with
    | none => .error (.unreadable path)
    | some content =>
      match String.fromUTF8? content with
      | some text => parse text
      | none => .error (.undecodable path)

end Config

end EventAtlas
