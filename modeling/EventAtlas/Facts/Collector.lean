import EventAtlas.Facts.Fact
import EventAtlas.Json.Reader
import EventAtlas.Json.Record
import EventAtlas.Pattern.Reader

/-!
# Collectors

A collector says which facts of one kind to look for: patterns for class names and patterns for method names.
Patterns of the same kind are alternatives. Everything is checked before anything is collected: the collector's
name, that it has criteria, and of each criterion its kind, then its pattern.
-/

namespace EventAtlas

/-- What a pattern is matched against. -/
inductive CriterionKind where
  | fqn
  | methodName
deriving Inhabited, Repr, DecidableEq

namespace CriterionKind

/-- The kind that a configuration names. -/
def ofName? : String → Option CriterionKind
  | "fqnRegex" | "fqn_regex" => some fqn
  | "methodNameRegex" | "method_name_regex" => some methodName
  | _ => none

def spelling : CriterionKind → String
  | fqn => "fqnRegex"
  | methodName => "methodNameRegex"

end CriterionKind

/-- A pattern with what it is matched against. -/
structure Criterion where
  kind : CriterionKind
  pattern : Pattern
deriving Inhabited, Repr

/-- The criteria for facts of one kind, in the order in which they are written. -/
structure Collector where
  kind : FactKind
  criteria : List Criterion
deriving Inhabited, Repr

namespace Collector

def patterns (c : Collector) (kind : CriterionKind) : List Pattern :=
  (c.criteria.filter fun k => k.kind = kind).map Criterion.pattern

end Collector

abbrev CollectorSet := Sorted FactKind Collector

/-- What can be wrong with a definition of collectors. -/
inductive CollectorError where
  | unknownCollector (name : String)
  | unknownKind (collector kind : String)
  | missingKind (collector : String) (index : Nat)
  | missingPattern (collector : String) (index : Nat)
  | invalidPattern (collector pattern : String)
  | emptyCollector (collector : String)
  | malformed
deriving Inhabited, Repr, DecidableEq

namespace CollectorError

def message : CollectorError → String
  | unknownCollector name => "unknown collector '" ++ name ++ "'"
  | unknownKind collector kind => "collector '" ++ collector ++ "': unknown criterion kind '" ++ kind ++ "'"
  | missingKind collector index => "collector '" ++ collector ++ "': criterion #" ++ toString index ++ " has no kind"
  | missingPattern collector index =>
    "collector '" ++ collector ++ "': criterion #" ++ toString index ++ " has no pattern"
  | invalidPattern collector pattern => "collector '" ++ collector ++ "': invalid pattern '" ++ pattern ++ "'"
  | emptyCollector collector => "collector '" ++ collector ++ "' has no criteria"
  | malformed => "invalid collector configuration"

end CollectorError

/-- A criterion as written. -/
structure RawCriterion where
  kind : Option String
  pattern : Option String
deriving Inhabited, Repr, DecidableEq

/-- The criteria by collector name as written. -/
abbrev RawCollectors := Sorted String (List RawCriterion)

def RawCriterion.ofJson? (j : Json) : Option RawCriterion := do
  let r ← Json.Record.of? ["kind", "pattern"] false j
  some {
    kind := ← r.optionalDefault "kind" Json.asStr?
    pattern := ← r.optionalDefault "pattern" Json.asStr? }

/-- The criteria by collector name from JSON. -/
def RawCollectors.ofJson? (j : Json) : Option RawCollectors :=
  Json.asMap? (Json.asList? RawCriterion.ofJson?) j

def Criterion.check (collector : String) (index : Nat) (raw : RawCriterion) : Except CollectorError Criterion :=
  match raw.kind with
  | none => .error (.missingKind collector index)
  | some name =>
    match CriterionKind.ofName? name with
    | none => .error (.unknownKind collector name)
    | some kind =>
      match raw.pattern.filter fun p => !(Text.trim p).isEmpty with
      | none => .error (.missingPattern collector index)
      | some source =>
        match Pattern.parse? source with
        | none => .error (.invalidPattern collector source)
        | some pattern => .ok ⟨kind, pattern⟩

/-- Check the criteria of a collector, the first of which has this index. -/
def Collector.checkCriteria (collector : String) : Nat → List RawCriterion → Except CollectorError (List Criterion)
  | _, [] => .ok []
  | index, raw :: rest => do
    let c ← Criterion.check collector index raw
    return c :: (← checkCriteria collector (index + 1) rest)

def Collector.check (name : String) (raw : List RawCriterion) : Except CollectorError Collector :=
  match FactKind.ofName? name with
  | none => .error (.unknownCollector name)
  | some kind =>
    if raw.isEmpty then .error (.emptyCollector name)
    else do return ⟨kind, ← checkCriteria name 0 raw⟩

/-- Check collectors one after another; of two for the same kind of fact the later one stays. -/
def CollectorSet.checkAll : List (String × List RawCriterion) → CollectorSet → Except CollectorError CollectorSet
  | [], set => .ok set
  | (name, raw) :: rest, set => do
    let c ← Collector.check name raw
    checkAll rest (Sorted.insert set c.kind c)

/-- Check the collectors of a definition, in order of their names. -/
def CollectorSet.check (raw : RawCollectors) : Except CollectorError CollectorSet :=
  checkAll (Sorted.entries raw) {}

/-- The collectors that a JSON value defines. -/
def CollectorSet.ofJson (j : Json) : Except CollectorError CollectorSet :=
  match RawCollectors.ofJson? j with
  | some raw => check raw
  | none => .error .malformed

def CollectorSet.parse (text : String) : Except CollectorError CollectorSet :=
  match Json.parse? text with
  | some j => ofJson j
  | none => .error .malformed

end EventAtlas
