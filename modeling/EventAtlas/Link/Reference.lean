import EventAtlas.Link.Ancestry
import EventAtlas.Link.Naming

/-!
# References

The third linking pass writes the declaration that a node refers to: classes of static accesses and of new objects
first, then declared types and supertypes, then `$this`, `self` and `static`, which mean the class around. A class
that has no known declaration stays without a link.
-/

namespace EventAtlas

/-- How many links were written, and how many classes have no known declaration. -/
structure LinkCounts where
  staticTargets : Nat := 0
  instantiations : Nat := 0
  typeHints : Nat := 0
  selfTargets : Nat := 0
  unresolved : Nat := 0
deriving Inhabited, Repr, DecidableEq

namespace Reference

/-- The forest and the counts so far. -/
structure Progress where
  forest : Forest
  counts : LinkCounts := {}

def write (f : Forest) (id target : NodeId) : Forest :=
  f.modify id fun n => { n with declaration := some target }

/-- Link a name, and the site around it, to the declaration that the name stands for. -/
def link (lookup : String → Option NodeId) (count : LinkCounts → LinkCounts) (p : Progress)
    (site : Option NodeId) (name : NodeId) : Progress :=
  match (p.forest.nameOf? name).bind lookup with
  | none => { p with counts := { p.counts with unresolved := p.counts.unresolved + 1 } }
  | some target =>
    let forest := write p.forest name target
    { forest := match site with
        | some s => write forest s target
        | none => forest
      counts := count p.counts }

/-- The class that a static access or a new object names. -/
def className? (f : Forest) (site : NodeId) : Option NodeId :=
  (f.firstChild? site).filter fun c =>
    match f.kind c with
    | .name _ .classRef => true
    | _ => false

def isStaticAccess : NodeKind → Bool
  | .staticCall _ | .classConstantFetch _ | .staticPropertyFetch _ => true
  | _ => false

/-- The sites of a kind with the classes that they name. -/
def sites (f : Forest) (p : NodeKind → Bool) : List (NodeId × NodeId) :=
  f.ids.filterMap fun id => if p (f.kind id) then (className? f id).map fun n => (id, n) else none

def linkSites (lookup : String → Option NodeId) (kind : NodeKind → Bool) (count : LinkCounts → LinkCounts)
    (p : Progress) : Progress :=
  (sites p.forest kind).foldl (fun p s => link lookup count p (some s.1) s.2) p

/-- A name that declares a type or a supertype, or the class of a test. -/
def isTypeName (f : Forest) (id : NodeId) : Bool :=
  match f.kind id with
  | .name _ .typeHint | .name _ .extends | .name _ .implements | .name _ .traitUse => true
  | .name _ .classRef => (f.parent id).any fun p => f.kind p == .instanceof
  | _ => false

/-- Link declared types and supertypes. Native types have no declaration. -/
def linkTypes (lookup : String → Option NodeId) (p : Progress) : Progress :=
  let names := p.forest.ids.filter fun id =>
    isTypeName p.forest id && (p.forest.nameOf? id).any fun n => !Typing.isNative n
  names.foldl
    (fun p n => link lookup (fun c => { c with typeHints := c.typeHints + 1 }) p none n) p

def meansSelf : NodeKind → Bool
  | .var name => name == "this"
  | .name text role => role.isClassLike && (Text.sameLetters text "self" || Text.sameLetters text "static")
  | _ => false

/-- Link everything that means the class around. -/
def linkSelf (p : Progress) : Progress :=
  let found := p.forest.ids.filterMap fun id =>
    if meansSelf (p.forest.kind id) then (p.forest.enclosingClass? id).map fun c => (id, c) else none
  found.foldl
    (fun p s => { forest := write p.forest s.1 s.2
                  counts := { p.counts with selfTargets := p.counts.selfTargets + 1 } }) p

end Reference

namespace Forest

/-- The forest with all references, and how many there are; `lookup` gives the declaration of a qualified name. -/
def linkReferences (f : Forest) (lookup : String → Option NodeId) : LinkCounts × Forest :=
  let p : Reference.Progress := { forest := f }
  let p := Reference.linkSites lookup Reference.isStaticAccess
    (fun c => { c with staticTargets := c.staticTargets + 1 }) p
  let p := Reference.linkSites lookup (· == .new)
    (fun c => { c with instantiations := c.instantiations + 1 }) p
  let p := Reference.linkSelf (Reference.linkTypes lookup p)
  (p.counts, p.forest)

/-- The forest with parents and qualified names. -/
def linkSyntax (f : Forest) : Except LinkError Forest := do
  return (← f.linkParents).resolveNames

/-- The key under which a declaration is known: without leading separators and in small letters. -/
def declarationKey (fqn : String) : String :=
  Text.lower (Text.unrooted fqn)

/-- The forest with all links; `declarations` gives the declarations of the named forest by their keys. -/
def link (f : Forest) (declarations : Forest → Sorted String NodeId) : Except LinkError (LinkCounts × Forest) := do
  let named ← f.linkSyntax
  let table := declarations named
  return named.linkReferences fun fqn => table.find? (declarationKey fqn)

end Forest

end EventAtlas
