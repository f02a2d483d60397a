import EventAtlas.Forest.Arena

/-!
# Class hierarchies

A class-like declaration is linked to its parent, its interfaces and the traits it uses. Members are looked up in the
declaration itself, then in its traits, then in the parents, nearest first, each with its traits, and at last in the
interfaces; the first match counts. Properties are gathered the other way round. A hierarchy may be malformed: a
declaration that is reached a second time is passed over, so every walk ends.

Supertypes outside of the index have no declaration. They end the walks, but their names are still reported.
-/

namespace EventAtlas.Forest

/-! ## Direct supertypes -/

/-- The declarations that names are linked to. -/
def declarationsOf (f : Forest) (names : List NodeId) : List NodeId :=
  names.filterMap fun n => (f.node n).declaration

/-- The name of the class that a class extends. -/
def parentNameNode? (f : Forest) (c : NodeId) : Option NodeId :=
  match f.kind c with
  | .classDecl .. => (f.namesWithRole c .extends).head?
  | _ => none

def parentClass? (f : Forest) (c : NodeId) : Option NodeId :=
  (f.parentNameNode? c).bind fun n => (f.node n).declaration

/-- The names of the interfaces that a class implements or an interface extends. -/
def interfaceNameNodes (f : Forest) (c : NodeId) : List NodeId :=
  match f.kind c with
  | .classDecl .. => f.namesWithRole c .implements
  | .interfaceDecl _ => f.namesWithRole c .extends
  | _ => []

/-- The interfaces that a class implements or an interface extends. -/
def interfaces (f : Forest) (c : NodeId) : List NodeId :=
  f.declarationsOf (f.interfaceNameNodes c)

/-- The names of the traits that a declaration uses. -/
def traitNameNodes (f : Forest) (c : NodeId) : List NodeId :=
  (f.childrenWhere c (· == .traitUse)).flatMap fun u => f.namesWithRole u .traitUse

/-- The traits that a declaration uses. -/
def traits (f : Forest) (c : NodeId) : List NodeId :=
  f.declarationsOf (f.traitNameNodes c)

/-! ## Orders -/

/-- The parents from a declaration on, at most `n`, up to the first that was met before. -/
def chainFrom (f : Forest) : Nat → List NodeId → Option NodeId → List NodeId
  | 0, _, _ => []
  | _ + 1, _, none => []
  | n + 1, met, some c => if met.contains c then [] else c :: f.chainFrom n (c :: met) (f.parentClass? c)

/-- The parents of a class, nearest first. -/
def parentChain (f : Forest) (c : NodeId) : List NodeId :=
  f.chainFrom (f.size + 1) [c] (f.parentClass? c)

/-- What was met before, then a node and all that is reached from it and was not met, at most `n` steps away. -/
def reach (next : NodeId → List NodeId) : Nat → List NodeId → NodeId → List NodeId
  | 0, met, _ => met
  | n + 1, met, x => if met.contains x then met else (next x).foldl (reach next n) (met ++ [x])

/-- What is reached from a list of nodes, apart from `c`, in the order in which it is met. -/
def closureFrom (f : Forest) (next : NodeId → List NodeId) (c : NodeId) (start : List NodeId) : List NodeId :=
  (start.foldl (reach next (f.size + 1)) [c]).drop 1

/-- The traits that a declaration uses, and those that they use. -/
def traitClosure (f : Forest) (c : NodeId) : List NodeId :=
  f.closureFrom f.traits c (f.traits c)

/-- The interfaces of a declaration and of its parents, and those that they extend. -/
def interfaceClosure (f : Forest) (c : NodeId) : List NodeId :=
  f.closureFrom f.interfaces c ((c :: f.parentChain c).flatMap f.interfaces)

/-- A declaration and its parents, each followed by its traits. -/
def classesAndTraits (f : Forest) (c : NodeId) : List NodeId :=
  ((c :: f.parentChain c).flatMap fun p => p :: f.traitClosure p).eraseDups

/-- The order in which members are looked up. -/
def lookupOrder (f : Forest) (c : NodeId) : List NodeId :=
  (f.classesAndTraits c ++ f.interfaceClosure c).eraseDups

/-- The order in which properties are gathered: parents, farthest first, each with its traits, then the traits of the
declaration, then the declaration itself. -/
def propertyOrder (f : Forest) (c : NodeId) : List NodeId :=
  ((f.parentChain c).reverse.flatMap (fun p => p :: f.traitClosure p) ++ f.traitClosure c ++ [c]).eraseDups

/-! ## Members -/

/-- The member of the first owner that has one. -/
def findMember? (f : Forest) (c : NodeId) (p : NodeKind → Bool) : Option NodeId :=
  (f.lookupOrder c).findSome? fun owner => (f.members owner).find? fun m => p (f.kind m)

/-- A method of this name, without regard to case. -/
def isMethodNamed (name : String) : NodeKind → Bool
  | .method n _ => Text.sameLetters n name
  | _ => false

def findMethod? (f : Forest) (c : NodeId) (name : String) : Option NodeId :=
  f.findMember? c (isMethodNamed name)

def findConstant? (f : Forest) (c : NodeId) (name : String) : Option NodeId :=
  f.findMember? c (· == .classConstant name)

def isProperty : NodeKind → Bool
  | .property .. => true
  | _ => false

/-- A parameter that declares a property. -/
def isPromoted : NodeKind → Bool
  | .parameter _ _ _ promoted => promoted.isSome
  | _ => false

/-- The properties that a declaration declares: its property members, and the parameters of its constructor that
declare one. -/
def ownProperties (f : Forest) (c : NodeId) : List NodeId :=
  let constructor := (f.members c).find? fun m => isMethodNamed "__construct" (f.kind m)
  (f.members c).filter (fun m => isProperty (f.kind m))
    ++ match constructor with
      | some m => (f.parameters m).filter fun p => isPromoted (f.kind p)
      | none => []

/-- The properties of this name that a declaration declares. -/
def ownPropertiesNamed (f : Forest) (c : NodeId) (name : String) : List NodeId :=
  (f.ownProperties c).filter fun p => (f.kind p).name? == some name

/-! ## Names of supertypes -/

/-- The first of each group of names that agree up to case. -/
def distinctNames (names : List String) : List String :=
  (names.foldl
    (fun (s : List String × List String) n =>
      let key := Text.lower n
      if s.1.contains key then s else (key :: s.1, n :: s.2))
    ([], [])).2.reverse

def namesOf (f : Forest) (names : List NodeId) : List String :=
  names.filterMap f.nameOf?

def parentNames (f : Forest) (c : NodeId) : List String :=
  f.namesOf ((c :: f.parentChain c).filterMap f.parentNameNode?)

def interfaceNames (f : Forest) (c : NodeId) : List String :=
  distinctNames (f.namesOf ((f.classesAndTraits c ++ f.interfaceClosure c).flatMap f.interfaceNameNodes))

def traitNames (f : Forest) (c : NodeId) : List String :=
  distinctNames (f.namesOf ((f.classesAndTraits c).flatMap f.traitNameNodes))

/-- The names of all parents, interfaces and traits. -/
def supertypeNames (f : Forest) (c : NodeId) : List String :=
  distinctNames (f.parentNames c ++ f.interfaceNames c ++ f.traitNames c)

end EventAtlas.Forest
