import EventAtlas.Forest.Arena

/-!
# Qualified names

The second linking pass walks every file with the namespace and the imports in effect, and writes qualified names
into names, class-like declarations and functions outside of classes. An import counts from where it stands. `self`
and `static` mean the class around, `parent` the class that it extends. The scope of every file and namespace is
recorded when the walk leaves it. A name that is looked up as a class and is refused there breaks the walk off.
-/

namespace EventAtlas.Naming

/-- A class around the place of the walk. -/
structure ClassAround where
  name : String
  /-- The class that it extends. -/
  parent : Option String
deriving Inhabited, Repr

/-- The forest so far, with the scopes and classes around the place of the walk, innermost first. -/
structure Progress where
  forest : Forest
  scopes : List NameScope := []
  classes : List ClassAround := []

namespace Progress

def scope (p : Progress) : NameScope :=
  p.scopes.headD {}

def write (p : Progress) (id : NodeId) (name : String) : Progress :=
  { p with forest := p.forest.modify id fun n => { n with resolvedName := some name } }

end Progress

def qualified (scope : NameScope) (around : Option ClassAround) (text : String) : NameRole → String
  | .function => scope.resolveFunction text
  | .constant => scope.resolveConstant text
  | _ =>
    match Text.lower text with
    | "self" | "static" => (around.map ClassAround.name).getD text
    | "parent" => (around.bind ClassAround.parent).getD text
    | _ => scope.resolveClass text

/-- The qualified name of the class that a class extends. -/
def parentName? (f : Forest) (scope : NameScope) (id : NodeId) : Option String :=
  match f.kind id with
  | .classDecl .. =>
    ((f.namesWithRole id .extends).head?.bind fun n => (f.kind n).name?).map scope.resolveClass
  | _ => none

def enterClass (p : Progress) (id : NodeId) (name : String) : Progress :=
  let qualified := p.scope.qualify name
  let around : ClassAround := ⟨qualified, parentName? p.forest p.scope id⟩
  { p.write id qualified with classes := around :: p.classes }

/-- What is done before the children of a node. -/
def enter (p : Progress) (id : NodeId) : Progress :=
  match p.forest.kind id with
  | .file => { p with scopes := .opened id "" :: p.scopes }
  | .namespaceDecl name => { p with scopes := .opened id name :: p.scopes }
  | .importDecl kind name localName =>
    match p.scopes with
    | s :: rest => { p with scopes := s.addImport kind name localName :: rest }
    | [] => p
  | .classDecl name _ | .interfaceDecl name | .traitDecl name => enterClass p id name
  | .function name => if p.classes.isEmpty then p.write id (p.scope.qualify name) else p
  | .name text role => p.write id (qualified p.scope p.classes.head? text role)
  | _ => p

/-- What is done after the children of a node. -/
def leave (p : Progress) (id : NodeId) : Progress :=
  match p.forest.kind id with
  | .file | .namespaceDecl _ =>
    match p.scopes with
    | s :: rest => { p with forest := p.forest.setNameScope s, scopes := rest }
    | [] => p
  | k => if k.isClassLike then { p with classes := p.classes.drop 1 } else p

/-- Walk a node and everything below, at most `n` levels deep. -/
def walk : Nat → Progress → NodeId → Progress
  | 0, p, _ => p
  | n + 1, p, id =>
    leave ((p.forest.children id).foldl (walk n) (enter p id)) id

/-- Name everything below the root of a file. -/
def nameFile (f : Forest) (root : NodeId) : Forest :=
  (walk (f.size + 1) { forest := f } root).forest

/-! ## Names that are refused -/

/-- Looking up a name with a role is refused. -/
def refusesText (text : String) (role : NameRole) : Bool :=
  role.isClassLike &&
    match Text.lower text with
    | "self" | "static" | "parent" => false
    | _ => NameScope.refusesClass text

/-- The class that a class extends, as it is written. -/
def parentText? (f : Forest) (id : NodeId) : Option String :=
  match f.kind id with
  | .classDecl .. => (f.namesWithRole id .extends).head?.bind fun n => (f.kind n).name?
  | _ => none

/-- What is done before the children of a node is refused. -/
def refusesEnter (f : Forest) (id : NodeId) : Bool :=
  match f.kind id with
  | .classDecl .. => (parentText? f id).any NameScope.refusesClass
  | .name text role => refusesText text role
  | _ => false

/-- Walk a node and everything below, at most `n` levels deep, unless something is refused. -/
def walk? : Nat → Progress → NodeId → Option Progress
  | 0, p, _ => some p
  | n + 1, p, id =>
    if refusesEnter p.forest id then none
    else do
      let below ← (p.forest.children id).foldlM (walk? n) (enter p id)
      return leave below id

/-- Name everything below the root of a file, unless something is refused. -/
def nameFile? (f : Forest) (root : NodeId) : Option Forest :=
  (walk? (f.size + 1) { forest := f } root).map Progress.forest

end EventAtlas.Naming

namespace EventAtlas

/-- The forest with all qualified names and name scopes. -/
def Forest.resolveNames (f : Forest) : Forest :=
  f.files.foldl (fun f file => Naming.nameFile f file.root) f

/-- The forest with all qualified names and name scopes, unless a name is refused. -/
def Forest.resolveNames? (f : Forest) : Option Forest :=
  f.files.foldlM (fun f file => Naming.nameFile? f file.root) f

end EventAtlas
