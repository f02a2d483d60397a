import EventAtlas.Index.Table
import EventAtlas.Proofs.Forest.Lowering
import EventAtlas.Proofs.Link.Naming
import EventAtlas.Proofs.Link.Reference
import EventAtlas.Proofs.Sorted

/-!
# How an index is built

Building an index joins forests and runs the three linking passes. What is known of each pass is put together here
(`Index.ofForests_built`); the table that the last pass looks up gives the same answers as the finished index. For
forests made from syntax trees building cannot fail, and every link of the index stays in the arena
(`Index.ofTrees_closed`).
-/

namespace EventAtlas

open List

namespace Index

open Forest

variable {f g : Forest} {x : Index}

/-! ## Units -/

/-- The units are told from trees and qualified names. -/
theorem unitsOf_congr (h : SameButDeclarations f g) : unitsOf g = unitsOf f := by
  have hname (id : NodeId) : (g.node id).resolvedName = (f.node id).resolvedName := congrFun h.resolvedName id
  have hunit (node : NodeId) (file : String) :
      ClassUnit.ofDeclaration? g node file = ClassUnit.ofDeclaration? f node file := by
    unfold ClassUnit.ofDeclaration? ClassUnit.memberNames interfaceNameNodes traitNameNodes ownProperties namesOf
      members parameters namesWithRole childrenWhere
    simp only [h.tree.kind, h.tree.children, h.nameOf?, hname]
  have htop (root : NodeId) : topLevel g root = topLevel f root := by
    unfold topLevel childrenWhere
    simp only [h.tree.kind, h.tree.children]
  unfold unitsOf unitOf?
  simp only [h.tree.files, htop, hunit]

theorem mem_of_mem_distinctUnits {taken : List String} {l : List ClassUnit} {u : ClassUnit}
    (h : u ∈ distinctUnits taken l) : u ∈ l := by
  induction l generalizing taken with
  | nil => cases h
  | cons v rest ih =>
    unfold distinctUnits at h
    split at h
    · exact mem_cons_of_mem _ (ih h)
    · obtain rfl | h := mem_cons.mp h
      · exact mem_cons_self
      · exact mem_cons_of_mem _ (ih h)

/-- A unit is declared by a node of the arena. -/
theorem node_lt_of_mem_unitsOf {u : ClassUnit} (h : u ∈ unitsOf f) : u.node < f.size := by
  obtain ⟨file, -, hfile⟩ := mem_filterMap.mp (mem_of_mem_distinctUnits h)
  obtain ⟨node, -, hnode⟩ := Option.bind_eq_some_iff.mp hfile
  simp only [ClassUnit.ofDeclaration?, Option.bind_eq_bind, Option.bind_eq_some_iff] at hnode
  obtain ⟨fqn, -, kind, hkind, hu⟩ := hnode
  obtain rfl := Option.some.inj hu
  refine Reference.lt_size_of_kind_ne fun hk => ?_
  rw [hk] at hkind
  cases hkind

/-- The table of declarations answers as the index does. -/
theorem find?_declarationTable (units : List ClassUnit) (fqn : String) :
    (declarationTable units).find? (declarationKey fqn) = (⟨units, f⟩ : Index).declaration? fqn := by
  rw [declarationTable, Sorted.find?_ofList, ← map_reverse, find?_map, Option.map_map, declaration?, find?]
  rfl

/-! ## The passes together -/

/-- The forests joined into one. -/
def joined (forests : List Forest) : Forest :=
  forests.foldl Forest.absorb {}

/-- The index of an unlinked forest: parents, names by place, and the references that the index itself answers. -/
structure Built (f : Forest) (x : Index) : Prop where
  passes : ∃ linked named, ParentsLinked f linked ∧ Named linked named ∧
    x.forest = (named.linkReferences x.declaration?).2
  units : x.units = unitsOf x.forest

/-- The index of a forest with qualified names. -/
def ofNamed (named : Forest) : Index :=
  let forest := (named.linkReferences fun fqn => (declarationTable (unitsOf named)).find? (declarationKey fqn)).2
  ⟨unitsOf forest, forest⟩

theorem ofForests_eq (forests : List Forest) :
    ofForests forests = match (joined forests).linkParents with
      | .error e => .error (.unlinkable e)
      | .ok linked => .ok (ofNamed linked.resolveNames) := by
  rw [ofForests, show forests.foldl absorb {} = joined forests from rfl, Forest.link, linkSyntax]
  cases (joined forests).linkParents with
  | error e => rfl
  | ok linked =>
    simp only [bind, Except.bind, pure, Except.pure, ofNamed]

theorem ofNamed_units (named : Forest) : (ofNamed named).units = unitsOf (ofNamed named).forest := by
  simp only [ofNamed]

theorem ofNamed_declaration? (named : Forest) :
    (ofNamed named).declaration? = fun fqn => (declarationTable (unitsOf named)).find? (declarationKey fqn) := by
  funext fqn
  rw [ofNamed, unitsOf_congr (linkReferences_same ..), ← find?_declarationTable]

variable {forests : List Forest}

theorem ofForests_built (h : ofForests forests = .ok x) : Built (joined forests) x := by
  rw [ofForests_eq] at h
  cases hp : (joined forests).linkParents with
  | error e =>
    rw [hp] at h
    cases h
  | ok linked =>
    rw [hp] at h
    obtain rfl := Except.ok.inj h
    have hlinked := linkParents_ok hp
    refine ⟨⟨linked, linked.resolveNames, hlinked, resolveNames_named hlinked.linked, ?_⟩, ofNamed_units _⟩
    rw [ofNamed_declaration?]
    simp only [ofNamed]

theorem isOk_of_linkParents (h : (joined forests).linkParents = .ok f) : ∃ x, ofForests forests = .ok x := by
  rw [ofForests_eq, h]
  exact ⟨_, rfl⟩

theorem joined_paths (forests : List Forest) :
    (joined forests).files.map SourceFile.path = forests.flatMap fun f => f.files.map SourceFile.path := by
  have hfold : ∀ g : Forest, (forests.foldl absorb g).files.map SourceFile.path =
      g.files.map SourceFile.path ++ forests.flatMap fun f => f.files.map SourceFile.path := by
    induction forests with
    | nil =>
      intro g
      simp
    | cons f rest ih =>
      intro g
      rw [foldl_cons, ih, files_absorb, map_append, map_map, flatMap_cons, append_assoc]
      rfl
  exact hfold {}

namespace Built

variable (h : Built f x)

include h

/-- References are all that is added to the forest with qualified names. -/
theorem exists_passes : ∃ linked named, ParentsLinked f linked ∧ Named linked named ∧
    SameButDeclarations named x.forest ∧ x.forest = (named.linkReferences x.declaration?).2 := by
  obtain ⟨linked, named, hlinked, hnamed, hrefs⟩ := h.passes
  exact ⟨linked, named, hlinked, hnamed, hrefs ▸ linkReferences_same named x.declaration?, hrefs⟩

theorem tree : SameTree f x.forest := by
  obtain ⟨linked, named, hlinked, hnamed, hsame, -⟩ := h.exists_passes
  exact (hlinked.same.tree.trans hnamed.tree).trans hsame.tree

theorem linked : x.forest.Linked := by
  obtain ⟨linked, named, hlinked, hnamed, hsame, -⟩ := h.exists_passes
  exact (hlinked.linked.congr hnamed.tree hnamed.parent).congr hsame.tree hsame.parent

/-- The parent of a node is the node that has it as a child, or what it was before. -/
theorem parent_eq {id p : NodeId} (hp : x.forest.parent id = some p) : p ∈ x.forest.reached ∨ f.parent id = some p := by
  by_cases hid : id ∈ x.forest.reached
  · exact .inl (h.linked.mem_children_of_parent hid hp).1
  · refine .inr ?_
    obtain ⟨linked, named, hlinked, hnamed, hsame, -⟩ := h.exists_passes
    rw [hsame.parent, hnamed.parent] at hp
    rw [← hp]
    refine (hlinked.parent_other id ?_).symm
    rwa [h.tree.reached] at hid

theorem unit_lt_size {u : ClassUnit} (hu : u ∈ x.units) : u.node < x.forest.size :=
  node_lt_of_mem_unitsOf (h.units ▸ hu)

/-- References lead into the arena, or to where they led before. -/
theorem declares {P : NodeId → Prop} (hin : ∀ id < x.forest.size, P id) (hf : Declares P f) : Declares P x.forest := by
  have hunit := @unit_lt_size _ _ h
  obtain ⟨linked, named, hlinked, hnamed, hsame, hrefs⟩ := h.exists_passes
  have hsize := hsame.tree.size
  rw [hrefs]
  refine Declares.linkReferences (fun fqn t ht => ?_) (fun y c hc => ?_) fun y t ht => ?_
  · obtain ⟨u, hu, rfl⟩ := Option.map_eq_some_iff.mp ht
    exact hin _ (hunit (mem_reverse.mp (mem_of_find?_eq_some hu)))
  · refine hin c (hsize ▸ Reference.lt_size_of_kind_ne fun hk => ?_)
    have hclass := find?_some hc
    rw [hk] at hclass
    cases hclass
  · rw [hnamed.declaration, hlinked.same.declaration] at ht
    exact hf y t ht

/-- Every recorded scope was there before or is the scope of a node below a file. -/
theorem recorded : ∀ s ∈ x.forest.nameScopes,
    s ∈ f.nameScopes ∨ ∃ id ∈ x.forest.reached, s = x.forest.scopeWith x.forest.reached id := by
  obtain ⟨linked, named, hlinked, hnamed, hsame, -⟩ := h.exists_passes
  have hplaces := hnamed.places.trans hsame.places
  intro s hs
  rw [hsame.nameScopes] at hs
  rw [← hlinked.same.nameScopes, hplaces.scopeWith, hplaces.reached]
  exact hnamed.recorded s hs

end Built

/-! ## Handles -/

/-- Every link of the index is a position of the arena. -/
structure Closed (x : Index) : Prop where
  child : ∀ id, ∀ c ∈ x.forest.children id, c < x.forest.size
  parent : ∀ id p, x.forest.parent id = some p → p < x.forest.size
  declaration : ∀ id d, x.forest.declaration id = some d → d < x.forest.size
  root : ∀ file ∈ x.forest.files, file.root < x.forest.size
  scope : ∀ s ∈ x.forest.nameScopes, s.node < x.forest.size
  unit : ∀ u ∈ x.units, u.node < x.forest.size

theorem roots_absorb (f g : Forest) : (f.absorb g).roots = f.roots ++ g.roots.map (· + f.size) := by
  simp only [roots, files_absorb, map_append, map_map]
  rfl

theorem joined_orderly (h : ∀ f ∈ forests, f.Orderly f.roots) : (joined forests).Orderly (joined forests).roots := by
  refine List.foldlRecOn (motive := fun g : Forest => g.Orderly g.roots) forests absorb .empty fun g hg f hf => ?_
  rw [roots_absorb]
  exact hg.absorb (h f hf)

theorem joined_unlinked (h : ∀ f ∈ forests, f.Unlinked) : (joined forests).Unlinked :=
  List.foldlRecOn (motive := Forest.Unlinked) forests absorb .empty fun _ hg f hf => hg.absorb (h f hf)

/-- An index of an orderly forest without links is closed. -/
theorem Built.closed (h : Built f x) (horderly : f.Orderly f.roots) (hunlinked : f.Unlinked) : x.Closed := by
  have htree := h.tree
  have hlink := h.linked
  refine ⟨?_, ?_, ?_, ?_, ?_, fun u hu => h.unit_lt_size hu⟩
  · intro id c hc
    have hid : id < x.forest.size := lt_size_of_mem_children hc
    rw [htree.children] at hc
    exact Nat.lt_trans (horderly.child_lt id c hc) hid
  · intro id p hp
    obtain hp | hp := h.parent_eq hp
    · exact hlink.lt_size p hp
    · cases (hunlinked.parent id).symm.trans hp
  · exact h.declares (fun _ hid => hid) fun y t ht => nomatch (hunlinked.declaration y).symm.trans ht
  · intro file hfile
    rw [htree.size]
    rw [htree.files] at hfile
    exact horderly.loose_lt _ (mem_map_of_mem hfile)
  · intro s hs
    obtain hs | ⟨id, hid, rfl⟩ := h.recorded s hs
    · rw [hunlinked.nameScopes] at hs
      cases hs
    · rw [node_scopeWith]
      exact hlink.lt_size id hid

/-- The forests of sources with their trees. -/
def forestsOf (sources : List (String × Syntax.Source × Syntax.Tree)) : List Forest :=
  sources.map fun s => Forest.ofTree s.1 s.2.1 s.2.2

theorem orderly_of_mem_forestsOf {sources : List (String × Syntax.Source × Syntax.Tree)} :
    ∀ f ∈ forestsOf sources, f.Orderly f.roots := by
  intro f hf
  obtain ⟨s, -, rfl⟩ := mem_map.mp hf
  exact ofTree_orderly ..

theorem unlinked_of_mem_forestsOf {sources : List (String × Syntax.Source × Syntax.Tree)} :
    ∀ f ∈ forestsOf sources, f.Unlinked := by
  intro f hf
  obtain ⟨s, -, rfl⟩ := mem_map.mp hf
  exact ofTree_unlinked ..

theorem ofForests_forestsOf (sources : List (String × Syntax.Source × Syntax.Tree)) :
    ∃ x, ofForests (forestsOf sources) = .ok x := by
  obtain ⟨linked, hlinked⟩ := (joined_orderly (@orderly_of_mem_forestsOf sources)).linkParents_isOk
  exact isOk_of_linkParents hlinked

/-- Forests made from syntax trees, whatever the trees, are lowered child before parent with the file last, can be
joined and linked, and give an index whose links stay in the arena. -/
theorem ofTrees_closed (sources : List (String × Syntax.Source × Syntax.Tree)) :
    (∀ f ∈ forestsOf sources, f.Lowered) ∧ ∃ x, ofForests (forestsOf sources) = .ok x ∧ x.Closed := by
  refine ⟨fun f hf => ?_, ?_⟩
  · obtain ⟨s, -, rfl⟩ := List.mem_map.mp hf
    exact ofTree_lowered ..
  · obtain ⟨x, hx⟩ := ofForests_forestsOf sources
    exact ⟨x, hx, (ofForests_built hx).closed (joined_orderly orderly_of_mem_forestsOf)
      (joined_unlinked unlinked_of_mem_forestsOf)⟩

/-! ## Programs -/

/-- Programs as sources with their trees, each a file of its own. -/
def sourcesOf (programs : List (String × String)) : List (String × Syntax.Source × Syntax.Tree) :=
  programs.map fun p => (p.1, p.2.toUTF8, (Syntax.Tree.ofSource p.2.toUTF8).getD default)

/-- The index of programs with their paths. -/
def ofPrograms (programs : List (String × String)) : Index :=
  (ofForests (forestsOf (sourcesOf programs))).toOption.getD default

theorem ofForests_ofPrograms (programs : List (String × String)) :
    ofForests (forestsOf (sourcesOf programs)) = .ok (ofPrograms programs) := by
  obtain ⟨x, hx⟩ := ofForests_forestsOf (sourcesOf programs)
  rw [ofPrograms, hx]
  rfl

end Index

end EventAtlas
