import EventAtlas.Proofs.Index.Table

/-!
# Linking a linked forest

No linking pass reads what it writes itself: parents are told from children, names and scopes from kinds and places,
references from qualified names and places. So a pass that meets its own results writes them once more. Parents stay
(`Forest.Linked.linkParents_eq`), names and scopes stay (`Forest.NamesSettled.resolveNames_eq`), and a round over the
references comes to the same declarations and counts wherever declarations start from (`Reference.IsRound.again`).
Linking what linking has made therefore gives the same forest and the same table of declarations
(`Index.link_again`).
-/

namespace EventAtlas

open List

namespace Forest

variable {f g : Forest} {id : NodeId}

/-- A forest is its trees with their links and scopes. -/
theorem SameTree.eq_of_links (h : SameTree f g) (hparent : g.parent = f.parent)
    (hname : g.resolvedName = f.resolvedName) (hdecl : g.declaration = f.declaration)
    (hscopes : g.nameScopes = f.nameScopes) : g = f := by
  have hnode : ∀ id, g.node id = f.node id := fun id =>
    Node.ext (congrFun h.kind id) (h.span id) (congrFun h.children id) (congrFun hparent id) (congrFun hname id)
      (congrFun hdecl id)
  have hnodes : g.nodes = f.nodes := by
    refine Array.ext h.size fun id hg hf => ?_
    have := hnode id
    simpa [node, Array.getD_eq_getD_getElem?, Array.getElem?_eq_getElem hg, Array.getElem?_eq_getElem hf] using this
  obtain ⟨nodes, files, scopes⟩ := g
  obtain rfl : nodes = f.nodes := hnodes
  obtain rfl : files = f.files := h.files
  obtain rfl : scopes = f.nameScopes := hscopes
  rfl

/-! ## Parents -/

/-- Linking the parents of a forest that has them changes nothing. -/
theorem Linked.linkParents_eq (h : f.Linked) : f.linkParents = .ok f := by
  obtain ⟨g, hg⟩ := linkParents_isOk h.nodup h.lt_size
  have hlinked := linkParents_ok hg
  have hparent : g.parent = f.parent := by
    funext id
    by_cases hid : id ∈ f.reached
    · refine h.reached_induction (fun root hroot => ?_) (fun a ha _ c hc => ?_) hid
      · rw [hlinked.parent_root root hroot, h.parent_root root hroot]
      · rw [hlinked.parent_child a ha c hc, h.parent_child a ha c hc]
    · exact hlinked.parent_other id hid
  rw [hg, hlinked.same.tree.eq_of_links hparent hlinked.same.resolvedName hlinked.same.declaration
    hlinked.same.nameScopes]

/-! ## Recorded scopes -/

/-- The nodes for which scopes are recorded, in the order of recording. -/
def scopeNodes (f : Forest) : List NodeId :=
  f.nameScopes.map NameScope.node

theorem nameScope?_isSome_iff : (f.nameScope? id).isSome = true ↔ id ∈ f.scopeNodes := by
  simp [nameScope?, scopeNodes]

theorem map_node_replaceScope (scope : NameScope) (l : List NameScope) :
    (replaceScope scope l).map NameScope.node = l.map NameScope.node := by
  induction l with
  | nil => rfl
  | cons s rest ih =>
    unfold replaceScope
    split
    · next hs => simp [beq_iff_eq.mp hs]
    · rw [map_cons, ih, map_cons]

/-- Recording a scope adds its node, unless there is a scope for it. -/
theorem scopeNodes_setNameScope (f : Forest) (scope : NameScope) :
    (f.setNameScope scope).scopeNodes = if scope.node ∈ f.scopeNodes then f.scopeNodes else f.scopeNodes ++ [scope.node] := by
  unfold setNameScope
  by_cases h : scope.node ∈ f.scopeNodes
  · rw [if_pos h, if_pos (nameScope?_isSome_iff.mpr h)]
    simp only [scopeNodes, map_reverse, map_node_replaceScope, reverse_reverse]
  · rw [if_neg h, if_neg (mt nameScope?_isSome_iff.mp h)]
    simp [scopeNodes]

theorem nameScope?_of_mem (h : f.scopeNodes.Nodup) {s : NameScope} (hs : s ∈ f.nameScopes) :
    f.nameScope? s.node = some s := by
  obtain ⟨t, ht⟩ := Option.isSome_iff_exists.mp (nameScope?_isSome_iff.mpr (mem_map_of_mem hs))
  have hnode : t.node = s.node := by simpa using find?_some ht
  have hmem : t ∈ f.nameScopes := mem_reverse.mp (mem_of_find?_eq_some ht)
  rw [ht, inj_on_of_nodup_map h hmem hs hnode]

/-- Scopes for the same nodes in the same order are the same if look-ups cannot tell them apart. -/
theorem nameScopes_eq (hf : f.scopeNodes.Nodup) (hnodes : g.scopeNodes = f.scopeNodes) (hlookup : g.nameScope? = f.nameScope?) :
    g.nameScopes = f.nameScopes := by
  have hlength : g.nameScopes.length = f.nameScopes.length := by
    simpa [scopeNodes] using congrArg List.length hnodes
  refine ext_getElem hlength fun i hg hi => ?_
  have hnode : g.nameScopes[i].node = f.nameScopes[i].node := by
    have := getElem_of_eq hnodes (i := i) (by simpa [scopeNodes] using hg)
    simpa [scopeNodes] using this
  have hfound := nameScope?_of_mem (hnodes ▸ hf) (getElem_mem hg)
  rw [hlookup, hnode, nameScope?_of_mem hf (getElem_mem hi)] at hfound
  exact (Option.some.inj hfound).symm

open Naming

/-- Naming keeps one scope for each node, and keeps the nodes with scopes in their order. -/
theorem scopeNodes_resolveNames (h : f.scopeNodes.Nodup) : f.resolveNames.scopeNodes.Nodup ∧ f.scopeNodes <+: f.resolveNames.scopeNodes := by
  refine List.foldlRecOn (motive := fun g : Forest => g.scopeNodes.Nodup ∧ f.scopeNodes <+: g.scopeNodes) _ _
    ⟨h, prefix_rfl⟩ fun g hg file _ => ?_
  refine walk_keeps (P := fun g => g.scopeNodes.Nodup ∧ f.scopeNodes <+: g.scopeNodes) (fun _ _ _ hg => hg) (fun g s hg => ?_) _ _ _ hg
  rw [scopeNodes_setNameScope]
  split
  · exact hg
  · next hnew => exact ⟨concat_eq_append ▸ hg.1.concat hnew, hg.2.trans (prefix_append ..)⟩

/-! ## Names -/

/-- Every name and scope that the naming pass would write is there. -/
structure NamesSettled (f : Forest) : Prop where
  name : ∀ id ∈ f.reached, f.nameAt id = f.resolvedName id
  scope : ∀ id ∈ f.reached, (f.kind id).opensScope = true → f.nameScope? id = some (f.scopeWith f.reached id)
  nodup : f.scopeNodes.Nodup

/-- The qualified name that its place gives to a node, if naming concerns it. -/
def placedName? (f : Forest) (id : NodeId) : Option String :=
  match f.kind id with
  | .classDecl name _ | .interfaceDecl name | .traitDecl name => some ((f.scopeAt id).qualify name)
  | .function name => if (f.enclosingClass? id).isSome then none else some ((f.scopeAt id).qualify name)
  | .name text role => some (Naming.qualified (f.scopeAt id) (f.classAround? id) text role)
  | _ => none

theorem nameAt_eq_or (f : Forest) (id : NodeId) : f.nameAt id = (f.placedName? id).or (f.resolvedName id) := by
  unfold nameAt placedName?
  cases f.kind id with
  | function name =>
    dsimp only
    cases (f.enclosingClass? id).isSome <;> rfl
  | _ => rfl

theorem SamePlaces.placedName? (a : SamePlaces f g) : g.placedName? = f.placedName? := by
  funext id
  unfold Forest.placedName?
  rw [a.kind, a.scopeAt, a.classAround?, a.enclosingClass?]

/-- After naming, the name by place is the one that was written. -/
theorem Named.nameAt (h : Named f g) (hid : id ∈ f.reached) : g.nameAt id = g.resolvedName id := by
  rw [nameAt_eq_or, h.places.placedName?, h.name, if_pos hid, nameAt_eq_or]
  cases f.placedName? id <;> rfl

theorem resolveNames_settled (h : f.Linked) (hnodes : f.scopeNodes.Nodup) : f.resolveNames.NamesSettled := by
  have hnamed := resolveNames_named h
  refine ⟨fun id hid => ?_, fun id hid hopens => ?_, (scopeNodes_resolveNames hnodes).1⟩
  · exact hnamed.nameAt (hnamed.tree.reached ▸ hid)
  · rw [hnamed.tree.reached] at hid
    rw [hnamed.tree.kind] at hopens
    rw [hnamed.nameScope, if_pos ⟨hid, hopens⟩, hnamed.places.scopeWith, hnamed.tree.reached]

namespace NamesSettled

theorem congr (h : f.NamesSettled) (hsame : SameButDeclarations f g) : g.NamesSettled := by
  refine ⟨fun id hid => ?_, fun id hid hopens => ?_, ?_⟩
  · rw [hsame.tree.reached] at hid
    rw [nameAt_eq_or, hsame.places.placedName?, hsame.resolvedName, ← nameAt_eq_or, h.name id hid]
  · rw [hsame.tree.reached] at hid
    rw [hsame.tree.kind] at hopens
    rw [nameScope?, hsame.nameScopes, hsame.places.scopeWith, hsame.tree.reached]
    exact h.scope id hid hopens
  · rw [scopeNodes, hsame.nameScopes]
    exact h.nodup

/-- Naming a forest that has its names and scopes changes nothing. -/
theorem resolveNames_eq (h : f.NamesSettled) (hlink : f.Linked) : f.resolveNames = f := by
  have hnamed := resolveNames_named hlink
  have hname : f.resolveNames.resolvedName = f.resolvedName := by
    funext id
    rw [hnamed.name]
    split
    · next hid => exact h.name id hid
    · rfl
  have hlookup : f.resolveNames.nameScope? = f.nameScope? := by
    funext id
    rw [hnamed.nameScope]
    split
    · next hid => exact (h.scope id hid.1 hid.2).symm
    · rfl
  -- The nodes with scopes are those of before and perhaps more; but every node with a scope had one before.
  obtain ⟨hnodup, extra, hextra⟩ := scopeNodes_resolveNames h.nodup
  have hnone : extra = [] := by
    refine eq_nil_iff_forall_not_mem.mpr fun id hid => ?_
    have hafter : id ∈ f.resolveNames.scopeNodes := hextra ▸ mem_append_right _ hid
    have hbefore : id ∈ f.scopeNodes := by
      rw [← nameScope?_isSome_iff, hlookup, nameScope?_isSome_iff] at hafter
      exact hafter
    rw [← hextra] at hnodup
    exact (nodup_append.mp hnodup).2.2 id hbefore id hid rfl
  rw [hnone, append_nil] at hextra
  exact hnamed.tree.eq_of_links hnamed.parent hname hnamed.declaration (nameScopes_eq h.nodup hextra.symm hlookup)

end NamesSettled

end Forest

/-! ## References -/

namespace Reference

open Forest

/-- Writing the same declarations again changes nothing. -/
theorem writeAll_writeAll (f : Forest) (links : List (NodeId × NodeId)) :
    writeAll (writeAll f links) links = writeAll f links := by
  have hsame := writeAll_same (writeAll f links) links
  refine hsame.tree.eq_of_links hsame.parent hsame.resolvedName ?_ hsame.nameScopes
  funext x
  obtain hx | hx := Nat.lt_or_ge x f.size
  · rw [declaration_writeAll _ _ ((writeAll_same f links).tree.size ▸ hx), declaration_writeAll f links hx]
    cases links.reverse.find? fun l => l.1 == x <;> rfl
  · have hout : (writeAll f links).size ≤ x := (writeAll_same f links).tree.size ▸ hx
    rw [declaration, node_of_size_le (hsame.tree.size ▸ hout), declaration, node_of_size_le hout]

/-- A round that starts from what it has written comes to the same forest and the same counts. -/
theorem IsRound.again {links : Forest → List (NodeId × NodeId)} {r : Progress → Progress} (hr : IsRound links r)
    (f : Forest) (c : LinkCounts) : r ⟨(r ⟨f, c⟩).forest, c⟩ = r ⟨f, c⟩ := by
  obtain ⟨counts, hcongr, heq⟩ := hr
  obtain ⟨hl, hc⟩ := hcongr f _ (writeAll_same f (links f))
  simp only [heq, hl, hc, writeAll_writeAll]

end Reference

namespace Forest

open Reference

/-- Linking the references of a forest that has them changes nothing and counts the same. -/
theorem linkReferences_linkReferences (f : Forest) (lookup : String → Option NodeId) :
    (f.linkReferences lookup).2.linkReferences lookup = f.linkReferences lookup := by
  obtain ⟨r, hround, heq⟩ := linkReferences_isRound lookup
  simp only [heq, hround.again f {}]

end Forest

namespace Index

open Forest

variable {f g : Forest} {counts : LinkCounts}

/-- The declarations that references are linked against. -/
def collected (named : Forest) : Sorted String NodeId :=
  declarationTable (unitsOf named)

/-- Linking a forest that has no links, and linking the result: the second time nothing changes. Nodes, files and scopes
stay, the same declarations are collected and the same links are counted. The passes change neither kinds nor places nor
children. -/
theorem link_again (hf : f.Unlinked) (h : f.link collected = .ok (counts, g)) :
    g.link collected = .ok (counts, g) ∧ g.linkSyntax = .ok g ∧
      ∃ linked, f.linkParents = .ok linked ∧ collected g = collected linked.resolveNames ∧
        SameTree f linked ∧ SameTree linked linked.resolveNames ∧ SameTree linked.resolveNames g := by
  cases hparents : f.linkParents with
  | error e =>
    simp only [Forest.link, linkSyntax, hparents, bind, Except.bind] at h
    cases h
  | ok linked =>
    simp only [Forest.link, linkSyntax, hparents, bind, Except.bind, pure, Except.pure] at h
    have hlinked := linkParents_ok hparents
    have hnamed := resolveNames_named hlinked.linked
    have hnodes : linked.scopeNodes.Nodup := by
      rw [scopeNodes, hlinked.same.nameScopes, hf.nameScopes]
      exact List.nodup_nil
    have hrefs : linked.resolveNames.linkReferences (fun fqn => (collected linked.resolveNames).find?
        (declarationKey fqn)) = (counts, g) := Except.ok.inj h
    have hsame : SameButDeclarations linked.resolveNames g := by
      rw [← show _ = g from congrArg Prod.snd hrefs]
      exact linkReferences_same ..
    have hlink : g.Linked := (hlinked.linked.congr hnamed.tree hnamed.parent).congr hsame.tree hsame.parent
    have hsyntax : g.linkSyntax = .ok g := by
      have hnames := ((resolveNames_settled hlinked.linked hnodes).congr hsame).resolveNames_eq hlink
      simp only [linkSyntax, hlink.linkParents_eq, bind, Except.bind, pure, Except.pure, hnames]
    have htable : collected g = collected linked.resolveNames := by
      rw [collected, unitsOf_congr hsame, collected]
    refine ⟨?_, hsyntax, linked, rfl, htable, hlinked.same.tree, hnamed.tree, hsame.tree⟩
    have hagain := linkReferences_linkReferences linked.resolveNames fun fqn =>
      (collected linked.resolveNames).find? (declarationKey fqn)
    rw [hrefs] at hagain
    simp only [Forest.link, hsyntax, bind, Except.bind, pure, Except.pure, htable, hagain]

/-- A class that extends an imported one and speaks of itself in three ways. -/
def selfCopy : List (String × String) :=
  [("a.php", "<?php\nnamespace App;\nuse Lib\\Base as B;\nclass Post extends B \x7b\n" ++
      "  function copy(): self \x7b return new Post(Post::first()); \x7d\n\x7d\n"),
    ("b.php", "<?php\nnamespace Lib;\nclass Base \x7b\x7d\n")]

theorem link_again_selfCopy : ∃ counts g,
    (joined (forestsOf (sourcesOf selfCopy))).link collected = .ok (counts, g) ∧
      counts = ⟨1, 1, 2, 1, 0⟩ ∧ g.scopeNodes = [12, 13, 15, 16] ∧ g.link collected = .ok (counts, g) := by
  have hfacts : ((joined (forestsOf (sourcesOf selfCopy))).link collected).toOption.map
      (fun r => (r.1, r.2.scopeNodes)) = some (⟨1, 1, 2, 1, 0⟩, [12, 13, 15, 16]) := by
    decide +kernel
  cases hlink : (joined (forestsOf (sourcesOf selfCopy))).link collected with
  | error e =>
    rw [hlink] at hfacts
    cases hfacts
  | ok r =>
    rw [hlink] at hfacts
    have hpair := Prod.mk.inj (Option.some.inj hfacts)
    have hagain := link_again (joined_unlinked unlinked_of_mem_forestsOf) hlink
    exact ⟨r.1, r.2, rfl, hpair.1, hpair.2, hagain.1⟩

end Index

end EventAtlas
