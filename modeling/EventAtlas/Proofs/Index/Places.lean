import EventAtlas.Proofs.Index.Table

/-!
# Names and scopes of a built index

The naming pass runs on the forest as it is before references are linked. References do not move anything, so what the
pass has written can be told from places in the finished index itself: the qualified names of names and class-likes, the
scopes that are recorded, and the scope that is found on the way up from a node.
-/

namespace EventAtlas

open List

namespace Forest

variable {f : Forest} {id s : NodeId}

/-- Where all imports of a file or namespace stand before a node, its complete scope is in effect there. -/
theorem scopeAt_eq_scopeWith_reached (hlink : f.Linked) (hs : f.opener? id = some s)
    (huses : ∀ u ∈ f.reached, (f.kind u).isImport = true → f.opener? u = some s → u ∈ f.before id) :
    f.scopeAt id = f.scopeWith f.reached s := by
  have hsplit : f.reached = f.before id ++ f.reached.dropWhile (· != id) := takeWhile_append_dropWhile.symm
  have hnodup := hsplit ▸ hlink.nodup
  rw [scopeAt, hs, Option.map_some, Option.getD_some]
  conv_rhs => rw [hsplit]
  refine (scopeWith_append_of_not_isImport fun u hu hopener => Bool.eq_false_iff.mpr fun himport => ?_).symm
  have hmem : u ∈ f.reached := by
    rw [hsplit]
    exact mem_append_right _ hu
  exact (nodup_append.mp hnodup).2.2 u (huses u hmem himport hopener) u hu rfl

end Forest

namespace Index.Built

open Forest

variable {f : Forest} {x : Index} {id : NodeId}

variable (h : Built f x)
include h

theorem exists_named : ∃ linked, SamePlaces linked x.forest ∧ linked.nameScopes = f.nameScopes ∧
    (∀ id ∈ x.forest.reached, x.forest.resolvedName id = linked.nameAt id) ∧
    ∀ id, x.forest.nameScope? id = if id ∈ x.forest.reached ∧ (x.forest.kind id).opensScope = true then
      some (x.forest.scopeWith x.forest.reached id) else linked.nameScope? id := by
  obtain ⟨linked, named, hlinked, hnamed, hsame, -⟩ := h.exists_passes
  have hplaces := hnamed.places.trans hsame.places
  refine ⟨linked, hplaces, hlinked.same.nameScopes, fun id hid => ?_, fun id => ?_⟩
  · rw [hsame.resolvedName, hnamed.name, if_pos (hplaces.reached ▸ hid)]
  · rw [hplaces.reached, hplaces.kind, hplaces.scopeWith, ← hnamed.nameScope, nameScope?, hsame.nameScopes, nameScope?]

theorem resolvedName_of_name (hid : id ∈ x.forest.reached) {text : String} {role : NameRole}
    (hk : x.forest.kind id = .name text role) :
    x.forest.resolvedName id =
      some (Naming.qualified (x.forest.scopeAt id) (x.forest.classAround? id) text role) := by
  obtain ⟨linked, hplaces, -, hname, -⟩ := h.exists_named
  rw [hplaces.kind] at hk
  rw [hname id hid, nameAt, hk, hplaces.scopeAt, hplaces.classAround?]

theorem resolvedName_of_isClassLike (hid : id ∈ x.forest.reached) (hk : (x.forest.kind id).isClassLike = true) :
    x.forest.resolvedName id = some ((x.forest.scopeAt id).qualify ((x.forest.kind id).name?.getD "")) := by
  obtain ⟨linked, hplaces, -, hname, -⟩ := h.exists_named
  rw [hplaces.kind] at hk
  rw [hname id hid, nameAt, hplaces.scopeAt, hplaces.kind]
  cases hkind : linked.kind id <;> simp [hkind, NodeKind.isClassLike] at hk <;> rfl

/-- A name that says `self` has the qualified name of the class around it, if there is one. -/
theorem resolvedName_of_self (hid : id ∈ x.forest.reached) {text : String} {role : NameRole}
    (hk : x.forest.kind id = .name text role) (hrole : role.isClassLike = true)
    (hself : Text.lower text = "self" ∨ Text.lower text = "static") :
    x.forest.resolvedName id = some (((x.forest.enclosingClass? id).bind x.forest.resolvedName).getD text) := by
  have hqualified (scope : NameScope) (around : Option Naming.ClassAround) :
      Naming.qualified scope around text role = (around.map Naming.ClassAround.name).getD text := by
    cases role with
    | function | constant => cases hrole
    | _ => obtain hself | hself := hself <;> simp only [Naming.qualified, hself]
  rw [h.resolvedName_of_name hid hk, hqualified, classAround?]
  cases hc : x.forest.enclosingClass? id with
  | none => rfl
  | some c =>
    obtain ⟨hreached, hclass⟩ := h.linked.enclosingClass?_reached hid hc
    rw [Option.bind_some, h.resolvedName_of_isClassLike hreached hclass]
    rfl

/-- The scope found on the way up from a node is that of the nearest file or namespace. -/
theorem nameScopeFor?_eq (hf : f.nameScopes = []) (hid : id ∈ x.forest.reached)
    (hk : (x.forest.kind id).opensScope = false) :
    x.forest.nameScopeFor? id = (x.forest.opener? id).map (x.forest.scopeWith x.forest.reached) := by
  obtain ⟨linked, -, hscopes, -, hrecorded⟩ := h.exists_named
  have hscope : ∀ a ∈ x.forest.reached, x.forest.nameScope? a =
      if (x.forest.kind a).opensScope = true then some (x.forest.scopeWith x.forest.reached a) else none := by
    intro a ha
    have hnone : linked.nameScope? a = none := by rw [nameScope?, hscopes, hf]; rfl
    simp only [hrecorded, ha, true_and, hnone]
  have hup : ∀ l ⊆ x.forest.reached, l.findSome? x.forest.nameScope? =
      (l.find? fun a => (x.forest.kind a).opensScope).map (x.forest.scopeWith x.forest.reached) := by
    intro l hl
    induction l with
    | nil => rfl
    | cons a rest ih =>
      obtain ⟨ha, hrest⟩ := cons_subset.mp hl
      rw [findSome?_cons, hscope a ha, find?_cons]
      cases (x.forest.kind a).opensScope with
      | true => rfl
      | false => exact ih hrest
  rw [nameScopeFor?, hup _ (h.linked.lineage_subset hid), Linked.lineage_eq_cons, find?_cons, hk]
  rfl

/-- A unit is a class-like below a file, and its name is the qualified name of its declaration. -/
theorem unit {u : ClassUnit} (hu : u ∈ x.units) : u.node ∈ x.forest.reached ∧
    (x.forest.kind u.node).isClassLike = true ∧ x.forest.resolvedName u.node = some u.fqn := by
  rw [h.units] at hu
  obtain ⟨file, hfile, hunit⟩ := mem_filterMap.mp (mem_of_mem_distinctUnits hu)
  obtain ⟨node, hnode, hdecl⟩ := Option.bind_eq_some_iff.mp hunit
  simp only [ClassUnit.ofDeclaration?, Option.bind_eq_bind, Option.bind_eq_some_iff] at hdecl
  obtain ⟨fqn, hfqn, kind, hkind, hu⟩ := hdecl
  obtain rfl := Option.some.inj hu
  have hroot : file.root ∈ x.forest.reached := root_mem_reached (mem_map_of_mem hfile)
  refine ⟨?_, ?_, hfqn⟩
  · obtain ⟨c, hc, hmem⟩ := mem_flatMap.mp (mem_of_mem_head? hnode)
    have hchild := h.linked.children_reached hroot hc
    split at hmem
    · exact h.linked.children_reached hchild (mem_filter.mp hmem).1
    · split at hmem
      · rwa [mem_singleton.mp hmem]
      · cases hmem
  · cases hk : x.forest.kind node <;> simp [hk, UnitKind.ofNode?] at hkind <;> rfl

end Index.Built

/-- What the index finds under a name is a unit with the same key. -/
theorem Index.exists_unit_of_declaration? {x : Index} {fqn : String} {d : NodeId} (h : x.declaration? fqn = some d) :
    ∃ u ∈ x.units, u.node = d ∧ u.key = Forest.declarationKey fqn := by
  obtain ⟨u, hu, rfl⟩ := Option.map_eq_some_iff.mp h
  refine ⟨u, mem_reverse.mp (mem_of_find?_eq_some hu), rfl, ?_⟩
  simpa using find?_some hu

end EventAtlas
