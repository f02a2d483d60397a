import EventAtlas.Index.Snapshot
import EventAtlas.Proofs.Forest.Codec
import EventAtlas.Proofs.Index.Table

/-!
# Snapshots are faithful

An index that was built is read back from its snapshot unchanged (`Index.ofJson_toJson_of_built`): units, nodes, files
and scopes are the same in the same order, and since every question is answered from these, so are all answers. The
linking passes only write links that are positions of the arena and tables made by insertion, so what could be stored
before can be stored after.
-/

namespace EventAtlas

open Json

/-! ## Units -/

theorem UnitKind.ofJson?_word (k : UnitKind) : ofJson? (.str k.word) = some k := by
  cases k <;> rfl

theorem ClassUnit.ofJson?_toJson {u : ClassUnit} (h : u.node < 2 ^ 32) : ofJson? u.toJson = some u := by
  rw [ofJson?, toJson]
  refine Record.bind_of?_obj (by simp) fun r _ hfield => ?_
  have hfqn : r.required "fqn" asStr? = some u.fqn := Record.required_of_lookup (hfield _ rfl) rfl
  have hkind : r.required "kind" UnitKind.ofJson? = some u.kind :=
    Record.required_of_lookup (hfield _ rfl) (UnitKind.ofJson?_word _)
  have hnode : r.required "node" asWord? = some u.node := Record.required_of_lookup (hfield _ rfl) (asWord?_nat h)
  have hfile : r.required "file" asStr? = some u.file := Record.required_of_lookup (hfield _ rfl) rfl
  have hparent : r.optional "parent" asStr? = some u.parent :=
    Record.optional_of_lookup .str (hfield _ rfl) fun _ _ => ⟨nofun, rfl⟩
  have hnames (field : String) {l : List String} (hl : r.fields.lookup field = some (.strs l)) :
      r.required field (asList? asStr?) = some l :=
    Record.required_of_lookup hl (asList?_strs l)
  have habstract : r.required "is_abstract" asBool? = some u.isAbstract :=
    Record.required_of_lookup (hfield _ rfl) rfl
  simp [hfqn, hkind, hnode, hfile, hparent, hnames "interfaces" (hfield _ rfl), hnames "traits" (hfield _ rfl),
    hnames "properties" (hfield _ rfl), hnames "methods" (hfield _ rfl), hnames "constants" (hfield _ rfl), habstract]

/-! ## Scopes -/

namespace NameScope

theorem Ordered.addImport {s : NameScope} (h : s.Ordered) (kind : ImportKind) (name short : String) :
    (s.addImport kind name short).Ordered := by
  cases kind with
  | classLike => exact ⟨h.classes.insert _ _, h.functions, h.constants⟩
  | function => exact ⟨h.classes, h.functions.insert _ _, h.constants⟩
  | constant => exact ⟨h.classes, h.functions, h.constants.insert _ _⟩

end NameScope

namespace Forest

variable {f : Forest}

theorem ordered_addUse {s : NameScope} (h : s.Ordered) (id : NodeId) : (f.addUse s id).Ordered := by
  unfold addUse
  split
  · exact h.addImport ..
  · exact h

theorem ordered_scopeWith (f : Forest) (seen : List NodeId) (s : NodeId) : (f.scopeWith seen s).Ordered := by
  refine List.foldlRecOn (motive := NameScope.Ordered) _ f.addUse ?_ fun _ h id _ => ordered_addUse h id
  unfold scopeOpened
  split <;> exact ⟨Sorted.ordered_empty, Sorted.ordered_empty, Sorted.ordered_empty⟩

theorem node_eq_getElem {id : Nat} (hid : id < f.nodes.size) : f.node id = f.nodes[id] := by
  rw [node, Array.getD_eq_getD_getElem?, Array.getElem?_eq_getElem hid, Option.getD_some]

theorem forall_mem_nodes {P : Node → Prop} : (∀ n ∈ f.nodes, P n) ↔ ∀ id < f.size, P (f.node id) := by
  constructor
  · intro h id hid
    rw [node_eq_getElem hid]
    exact h _ (Array.getElem_mem hid)
  · intro h n hn
    obtain ⟨id, hid, rfl⟩ := Array.mem_iff_getElem.mp hn
    exact node_eq_getElem hid ▸ h id hid

end Forest

namespace Index

open Forest

variable {f : Forest} {x : Index}

/-! ## Linking -/

/-- Linking keeps what can be stored. -/
theorem Built.storable (h : Built f x) (hf : f.Storable) (hsize : f.size ≤ 2 ^ 32) : x.forest.Storable := by
  have htree := h.tree
  have hlink := h.linked
  have hword : ∀ id < x.forest.size, id < 2 ^ 32 := fun _ hid => Nat.lt_of_lt_of_le (htree.size ▸ hid) hsize
  have hnode (id : NodeId) : (f.node id).Storable := by
    obtain hid | hid := Nat.lt_or_ge id f.size
    · exact forall_mem_nodes.mp hf.node id hid
    · rw [node_of_size_le hid]
      decide
  refine ⟨forall_mem_nodes.mpr fun id _ => ⟨?_, ?_, ?_, ?_⟩, ?_, ?_⟩
  · rw [htree.span]
    exact (hnode id).span
  · intro c hc
    change c ∈ x.forest.children id at hc
    rw [htree.children] at hc
    exact (hnode id).children c hc
  · intro p hp
    obtain hp | hp := h.parent_eq hp
    · exact hword p (hlink.lt_size p hp)
    · exact (hnode id).parent p hp
  · exact h.declares hword (fun y t ht => (hnode y).declaration t ht) id
  · rw [htree.files]
    exact hf.root
  · intro s hs
    obtain hs | ⟨id, hid, rfl⟩ := h.recorded s hs
    · exact hf.scope s hs
    · rw [node_scopeWith]
      exact ⟨hword id (hlink.lt_size id hid), ordered_scopeWith ..⟩

theorem ofJson_toJson (hunits : ∀ u ∈ x.units, u.node < 2 ^ 32) (hforest : x.forest.Storable) :
    ofJson x.toJson = .ok x := by
  have hversion : versionOf? x.toJson = some snapshotVersion := by
    rw [versionOf?, toJson]
    refine Record.bind_of?_obj (by simp) fun r _ hfield => ?_
    exact Record.required_of_lookup (hfield _ rfl) (asWord?_nat (by decide))
  have hcontents : contentsOf? x.toJson = some x := by
    rw [contentsOf?, toJson]
    refine Record.bind_of?_obj (by simp) fun r _ hfield => ?_
    have hunits : r.required "units" (asList? ClassUnit.ofJson?) = some x.units :=
      Record.required_of_lookup (hfield _ rfl) (asList?_map fun u hu => ClassUnit.ofJson?_toJson (hunits u hu))
    have hforest : r.required "forest" Forest.ofJson? = some x.forest :=
      Record.required_of_lookup (hfield _ rfl) (Forest.ofJson?_toJson hforest)
    simp [hunits, hforest]
  simp [ofJson, hversion, hcontents]

/-- The snapshot of an index that was built holds all of it. -/
theorem ofJson_toJson_of_built {forests : List Forest} (h : ofForests forests = .ok x)
    (hstorable : (joined forests).Storable) (hsize : (joined forests).size ≤ 2 ^ 32) : ofJson x.toJson = .ok x := by
  have hbuilt := ofForests_built h
  refine ofJson_toJson (fun u hu => ?_) (hbuilt.storable hstorable hsize)
  exact Nat.lt_of_lt_of_le (hbuilt.tree.size ▸ hbuilt.unit_lt_size hu) hsize

/-- A class in a namespace with an import, and what it extends. -/
def importer : List (String × String) :=
  [("app.php", "<?php\nnamespace App;\nuse Lib\\Base as B;\n" ++
      "class Post extends B \x7b function up(): self \x7b\x7d \x7d\n"),
    ("lib.php", "<?php\nnamespace Lib;\nclass Base \x7b\x7d\n")]

theorem ofJson_toJson_importer :
    (ofPrograms importer).units.map ClassUnit.fqn = ["App\\Post", "Lib\\Base"] ∧
      ofJson (ofPrograms importer).toJson = .ok (ofPrograms importer) := by
  have hfacts : (ofPrograms importer).units.map ClassUnit.fqn = ["App\\Post", "Lib\\Base"] ∧
      (joined (forestsOf (sourcesOf importer))).Storable ∧
      (joined (forestsOf (sourcesOf importer))).size ≤ 2 ^ 32 := by
    decide +kernel
  exact ⟨hfacts.1, ofJson_toJson_of_built (ofForests_ofPrograms importer) hfacts.2.1 hfacts.2.2⟩

end Index

end EventAtlas
