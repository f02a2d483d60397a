import EventAtlas.Proofs.Link.Relinking
import Mathlib.Data.Finset.Card

/-!
# Joined forests are disjoint

Joining two forests moves the second one behind the first: each handle of the second forest, wherever it occurs, is moved
by the number of nodes of the first. If the handles of both forests lie inside of their arenas, nothing of the first
forest changes, everything about the second is found at the moved handles, and no link leads from one part to the other
(`DisjointUnion`). Joining is associative, so a list of forests can be joined in any grouping.

A list of scopes may hold several for one node. The last of them counts, and joining keeps only that one, at the place of
the first: `inEffect` is such a list with one scope for each node.

A walk below a node ends if there is no cycle below it, and then it ends within as many levels as there are nodes
(`Fits.within_size`). So the bound of `descendants` is never met, and it does not matter that it grows when forests are
joined.
-/

namespace EventAtlas

open List NameScope

/-- The file with its root moved. -/
def SourceFile.shift (offset : Nat) (file : SourceFile) : SourceFile :=
  { file with root := file.root + offset }

/-- The scope with its node moved. -/
def NameScope.shift (offset : Nat) (s : NameScope) : NameScope :=
  { s with node := s.node + offset }

/-- All links of the node lie below `size`. -/
def Node.LinksBelow (size : Nat) (n : Node) : Prop :=
  (∀ c ∈ n.children, c < size) ∧ (∀ p ∈ n.parent, p < size) ∧ ∀ d ∈ n.declaration, d < size

instance (size : Nat) (n : Node) : Decidable (n.LinksBelow size) :=
  inferInstanceAs (Decidable (_ ∧ _ ∧ _))

attribute [ext] Forest

namespace Forest

variable {f g h : Forest} {id x y c : NodeId} {n m offset : Nat}

/-- All handles of the forest lie inside of its arena. -/
@[mk_iff] structure Contained (f : Forest) : Prop where
  node : ∀ n ∈ f.nodes.toList, n.LinksBelow f.size
  root : ∀ file ∈ f.files, file.root < f.size
  scope : ∀ s ∈ f.nameScopes, s.node < f.size

instance (f : Forest) : Decidable f.Contained :=
  decidable_of_iff _ f.contained_iff.symm

theorem Contained.linksBelow (hf : f.Contained) (id : NodeId) : (f.node id).LinksBelow f.size := by
  by_cases hid : id < f.size
  · have hmem : f.node id ∈ f.nodes.toList := by
      rw [Forest.node, Array.getD_eq_getD_getElem?, Array.getElem?_eq_getElem hid, Option.getD_some]
      exact Array.getElem_mem_toList hid
    exact hf.node _ hmem
  · rw [node_of_size_le (Nat.le_of_not_lt hid)]
    exact ⟨by rintro _ ⟨⟩, by rintro _ ⟨⟩, by rintro _ ⟨⟩⟩

/-- A node is linked to another as its parent, its child or what refers to it. -/
def Refers (f : Forest) (x y : NodeId) : Prop :=
  y ∈ f.children x ∨ f.parent x = some y ∨ f.declaration x = some y

theorem Contained.lt_of_refers (hf : f.Contained) (h : f.Refers x y) : y < f.size := by
  obtain ⟨hchild, hparent, hdeclaration⟩ := hf.linksBelow x
  rcases h with h | h | h
  · exact hchild y h
  · exact hparent y h
  · exact hdeclaration y h

theorem refers_shiftNode (n : Node) {y : Nat} :
    (y ∈ (shiftNode offset n).children ∨ (shiftNode offset n).parent = some y ∨ (shiftNode offset n).declaration = some y) →
      ∃ z : Nat, (z ∈ n.children ∨ n.parent = some z ∨ n.declaration = some z) ∧ y = z + offset := by
  rintro (hy | hy | hy)
  · obtain ⟨z, hz, rfl⟩ := mem_map.mp hy
    exact ⟨z, .inl hz, rfl⟩
  · obtain ⟨z, hz, rfl⟩ := Option.map_eq_some_iff.mp hy
    exact ⟨z, .inr (.inl hz), rfl⟩
  · obtain ⟨z, hz, rfl⟩ := Option.map_eq_some_iff.mp hy
    exact ⟨z, .inr (.inr hz), rfl⟩

/-! ## Nodes and walks -/

theorem node_absorb_right (f g : Forest) (id : NodeId) : (f.absorb g).node (id + f.size) = shiftNode f.size (g.node id) := by
  rw [node_absorb, if_neg (Nat.not_lt.mpr (Nat.le_add_left ..)), Nat.add_sub_cancel]

/-- What refers to what in joined forests does so in one of them. -/
theorem refers_absorb (hxy : (f.absorb g).Refers x y) :
    (x < f.size ∧ f.Refers x y) ∨ ∃ v w, x = v + f.size ∧ y = w + f.size ∧ g.Refers v w := by
  by_cases hx : x < f.size
  · left
    refine ⟨hx, ?_⟩
    simpa only [Refers, children, parent, declaration, node_absorb, if_pos hx] using hxy
  · right
    obtain ⟨v, rfl⟩ := Nat.exists_eq_add_of_le' (Nat.le_of_not_lt hx)
    simp only [Refers, children, parent, declaration, node_absorb_right] at hxy
    obtain ⟨w, hw, rfl⟩ := refers_shiftNode _ hxy
    exact ⟨v, w, rfl, rfl, hw⟩

theorem descend_absorb_left (hf : f.Contained) (hid : id < f.size) : (f.absorb g).descend n id = f.descend n id := by
  induction n generalizing id with
  | zero => rfl
  | succ n ih =>
    rw [descend, descend, children_absorb_left hid]
    congr 1
    exact flatMap_congr fun c hc => ih ((hf.linksBelow id).1 c hc)

theorem children_moved (f g : Forest) (id : NodeId) :
    (f.absorb g).children (id + f.size) = (g.children id).map (· + f.size) := by
  rw [Nat.add_comm, children_absorb_right]

theorem descend_absorb_right (f g : Forest) (n : Nat) (id : NodeId) :
    (f.absorb g).descend n (id + f.size) = (g.descend n id).map (· + f.size) := by
  induction n generalizing id with
  | zero => rfl
  | succ n ih =>
    rw [descend, descend, children_moved, flatMap_map, map_cons, map_flatMap]
    simp only [ih]

theorem fits_absorb_left (hf : f.Contained) (hid : id < f.size) : (f.absorb g).Fits n id ↔ f.Fits n id := by
  induction n generalizing id with
  | zero => rfl
  | succ n ih =>
    rw [Fits, Fits, children_absorb_left hid]
    exact forall₂_congr fun c hc => ih ((hf.linksBelow id).1 c hc)

theorem fits_absorb_right (f g : Forest) (n : Nat) (id : NodeId) : (f.absorb g).Fits n (id + f.size) ↔ g.Fits n id := by
  induction n generalizing id with
  | zero => rfl
  | succ n ih =>
    rw [Fits, Fits, children_moved, forall_mem_map]
    exact forall₂_congr fun c _ => ih c

/-! ## Walks that end -/

/-- What is below a node has fewer levels below it. -/
theorem Fits.of_mem_descend (hfits : f.Fits n id) (hx : x ∈ f.descend m id) : f.Fits n x := by
  refine descend_induction hfits (fun a ha c hc => ?_) hx
  cases n with
  | zero => exact ha.elim
  | succ n => exact (ha c hc).succ

/-- A walk that ends does not come back to where it starts. -/
theorem Fits.not_mem_descend (hfits : f.Fits n id) (hc : c ∈ f.children id) : id ∉ f.descend m c := by
  induction n with
  | zero => exact hfits.elim
  | succ n ih =>
    intro hid
    -- Below its child the node has one level less, and so it would have none in the end.
    exact ih ((hfits c hc).of_mem_descend hid) hid

/-- The nodes of the arena that a walk meets. -/
def met (f : Forest) (n : Nat) (id : NodeId) : Finset NodeId :=
  (Finset.range f.size).filter fun x => x ∈ f.descend n id

/-- A walk that ends has no more levels than it meets nodes, and one for a handle that is no node. -/
theorem Fits.within_met (hfits : f.Fits n id) : f.Fits ((f.met n id).card + 1) id := by
  induction n generalizing id with
  | zero => exact hfits.elim
  | succ n ih =>
    intro c hc
    have hid : id ∈ f.met (n + 1) id :=
      Finset.mem_filter.mpr ⟨Finset.mem_range.mpr (lt_size_of_mem_children hc), self_mem_descend f n id⟩
    -- The walk below the child does not meet the node again, so it meets fewer nodes.
    have hsub : f.met n c ⊆ (f.met (n + 1) id).erase id := by
      intro x hx
      obtain ⟨hx, hmem⟩ := Finset.mem_filter.mp hx
      refine Finset.mem_erase.mpr ⟨?_, Finset.mem_filter.mpr ⟨hx, ?_⟩⟩
      · rintro rfl
        exact hfits.not_mem_descend hc hmem
      · exact mem_cons_of_mem _ (mem_flatMap.mpr ⟨c, hc, hmem⟩)
    have hcard : (f.met n c).card + 1 ≤ (f.met (n + 1) id).card := by
      have hle := Finset.card_le_card hsub
      have hpos := Finset.card_pos.mpr ⟨id, hid⟩
      rw [Finset.card_erase_of_mem hid] at hle
      omega
    exact (ih (hfits c hc)).mono hcard

/-- A walk that ends does so within as many levels as there are nodes, and one for a handle that is no node. -/
theorem Fits.within_size (hfits : f.Fits n id) : f.Fits (f.size + 1) id := by
  have hcard : (f.met n id).card ≤ f.size := by
    have hle := Finset.card_filter_le (Finset.range f.size) fun x => x ∈ f.descend n id
    rwa [Finset.card_range] at hle
  exact hfits.within_met.mono (Nat.succ_le_succ hcard)

theorem descendants_absorb_left (hf : f.Contained) (hid : id < f.size) (hfits : f.Fits n id) :
    (f.absorb g).descendants id = f.descendants id := by
  rw [descendants, descend_absorb_left hf hid, size_absorb, descendants]
  exact hfits.within_size.descend_eq (by omega)

theorem descendants_absorb_right (f : Forest) (hfits : g.Fits n id) :
    (f.absorb g).descendants (id + f.size) = (g.descendants id).map (· + f.size) := by
  rw [descendants, descend_absorb_right, size_absorb, descendants]
  exact congrArg _ (hfits.within_size.descend_eq (by omega))

/-! ## Searches from the end -/

section Search

variable {α : Type} {key : α → Nat} {move : α → α} {first second : List α}

/-- A key below the offset is found in the first list. -/
theorem find?_moved_left (hmove : ∀ a, key (move a) = key a + offset) {id : Nat} (hid : id < offset) :
    (first ++ second.map move).reverse.find? (fun a => key a == id) = first.reverse.find? fun a => key a == id := by
  have hnone : (second.map move).reverse.find? (fun a => key a == id) = none := by
    rw [find?_eq_none]
    intro a ha hkey
    obtain ⟨b, -, rfl⟩ := mem_map.mp (mem_reverse.mp ha)
    have hmoved := hmove b
    have hfound : key (move b) = id := beq_iff_eq.mp hkey
    omega
  rw [reverse_append, find?_append, hnone, Option.none_or]

/-- A moved key is found in the second list. -/
theorem find?_moved_right (hmove : ∀ a, key (move a) = key a + offset) (hfirst : ∀ a ∈ first, key a < offset) (id : Nat) :
    (first ++ second.map move).reverse.find? (fun a => key a == id + offset) =
      (second.reverse.find? fun a => key a == id).map move := by
  have hnone : first.reverse.find? (fun a => key a == id + offset) = none := by
    rw [find?_eq_none]
    intro a ha hkey
    have hbelow := hfirst a (mem_reverse.mp ha)
    have hfound : key a = id + offset := beq_iff_eq.mp hkey
    omega
  have hkey : ((fun a => key a == id + offset) ∘ move) = fun a => key a == id := by
    funext a
    rw [Function.comp_apply, hmove, Bool.eq_iff_iff, beq_iff_eq, beq_iff_eq]
    omega
  rw [reverse_append, find?_append, hnone, Option.or_none, ← map_reverse, find?_map, hkey]

end Search

/-! ## Scopes in effect -/

/-- The list with the last scope of each node, at the place of the first. -/
def inEffect (scopes : List NameScope) : List NameScope :=
  (scopes.foldl setNameScope {}).nameScopes

theorem nameScope?_foldl_setNameScope (scopes : List NameScope) (f : Forest) (id : NodeId) :
    (scopes.foldl setNameScope f).nameScope? id = (scopes.reverse.find? fun s => s.node == id).or (f.nameScope? id) := by
  induction scopes generalizing f with
  | nil => rfl
  | cons s rest ih =>
    rw [foldl_cons, ih, nameScope?_setNameScope, reverse_cons, find?_append, Option.or_assoc,
      find?_singleton]
    by_cases hid : id = s.node
    · rw [if_pos hid, if_pos (beq_iff_eq.mpr hid.symm), Option.some_or]
    · rw [if_neg hid, if_neg (by simpa using Ne.symm hid), Option.none_or]

/-- The scopes in effect are those that are found. -/
theorem find?_inEffect (scopes : List NameScope) (id : NodeId) :
    (inEffect scopes).reverse.find? (fun s => s.node == id) = scopes.reverse.find? fun s => s.node == id :=
  (nameScope?_foldl_setNameScope scopes {} id).trans Option.or_none

variable {scopes first : List NameScope}

theorem mem_of_mem_inEffect {s : NameScope} (hs : s ∈ inEffect scopes) : s ∈ scopes := by
  have hfold : ∀ t ∈ (scopes.foldl setNameScope {}).nameScopes, t ∈ scopes := by
    refine List.foldlRecOn (motive := fun f : Forest => ∀ t ∈ f.nameScopes, t ∈ scopes) scopes setNameScope nofun ?_
    intro f hf s hs t ht
    rcases mem_nameScopes_setNameScope ht with rfl | ht
    · exact hs
    · exact hf t ht
  exact hfold s hs

theorem nodup_inEffect (scopes : List NameScope) : ((inEffect scopes).map NameScope.node).Nodup := by
  refine List.foldlRecOn (motive := fun f : Forest => f.scopeNodes.Nodup) scopes setNameScope nodup_nil ?_
  intro f hf s _
  rw [scopeNodes_setNameScope]
  split
  · exact hf
  · next hnew => exact nodup_append.mpr ⟨hf, nodup_singleton _, by grind⟩

/-- Scopes of different nodes that have none so far are all added. -/
theorem nameScopes_foldl_of_nodup (hnodup : (f.scopeNodes ++ scopes.map NameScope.node).Nodup) :
    (scopes.foldl setNameScope f).nameScopes = f.nameScopes ++ scopes := by
  induction scopes generalizing f with
  | nil => rw [foldl_nil, append_nil]
  | cons s rest ih =>
    have hnew : s.node ∉ f.scopeNodes := by
      intro hmem
      exact (nodup_append.mp hnodup).2.2 _ hmem _ mem_cons_self rfl
    have hset : (f.setNameScope s).nameScopes = f.nameScopes ++ [s] := by
      rw [setNameScope, if_neg (mt nameScope?_isSome_iff.mp hnew)]
    have hnodes : (f.setNameScope s).scopeNodes = f.scopeNodes ++ [s.node] := by
      rw [scopeNodes_setNameScope, if_neg hnew]
    have hrest : ((f.setNameScope s).scopeNodes ++ rest.map NameScope.node).Nodup := by
      rw [hnodes, append_assoc]
      exact hnodup
    rw [foldl_cons, ih hrest, hset, append_assoc, singleton_append]

/-- Where each node has one scope, all scopes are in effect. -/
theorem inEffect_of_nodup (hnodup : (scopes.map NameScope.node).Nodup) : inEffect scopes = scopes :=
  nameScopes_foldl_of_nodup (f := {}) hnodup

/-- A moved scope takes the place of the moved scope of the same node, whatever stands behind. -/
theorem replaceScope_moved (s : NameScope) {found : List NameScope} (more : List NameScope)
    (hfound : (found.find? fun t => t.node == s.node).isSome = true) :
    replaceScope (s.shift offset) (found.map (shift offset) ++ more) =
      (replaceScope s found).map (shift offset) ++ more := by
  induction found with
  | nil => cases hfound
  | cons t rest ih =>
    rw [map_cons, cons_append, replaceScope, replaceScope]
    by_cases ht : t.node = s.node
    · rw [if_pos (by simp [shift, ht]), if_pos (by simp [ht]), map_cons, cons_append]
    · rw [find?_cons, beq_false_of_ne ht] at hfound
      rw [if_neg (by simpa [shift] using ht), if_neg (by simpa using ht), ih hfound, map_cons,
        cons_append]

/-- Recording a moved scope behind the scopes of other nodes is recording the scope. -/
theorem nameScopes_setNameScope_moved (hfirst : ∀ s ∈ first, s.node < offset)
    (hf : f.nameScopes = first ++ g.nameScopes.map (shift offset)) (s : NameScope) :
    (f.setNameScope (s.shift offset)).nameScopes = first ++ (g.setNameScope s).nameScopes.map (shift offset) := by
  have hfound : f.nameScope? (s.shift offset).node = (g.nameScope? s.node).map (shift offset) := by
    rw [nameScope?, hf]
    exact find?_moved_right (fun _ => rfl) hfirst s.node
  rw [setNameScope, setNameScope, hfound, Option.isSome_map]
  split
  · next hsome =>
    simp only [hf, reverse_append, ← map_reverse, replaceScope_moved s _ hsome, reverse_reverse]
  · simp only [hf, map_append, map_singleton, append_assoc]

theorem nameScopes_foldl_moved (hfirst : ∀ s ∈ first, s.node < offset) (scopes : List NameScope)
    (hf : f.nameScopes = first ++ g.nameScopes.map (shift offset)) :
    (scopes.foldl (fun f s => f.setNameScope (s.shift offset)) f).nameScopes =
      first ++ (scopes.foldl setNameScope g).nameScopes.map (shift offset) := by
  induction scopes generalizing f g with
  | nil => exact hf
  | cons s rest ih => exact ih (nameScopes_setNameScope_moved hfirst hf s)

theorem nameScopes_absorb (hf : ∀ s ∈ f.nameScopes, s.node < f.size) :
    (f.absorb g).nameScopes = f.nameScopes ++ (inEffect g.nameScopes).map (shift f.size) :=
  nameScopes_foldl_moved (g := {}) hf g.nameScopes (append_nil _).symm

/-- Scopes of different parts do not get in each other's way. -/
theorem inEffect_append_moved (hfirst : ∀ s ∈ first, s.node < offset) (second : List NameScope) :
    inEffect (first ++ second.map (shift offset)) =
      inEffect first ++ (inEffect second).map (shift offset) := by
  rw [inEffect, foldl_append, foldl_map]
  exact nameScopes_foldl_moved (g := {}) (fun s hs => hfirst s (mem_of_mem_inEffect hs)) second (append_nil _).symm

/-! ## The disjoint union -/

/-- `j` is `f` with `g` behind it, and nothing leads from one part to the other. -/
structure DisjointUnion (f g j : Forest) : Prop where
  size : j.size = f.size + g.size
  node_left : ∀ id, id < f.size → j.node id = f.node id
  node_right : ∀ id, j.node (id + f.size) = shiftNode f.size (g.node id)
  files : j.files = f.files ++ g.files.map (SourceFile.shift f.size)
  scopes : j.nameScopes = f.nameScopes ++ (inEffect g.nameScopes).map (shift f.size)
  all_scopes : g.scopeNodes.Nodup → j.nameScopes = f.nameScopes ++ g.nameScopes.map (shift f.size)
  file_left : ∀ id, id < f.size → j.fileByRoot? id = f.fileByRoot? id
  file_right : ∀ id, j.fileByRoot? (id + f.size) = (g.fileByRoot? id).map (SourceFile.shift f.size)
  scope_left : ∀ id, id < f.size → j.nameScope? id = f.nameScope? id
  scope_right : ∀ id, j.nameScope? (id + f.size) = (g.nameScope? id).map (shift f.size)
  levels_left : ∀ n id, id < f.size → j.descend n id = f.descend n id
  levels_right : ∀ n id, j.descend n (id + f.size) = (g.descend n id).map (· + f.size)
  ends_left : ∀ n id, id < f.size → (j.Fits n id ↔ f.Fits n id)
  ends_right : ∀ n id, j.Fits n (id + f.size) ↔ g.Fits n id
  below_left : ∀ n id, id < f.size → f.Fits n id → j.descendants id = f.descendants id
  below_right : ∀ n id, g.Fits n id → j.descendants (id + f.size) = (g.descendants id).map (· + f.size)
  apart : ∀ x y, j.Refers x y → (x < f.size ↔ y < f.size)

theorem absorb_union (hf : f.Contained) : DisjointUnion f g (f.absorb g) := by
  have hscopes := nameScopes_absorb (g := g) hf.scope
  refine ⟨size_absorb f g, fun id hid => ?_, node_absorb_right f g, files_absorb f g, hscopes, fun hone => ?_,
    fun id hid => ?_, fun id => ?_, fun id hid => ?_, fun id => ?_, fun n id => descend_absorb_left hf, descend_absorb_right f g,
    fun n id => fits_absorb_left hf, fits_absorb_right f g, fun n id => descendants_absorb_left hf,
    fun n id => descendants_absorb_right f, fun x y hxy => ?_⟩
  · rw [node_absorb, if_pos hid]
  · rw [hscopes, inEffect_of_nodup hone]
  · rw [fileByRoot?, files_absorb]
    exact find?_moved_left (fun _ => rfl) hid
  · rw [fileByRoot?, files_absorb]
    have hmove : ∀ file : SourceFile, (file.shift f.size).root = file.root + f.size := fun _ => rfl
    exact find?_moved_right hmove hf.root id
  · rw [nameScope?, hscopes]
    exact find?_moved_left (fun _ => rfl) hid
  · rw [nameScope?, hscopes, find?_moved_right (fun _ => rfl) hf.scope, find?_inEffect]
    rfl
  · rcases refers_absorb hxy with ⟨hx, hxy⟩ | ⟨v, w, rfl, rfl, -⟩
    · exact iff_of_true hx (hf.lt_of_refers hxy)
    · exact iff_of_false (Nat.not_lt.mpr (Nat.le_add_left ..)) (Nat.not_lt.mpr (Nat.le_add_left ..))

theorem Contained.absorb (hf : f.Contained) (hg : g.Contained) : (f.absorb g).Contained := by
  have hlt : ∀ {y : Nat}, y < g.size → y + f.size < f.size + g.size := by
    intro y hy
    omega
  have hmoved : ∀ n : Node, n.LinksBelow g.size → (shiftNode f.size n).LinksBelow (f.size + g.size) := by
    intro n ⟨hchild, hparent, hdeclaration⟩
    refine ⟨?_, ?_, ?_⟩
    · exact forall_mem_map.mpr fun c hc => hlt (hchild c hc)
    · exact Option.forall_mem_map.mpr fun p hp => hlt (hparent p hp)
    · exact Option.forall_mem_map.mpr fun d hd => hlt (hdeclaration d hd)
  refine ⟨?_, ?_, ?_⟩
  · rw [size_absorb, nodes_absorb, Array.toList_append, Array.toList_map]
    refine forall_mem_append.mpr ⟨fun n hn => ?_, forall_mem_map.mpr fun n hn => hmoved n (hg.node n hn)⟩
    obtain ⟨hchild, hparent, hdeclaration⟩ := hf.node n hn
    exact ⟨fun c hc => Nat.lt_add_right _ (hchild c hc), fun p hp => Nat.lt_add_right _ (hparent p hp),
      fun d hd => Nat.lt_add_right _ (hdeclaration d hd)⟩
  · rw [size_absorb, files_absorb]
    exact forall_mem_append.mpr ⟨fun file hfile => Nat.lt_add_right _ (hf.root file hfile),
      forall_mem_map.mpr fun file hfile => hlt (hg.root file hfile)⟩
  · rw [size_absorb, nameScopes_absorb hf.scope]
    exact forall_mem_append.mpr ⟨fun s hs => Nat.lt_add_right _ (hf.scope s hs),
      forall_mem_map.mpr fun s hs => hlt (hg.scope s (mem_of_mem_inEffect hs))⟩

/-- Moving twice is moving by both offsets. -/
theorem shiftNode_shiftNode (a b : Nat) (n : Node) : shiftNode a (shiftNode b n) = shiftNode (a + b) n := by
  have hmove : (· + a) ∘ (· + b) = fun id : Nat => id + (a + b) := by
    funext id
    simp only [Function.comp_apply]
    omega
  simp only [shiftNode, map_map, Option.map_map, hmove]

theorem absorb_assoc (hf : f.Contained) (hg : g.Contained) (h : Forest) :
    (f.absorb g).absorb h = f.absorb (g.absorb h) := by
  have hmoved : ∀ id, id + (f.size + g.size) = id + g.size + f.size := by
    intro id
    omega
  have hnodes : ((f.absorb g).absorb h).nodes = (f.absorb (g.absorb h)).nodes := by
    have hshift : shiftNode f.size ∘ shiftNode g.size = shiftNode (f.size + g.size) :=
      funext fun n => shiftNode_shiftNode f.size g.size n
    simp only [nodes_absorb, size_absorb, Array.map_append, Array.map_map, hshift, Array.append_assoc]
  have hfiles : ((f.absorb g).absorb h).files = (f.absorb (g.absorb h)).files := by
    simp only [files_absorb, size_absorb, map_append, map_map, Function.comp_def, hmoved, append_assoc]
  have hscopes : ((f.absorb g).absorb h).nameScopes = (f.absorb (g.absorb h)).nameScopes := by
    have hshift : shift f.size ∘ shift g.size = shift (f.size + g.size) := by
      funext s
      simp only [Function.comp_apply, shift, hmoved]
    rw [nameScopes_absorb (hf.absorb hg).scope, nameScopes_absorb hf.scope, nameScopes_absorb hf.scope,
      nameScopes_absorb hg.scope, inEffect_append_moved hg.scope, inEffect_of_nodup (nodup_inEffect h.nameScopes),
      map_append, map_map, hshift, size_absorb, append_assoc]
  exact Forest.ext hnodes hfiles hscopes

/-- Joining forests is a disjoint union, has no handle outside of the joined arena, and is associative. -/
theorem absorb_disjoint (hf : f.Contained) (hg : g.Contained) (h : Forest) :
    DisjointUnion f g (f.absorb g) ∧ (f.absorb g).Contained ∧ (f.absorb g).absorb h = f.absorb (g.absorb h) :=
  ⟨absorb_union hf, hf.absorb hg, absorb_assoc hf hg h⟩

/-- A file that declares an interface. -/
def oneInterface : Forest where
  nodes := #[{ kind := .file, children := [1] }, { kind := .interfaceDecl "Port", parent := some 0 }]
  files := [{ path := "port", root := 0 }]
  nameScopes := [{ node := 0, current := "App" }]

/-- A file with a trait that is referred to, and two scopes for the file. -/
def twoScopes : Forest where
  nodes := #[{ kind := .file, children := [1, 2] }, { kind := .traitDecl "Cart", parent := some 0 },
    { kind := .new, parent := some 0, declaration := some 1 }]
  files := [{ path := "cart", root := 0 }]
  nameScopes := [{ node := 0 }, { node := 0, current := "Shop" }]

theorem absorb_disjoint_twoScopes :
    (oneInterface.Contained ∧ twoScopes.Contained) ∧
      DisjointUnion oneInterface twoScopes (oneInterface.absorb twoScopes) ∧
      (oneInterface.absorb twoScopes).Contained ∧
      (oneInterface.absorb twoScopes).absorb oneInterface = oneInterface.absorb (twoScopes.absorb oneInterface) := by
  have hone : oneInterface.Contained := by decide
  have htwo : twoScopes.Contained := by decide
  exact ⟨⟨hone, htwo⟩, absorb_disjoint hone htwo oneInterface⟩

end Forest

end EventAtlas
