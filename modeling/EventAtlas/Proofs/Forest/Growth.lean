import EventAtlas.Forest.Lowering
import EventAtlas.Proofs.Forest.Arena
import Mathlib.Data.List.Pairwise

/-!
# Forests that grow

While the nodes of a file are made, every node that has no parent yet is held by some caller. `Orderly f loose` says
that no node stands twice among the children of `f` and in `loose`, and that children are older than their parents.
What makes nodes takes over the loose nodes it was given and hands out others, whatever else is held (`Adopts`), and the
rules below put such steps together.
-/

namespace EventAtlas

open List

namespace Forest

variable {f g : Forest} {loose : List NodeId}

/-- Children are older than their parents. -/
def ChildrenOlder (f : Forest) : Prop :=
  ∀ id, ∀ c ∈ f.children id, c < id

namespace ChildrenOlder

theorem empty : ChildrenOlder {} :=
  fun id _ hc => absurd (lt_size_of_mem_children hc) (Nat.not_lt_zero id)

theorem absorb (hf : f.ChildrenOlder) (hg : g.ChildrenOlder) : (f.absorb g).ChildrenOlder := by
  intro id c hc
  by_cases hid : id < f.size
  · exact hf id c (children_absorb_left hid ▸ hc)
  · obtain ⟨k, rfl⟩ := Nat.exists_eq_add_of_le (Nat.le_of_not_lt hid)
    rw [children_absorb_right] at hc
    obtain ⟨d, hd, rfl⟩ := mem_map.mp hc
    rw [Nat.add_comm f.size]
    exact Nat.add_lt_add_right (hg k d hd) f.size

/-- A walk down is bounded by the position where it starts. -/
theorem fits (h : f.ChildrenOlder) (id : NodeId) : f.Fits (id + 1) id := by
  induction id using Nat.strongRecOn with
  | ind id ih => exact fun c hc => (ih c (h id c hc)).mono (h id c hc)

end ChildrenOlder

/-- Children are older than their parents, and no node occurs twice among all children and the nodes in `loose`. -/
structure Orderly (f : Forest) (loose : List NodeId) : Prop where
  child_lt : ∀ id, ∀ c ∈ f.children id, c < id
  loose_lt : ∀ id ∈ loose, id < f.size
  nodup : (f.ids.flatMap f.children ++ loose).Nodup

/-- No linking pass has written to a node. -/
structure Unlinked (f : Forest) : Prop where
  parent : ∀ id, f.parent id = none
  resolvedName : ∀ id, f.resolvedName id = none
  declaration : ∀ id, f.declaration id = none
  nameScopes : f.nameScopes = []

/-- Every child of a node is in the list of all children. -/
theorem mem_flatMap_children {id c : NodeId} (h : c ∈ f.children id) : c ∈ f.ids.flatMap f.children :=
  mem_flatMap.mpr ⟨id, mem_range.mpr (lt_size_of_mem_children h), h⟩

namespace Orderly

theorem sublist {l : List NodeId} (h : Orderly f loose) (hl : l.Sublist loose) : Orderly f l :=
  ⟨h.child_lt, fun id hid => h.loose_lt id (hl.subset hid),
    h.nodup.sublist (List.Sublist.append_left hl _)⟩

theorem empty : Orderly {} [] :=
  ⟨ChildrenOlder.empty, by simp, nodup_nil⟩

theorem addFile (h : Orderly f loose) (file : SourceFile) : Orderly (f.addFile file) loose :=
  ⟨h.child_lt, h.loose_lt, h.nodup⟩

theorem lt_size (h : Orderly f loose) : ∀ c ∈ f.ids.flatMap f.children ++ loose, c < f.size := by
  intro c hc
  obtain hc | hc := mem_append.mp hc
  · obtain ⟨id, hid, hc⟩ := mem_flatMap.mp hc
    exact Nat.lt_trans (h.child_lt id c hc) (mem_range.mp hid)
  · exact h.loose_lt c hc

/-- A new node takes over loose nodes and is loose itself. -/
theorem push {held : List NodeId} {n : Node} (h : Orderly f (held ++ n.children)) :
    Orderly (f.push n) (held ++ [f.size]) := by
  have hchildren : ∀ id ∈ f.ids, (f.push n).children id = f.children id := by
    intro id hid
    simp [children, node_push, Nat.ne_of_lt (mem_range.mp hid)]
  have hlast : (f.push n).children f.size = n.children := by simp [children, node_push]
  have hall : (f.push n).ids.flatMap (f.push n).children = f.ids.flatMap f.children ++ n.children := by
    rw [ids_push, flatMap_append, flatMap_congr hchildren]
    simp [hlast]
  refine ⟨?_, ?_, ?_⟩
  · intro id c hc
    by_cases hid : id = f.size
    · subst hid
      exact h.loose_lt c (mem_append_right _ (hlast ▸ hc))
    · refine h.child_lt id c ?_
      simpa [children, node_push, hid] using hc
  · intro id hid
    rw [size_push]
    obtain hid | hid := mem_append.mp hid
    · exact Nat.lt_succ_of_lt (h.loose_lt id (mem_append_left _ hid))
    · rw [mem_singleton.mp hid]
      exact Nat.lt_succ_self _
  · -- The same nodes as before and the new one, which is newer than all of them.
    have hperm : (f.size :: (f.ids.flatMap f.children ++ (held ++ n.children))).Perm
        ((f.push n).ids.flatMap (f.push n).children ++ (held ++ [f.size])) := by
      rw [hall, append_assoc, ← append_assoc n.children]
      refine (perm_append_singleton _ _).symm.trans ?_
      rw [append_assoc, append_assoc]
      refine List.Perm.append_left _ ?_
      rw [← append_assoc]
      exact List.Perm.append_right _ perm_append_comm
    refine hperm.nodup (nodup_cons.mpr ⟨fun hmem => ?_, h.nodup⟩)
    exact Nat.lt_irrefl _ (h.lt_size _ hmem)

/-- Joined forests keep apart. -/
theorem absorb {other : List NodeId} (hf : Orderly f loose) (hg : Orderly g other) :
    Orderly (f.absorb g) (loose ++ other.map (· + f.size)) := by
  have hids : (f.absorb g).ids = f.ids ++ g.ids.map (f.size + ·) := by
    rw [ids, size_absorb, range_add]
    rfl
  have hall : (f.absorb g).ids.flatMap (f.absorb g).children =
      f.ids.flatMap f.children ++ (g.ids.flatMap g.children).map (· + f.size) := by
    have hleft : ∀ id ∈ f.ids, (f.absorb g).children id = f.children id :=
      fun id hid => children_absorb_left (mem_range.mp hid)
    rw [hids, flatMap_append, flatMap_map, map_flatMap, flatMap_congr hleft]
    simp only [children_absorb_right]
  refine ⟨ChildrenOlder.absorb hf.child_lt hg.child_lt, ?_, ?_⟩
  · intro id hid
    rw [size_absorb]
    obtain hid | hid := mem_append.mp hid
    · exact Nat.lt_add_right _ (hf.loose_lt id hid)
    · obtain ⟨d, hd, rfl⟩ := mem_map.mp hid
      rw [Nat.add_comm f.size]
      exact Nat.add_lt_add_right (hg.loose_lt d hd) f.size
  · have hperm : ((f.ids.flatMap f.children ++ loose) ++ (g.ids.flatMap g.children ++ other).map (· + f.size)).Perm
        ((f.absorb g).ids.flatMap (f.absorb g).children ++ (loose ++ other.map (· + f.size))) := by
      rw [hall, map_append, append_assoc, append_assoc]
      refine List.Perm.append_left _ ?_
      rw [← append_assoc, ← append_assoc]
      exact List.Perm.append_right _ perm_append_comm
    refine hperm.nodup (nodup_append.mpr ⟨hf.nodup, ?_, ?_⟩)
    · exact hg.nodup.map fun a b hab => Nat.add_right_cancel hab
    · rintro a ha b hb rfl
      obtain ⟨d, -, rfl⟩ := mem_map.mp hb
      exact Nat.not_lt.mpr (Nat.le_add_left f.size d) (hf.lt_size _ ha)

/-- A node is a child of one node only. -/
theorem parent_unique (h : Orderly f loose) {a b c : NodeId} (ha : c ∈ f.children a) (hb : c ∈ f.children b) :
    a = b := by
  have hpair := (nodup_flatMap.mp (nodup_append.mp h.nodup).1).2
  by_contra hne
  have hmem : ∀ {x y}, y ∈ f.children x → x ∈ f.ids := fun hy => mem_range.mpr (lt_size_of_mem_children hy)
  have : Std.Symm (Function.onFun List.Disjoint f.children) := ⟨fun _ _ hd _ ha hb => hd hb ha⟩
  exact hpair.forall (hmem ha) (hmem hb) hne ha hb

end Orderly

namespace Unlinked

theorem empty : Unlinked {} :=
  ⟨fun _ => by simp [Forest.parent, node_of_size_le (f := {}) (Nat.zero_le _)],
    fun _ => by simp [Forest.resolvedName, node_of_size_le (f := {}) (Nat.zero_le _)],
    fun _ => by simp [Forest.declaration, node_of_size_le (f := {}) (Nat.zero_le _)], rfl⟩

theorem push {n : Node} (h : Unlinked f) (hp : n.parent = none) (hr : n.resolvedName = none)
    (hd : n.declaration = none) : Unlinked (f.push n) := by
  refine ⟨fun id => ?_, fun id => ?_, fun id => ?_, h.nameScopes⟩
  · rw [Forest.parent, node_push]
    split
    · exact hp
    · exact h.parent id
  · rw [Forest.resolvedName, node_push]
    split
    · exact hr
    · exact h.resolvedName id
  · rw [Forest.declaration, node_push]
    split
    · exact hd
    · exact h.declaration id

theorem addFile (h : Unlinked f) (file : SourceFile) : Unlinked (f.addFile file) :=
  ⟨h.parent, h.resolvedName, h.declaration, h.nameScopes⟩

theorem absorb (hf : Unlinked f) (hg : Unlinked g) : Unlinked (f.absorb g) := by
  refine ⟨fun id => ?_, fun id => ?_, fun id => ?_, ?_⟩
  · rw [Forest.parent, node_absorb]
    split
    · exact hf.parent id
    · exact (congrArg (Option.map (· + f.size)) (hg.parent (id - f.size)) :)
  · rw [Forest.resolvedName, node_absorb]
    split
    · exact hf.resolvedName id
    · exact hg.resolvedName (id - f.size)
  · rw [Forest.declaration, node_absorb]
    split
    · exact hf.declaration id
    · exact (congrArg (Option.map (· + f.size)) (hg.declaration (id - f.size)) :)
  · rw [Forest.absorb, hg.nameScopes]
    exact hf.nameScopes

end Unlinked

end Forest

namespace Lowering

open Forest Syntax

/-- A forest in the making: orderly, without links, and without the node of a file. -/
structure Growing (f : Forest) (loose : List NodeId) : Prop where
  orderly : Orderly f loose
  unlinked : Unlinked f
  no_file : ∀ id, f.kind id ≠ .file
  files : f.files = []

theorem Growing.empty : Growing {} [] := by
  refine ⟨.empty, .empty, fun id => ?_, rfl⟩
  rw [Forest.kind, node_of_size_le (Nat.zero_le id)]
  simp

/-- `m` takes over the nodes in `loose` and hands out its result, whatever else is held. -/
def Adopts (loose : List NodeId) (m : Build (List NodeId)) : Prop :=
  ∀ f held, Growing f (held ++ loose) → Growing (m.run f).2 (held ++ (m.run f).1)

/-- `m` makes nodes out of nothing. -/
abbrev Makes (m : Build (List NodeId)) : Prop :=
  Adopts [] m

section Rules

variable {loose ids children : List NodeId} {m : Build (List NodeId)} {k : List NodeId → Build (List NodeId)}

/-- Loose nodes may be handed out or dropped. -/
theorem adopts_pure (hs : ids.Sublist loose) : Adopts loose (pure ids) := by
  intro f held hf
  exact ⟨hf.orderly.sublist (List.Sublist.append_left hs _), hf.unlinked, hf.no_file, hf.files⟩

/-- First a step that needs nothing, then one that takes over what it has made. -/
theorem Adopts.bind (hm : Makes m) (hk : ∀ ids, Adopts (loose ++ ids) (k ids)) : Adopts loose (m >>= k) := by
  intro f held hf
  have hm := hm f (held ++ loose) (by simpa using hf)
  rw [append_assoc] at hm
  exact hk _ _ held hm

/-- First a step that takes over everything, then one that takes over what it hands out. -/
theorem Adopts.andThen (hm : Adopts loose m) (hk : ∀ ids, Adopts ids (k ids)) : Adopts loose (m >>= k) := by
  intro f held hf
  exact hk _ _ held (hm f held hf)

/-- A new node takes over its children. -/
theorem push_bind_adopts {kind : NodeKind} {e : Extent} {next : NodeId → Build (List NodeId)} (loose : List NodeId)
    (hk : kind ≠ .file) (hnext : ∀ id, Adopts (loose ++ [id]) (next id)) :
    Adopts (loose ++ children) (push kind e children >>= next) := by
  intro f held hf
  refine hnext f.size _ held ⟨?_, ?_, ?_, hf.files⟩
  · rw [← append_assoc] at hf ⊢
    exact hf.orderly.push
  · exact hf.unlinked.push rfl rfl rfl
  · intro id
    simp only [Forest.kind, node_push]
    split
    · exact hk
    · exact hf.no_file id

end Rules

end Lowering

end EventAtlas
