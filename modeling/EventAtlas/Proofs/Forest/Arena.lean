import EventAtlas.Forest.Arena
import Mathlib.Data.List.Nodup
import Mathlib.Data.List.Perm.Subperm

/-!
# Nodes of a changed forest

What is at a position after a node was added or changed and after two forests were joined. The linking passes change
one link of a node at a time; `SameTree` says that everything else is as it was, and whatever is computed from kinds,
children and files alone is then the same.
-/

namespace EventAtlas

open List

attribute [ext] Node

namespace Forest

variable {f g h : Forest} {id : NodeId} {n : Nat}

/-- The qualified name of a node, once linked. -/
def resolvedName (f : Forest) (id : NodeId) : Option String :=
  (f.node id).resolvedName

/-- The declaration that a node refers to, once linked. -/
def declaration (f : Forest) (id : NodeId) : Option NodeId :=
  (f.node id).declaration

/-- The roots of the files. -/
def roots (f : Forest) : List NodeId :=
  f.files.map SourceFile.root

theorem node_of_size_le (h : f.size ≤ id) : f.node id = {} := by
  simp only [node, size] at *
  rw [Array.getD_eq_getD_getElem?, Array.getElem?_eq_none h, Option.getD_none]

theorem lt_size_of_mem_children {c : NodeId} (h : c ∈ f.children id) : id < f.size := by
  by_contra hle
  simp [children, node_of_size_le (Nat.le_of_not_lt hle)] at h

/-! ## Adding a node -/

@[simp] theorem size_push (f : Forest) (n : Node) : (f.push n).size = f.size + 1 := by
  simp [push, size]

theorem node_push (f : Forest) (n : Node) (id : NodeId) :
    (f.push n).node id = if id = f.size then n else f.node id := by
  simp only [push, node, size, Array.getD_eq_getD_getElem?, Array.getElem?_push]
  split <;> rfl

@[simp] theorem ids_push (f : Forest) (n : Node) : (f.push n).ids = f.ids ++ [f.size] := by
  simp [ids, range_succ]

/-! ## Changing a node -/

@[simp] theorem size_modify (f : Forest) (id : NodeId) (change : Node → Node) : (f.modify id change).size = f.size := by
  simp [modify, size]

theorem node_modify (f : Forest) (id : NodeId) (change : Node → Node) (j : NodeId) :
    (f.modify id change).node j = if j = id ∧ id < f.size then change (f.node j) else f.node j := by
  by_cases hj : j < f.size
  · have hj' : j < f.nodes.size := hj
    have hm : j < (f.nodes.modify id change).size := by simpa using hj'
    simp only [modify, node, size, Array.getD_eq_getD_getElem?, Array.getElem?_eq_getElem hj',
      Array.getElem?_eq_getElem hm, Option.getD_some, Array.getElem_modify]
    by_cases h : id = j
    · simp [h, hj']
    · simp [h, Ne.symm h]
  · have hle : f.size ≤ j := Nat.le_of_not_lt hj
    rw [node_of_size_le hle, node_of_size_le (by simpa using hle), if_neg]
    rintro ⟨rfl, h⟩
    exact hj h

/-- A change that keeps a field of every node keeps it in the forest. -/
theorem field_modify {α : Type} (field : Node → α) (change : Node → Node) (h : ∀ n, field (change n) = field n)
    (f : Forest) (id j : NodeId) : field ((f.modify id change).node j) = field (f.node j) := by
  rw [node_modify]
  split
  · exact h _
  · rfl

/-! ## Joining forests -/

@[simp] theorem nodes_setNameScope (f : Forest) (s : NameScope) : (f.setNameScope s).nodes = f.nodes := by
  unfold setNameScope
  split <;> rfl

@[simp] theorem files_setNameScope (f : Forest) (s : NameScope) : (f.setNameScope s).files = f.files := by
  unfold setNameScope
  split <;> rfl

theorem nodes_absorb (f g : Forest) : (f.absorb g).nodes = f.nodes ++ g.nodes.map (shiftNode f.size) := by
  unfold absorb
  apply List.foldlRecOn (motive := fun k : Forest => k.nodes = _)
  · rfl
  · intro k hk s _
    rw [nodes_setNameScope, hk]

theorem files_absorb (f g : Forest) :
    (f.absorb g).files = f.files ++ g.files.map fun file => { file with root := file.root + f.size } := by
  unfold absorb
  apply List.foldlRecOn (motive := fun k : Forest => k.files = _)
  · rfl
  · intro k hk s _
    rw [files_setNameScope, hk]

@[simp] theorem size_absorb (f g : Forest) : (f.absorb g).size = f.size + g.size := by
  simp [size, nodes_absorb]

/-- A node of a joined forest is a node of the first one, or a moved node of the second one. -/
theorem node_absorb (f g : Forest) (id : NodeId) :
    (f.absorb g).node id = if id < f.size then f.node id else shiftNode f.size (g.node (id - f.size)) := by
  simp only [node, nodes_absorb, Array.getD_eq_getD_getElem?]
  by_cases h : id < f.size
  · rw [if_pos h, Array.getElem?_append_left h]
  · rw [if_neg h, Array.getElem?_append_right (Nat.le_of_not_lt h), Array.getElem?_map]
    change (Option.map _ g.nodes[id - f.size]?).getD _ = _
    cases g.nodes[id - f.size]? <;> rfl

theorem children_absorb_left (h : id < f.size) : (f.absorb g).children id = f.children id := by
  simp [children, node_absorb, h]

theorem children_absorb_right (f g : Forest) (id : NodeId) :
    (f.absorb g).children (f.size + id) = (g.children id).map (· + f.size) := by
  rw [children, node_absorb, if_neg (Nat.not_lt.mpr (Nat.le_add_right ..)), Nat.add_sub_cancel_left]
  rfl

/-! ## The same trees -/

/-- `g` is `f` up to what the linking passes write. -/
structure SameTree (f g : Forest) : Prop where
  size : g.size = f.size
  kind : g.kind = f.kind
  span : ∀ id, (g.node id).span = (f.node id).span
  children : g.children = f.children
  files : g.files = f.files

namespace SameTree

theorem refl (f : Forest) : SameTree f f := ⟨rfl, rfl, fun _ => rfl, rfl, rfl⟩

theorem trans (a : SameTree f g) (b : SameTree g h) : SameTree f h :=
  ⟨b.size.trans a.size, b.kind.trans a.kind, fun id => (b.span id).trans (a.span id),
    b.children.trans a.children, b.files.trans a.files⟩

/-- A change that keeps kinds, places and children keeps the trees. -/
theorem modify (f : Forest) (id : NodeId) {change : Node → Node} (hk : ∀ n, (change n).kind = n.kind)
    (hs : ∀ n, (change n).span = n.span) (hc : ∀ n, (change n).children = n.children) :
    SameTree f (f.modify id change) :=
  ⟨size_modify .., funext fun j => field_modify _ _ hk f id j, fun j => field_modify _ _ hs f id j,
    funext fun j => field_modify _ _ hc f id j, rfl⟩

theorem setNameScope (f : Forest) (s : NameScope) : SameTree f (f.setNameScope s) := by
  have hn : (f.setNameScope s).node = f.node := by
    funext id
    simp [node]
  refine ⟨?_, ?_, ?_, ?_, files_setNameScope f s⟩
  · simp [Forest.size]
  · simp only [funext_iff, Forest.kind, hn, implies_true]
  · simp only [hn, implies_true]
  · simp only [funext_iff, Forest.children, hn, implies_true]

theorem ids (a : SameTree f g) : g.ids = f.ids := by
  rw [Forest.ids, a.size, Forest.ids]

theorem descend (a : SameTree f g) : g.descend = f.descend := by
  funext n
  induction n with
  | zero => rfl
  | succ n ih =>
    funext id
    rw [Forest.descend, Forest.descend, a.children, ih]

theorem descendants (a : SameTree f g) : g.descendants = f.descendants := by
  funext id
  rw [Forest.descendants, Forest.descendants, a.descend, a.size]

end SameTree

/-- The trees are the same, and so are the links to parents. -/
structure SamePlaces (f g : Forest) : Prop extends SameTree f g where
  parent : g.parent = f.parent

namespace SamePlaces

variable (a : SamePlaces f g)
include a

theorem trans (b : SamePlaces g h) : SamePlaces f h :=
  ⟨a.toSameTree.trans b.toSameTree, b.parent.trans a.parent⟩

theorem climb : g.climb = f.climb := by
  funext n
  induction n with
  | zero => rfl
  | succ n ih =>
    funext id
    rw [Forest.climb, Forest.climb, a.parent, ih]

theorem lineage : g.lineage = f.lineage := by
  funext id
  rw [Forest.lineage, Forest.lineage, a.climb, a.size]

theorem enclosing? : g.enclosing? = f.enclosing? := by
  funext id p
  rw [Forest.enclosing?, Forest.enclosing?, ancestors, ancestors, a.lineage, a.kind]

theorem enclosingClass? : g.enclosingClass? = f.enclosingClass? := by
  funext id
  rw [Forest.enclosingClass?, a.enclosing?, Forest.enclosingClass?]

end SamePlaces

/-! ## What is below a node -/

theorem self_mem_descend (f : Forest) (n : Nat) (id : NodeId) : id ∈ f.descend (n + 1) id :=
  mem_cons_self

/-- What holds of a node and passes to children holds below the node. -/
@[elab_as_elim]
theorem descend_induction {motive : NodeId → Prop} {x : NodeId} (hself : motive id)
    (hchild : ∀ a, motive a → ∀ c ∈ f.children a, motive c) (hx : x ∈ f.descend n id) : motive x := by
  induction n generalizing id with
  | zero => cases hx
  | succ n ih =>
    obtain rfl | hx := mem_cons.mp hx
    · exact hself
    · obtain ⟨c, hc, hx⟩ := mem_flatMap.mp hx
      exact ih (hchild id hself c hc) hx

/-- What is below a node that is below `id` is below `id`, if the walk is deep enough. -/
theorem mem_descend_of_mem_children {x c : NodeId} (hx : x ∈ f.descend n id) (hc : c ∈ f.children x) :
    c ∈ f.descend (n + 1) id := by
  induction n generalizing id with
  | zero => cases hx
  | succ n ih =>
    obtain rfl | hx := mem_cons.mp hx
    · exact mem_cons_of_mem _ (mem_flatMap.mpr ⟨c, hc, self_mem_descend f n c⟩)
    · obtain ⟨b, hb, hx⟩ := mem_flatMap.mp hx
      exact mem_cons_of_mem _ (mem_flatMap.mpr ⟨b, hb, ih hx⟩)

/-- The walk from a node meets the ends of all branches within `n` levels. -/
def Fits (f : Forest) : Nat → NodeId → Prop
  | 0, _ => False
  | n + 1, id => ∀ c ∈ f.children id, f.Fits n c

theorem fits_congr (hc : g.children = f.children) (h : g.Fits n id) : f.Fits n id := by
  induction n generalizing id with
  | zero => exact h.elim
  | succ n ih => exact fun c hmem => ih (h c (hc ▸ hmem))

theorem Fits.succ (h : f.Fits n id) : f.Fits (n + 1) id := by
  induction n generalizing id with
  | zero => exact h.elim
  | succ n ih => exact fun c hc => ih (h c hc)

theorem Fits.mono {m : Nat} (h : f.Fits n id) (hle : n ≤ m) : f.Fits m id := by
  induction hle with
  | refl => exact h
  | step _ ih => exact ih.succ

/-- Deeper walks meet nothing more. -/
theorem Fits.descend_eq {m : Nat} (h : f.Fits n id) (hle : n ≤ m) : f.descend m id = f.descend n id := by
  induction n generalizing id m with
  | zero => exact h.elim
  | succ n ih =>
    obtain ⟨m, rfl⟩ := Nat.exists_eq_add_of_lt hle
    rw [show n + m + 1 = (n + m) + 1 from rfl, descend, descend]
    congr 1
    exact flatMap_congr fun c hc => ih (h c hc) (Nat.le_add_right n m)

theorem Fits.mem_descend_of_mem_children {x c : NodeId} (h : f.Fits n id) (hx : x ∈ f.descend n id)
    (hc : c ∈ f.children x) : c ∈ f.descend n id := by
  rw [← h.descend_eq (Nat.le_succ n)]
  exact Forest.mem_descend_of_mem_children hx hc

/-- A walk that is cut has met a node on every level. -/
theorem le_length_descend_of_not_fits (h : ¬ f.Fits n id) : n ≤ (f.descend n id).length := by
  induction n generalizing id with
  | zero => exact Nat.zero_le _
  | succ n ih =>
    obtain ⟨c, hc, hn⟩ : ∃ c ∈ f.children id, ¬ f.Fits n c := by simpa [Fits] using h
    obtain ⟨before, after, hs⟩ := append_of_mem hc
    have := ih hn
    simp only [descend, hs, flatMap_append, flatMap_cons, length_cons, length_append]
    omega

end Forest

end EventAtlas
