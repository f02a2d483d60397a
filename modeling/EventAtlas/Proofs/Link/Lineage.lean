import EventAtlas.Proofs.Link.Ancestry

/-!
# Upward walks in linked forests

Once parents are linked, an upward walk from a node below a file goes from each node to the one that has it as a child,
and ends at the root of the file before its bound is reached. So lineages, ancestors and the nearest node of a kind
around a node obey the equations that they have in a tree.
-/

namespace EventAtlas.Forest

open List

variable {f g : Forest} {id c x a : NodeId}

/-- The files are trees in the arena that share nothing, and every node below a file knows its parent. -/
structure Linked (f : Forest) : Prop where
  nodup : f.reached.Nodup
  lt_size : ∀ id ∈ f.reached, id < f.size
  parent_root : ∀ root ∈ f.roots, f.parent root = none
  parent_child : ∀ id ∈ f.reached, ∀ c ∈ f.children id, f.parent c = some id

theorem SameTree.roots (h : SameTree f g) : g.roots = f.roots := by
  rw [Forest.roots, h.files, Forest.roots]

theorem SameTree.reached (h : SameTree f g) : g.reached = f.reached := by
  rw [Forest.reached, h.roots, h.descendants, Forest.reached]

theorem ParentsLinked.linked (h : ParentsLinked f g) : Linked g := by
  have htree := h.same.tree
  refine ⟨?_, ?_, ?_, ?_⟩
  · rw [htree.reached]
    exact h.nodup
  · rw [htree.reached, htree.size]
    exact h.lt_size
  · rw [htree.roots]
    exact h.parent_root
  · rw [htree.reached, htree.children]
    exact h.parent_child

theorem root_mem_reached (h : id ∈ f.roots) : id ∈ f.reached :=
  mem_flatMap.mpr ⟨id, h, self_mem_descend ..⟩

/-- Nodes are different if what is below them is. -/
theorem nodup_of_flatMap_descendants {l : List NodeId} (h : (l.flatMap f.descendants).Nodup) : l.Nodup := by
  refine (nodup_flatMap.mp h).2.imp_of_mem fun {a b} _ _ hdisjoint heq => ?_
  exact hdisjoint (self_mem_descend ..) (heq ▸ self_mem_descend ..)

namespace Linked

variable (h : f.Linked)
include h

/-- What keeps trees and parents keeps a forest linked. -/
theorem congr (htree : SameTree f g) (hparent : g.parent = f.parent) : g.Linked := by
  refine ⟨?_, ?_, ?_, ?_⟩
  · rw [htree.reached]
    exact h.nodup
  · rw [htree.reached, htree.size]
    exact h.lt_size
  · rw [htree.roots, hparent]
    exact h.parent_root
  · rw [htree.reached, htree.children, hparent]
    exact h.parent_child

theorem fits_root (hid : id ∈ f.roots) : f.Fits (f.size + 1) id := by
  by_contra hcut
  have hnodup := (nodup_flatMap.mp h.nodup).1 id hid
  have hlt : ∀ x ∈ f.descendants id, x < f.size := fun x hx => h.lt_size x (mem_flatMap.mpr ⟨id, hid, hx⟩)
  exact absurd (Nat.le_trans (le_length_descend_of_not_fits hcut) (length_le_size hnodup hlt)) (Nat.not_succ_le_self _)

variable (hid : id ∈ f.reached)
include hid

theorem children_reached (hc : c ∈ f.children id) : c ∈ f.reached := by
  obtain ⟨root, hroot, hid⟩ := mem_flatMap.mp hid
  exact mem_flatMap.mpr ⟨root, hroot, (h.fits_root hroot).mem_descend_of_mem_children hid hc⟩

/-- What holds of a node below a file and passes to children holds below the node. -/
@[elab_as_elim]
theorem below_induction {motive : NodeId → Prop} {n : Nat} (hself : motive id)
    (hchild : ∀ a ∈ f.reached, motive a → ∀ c ∈ f.children a, motive c) (hx : x ∈ f.descend n id) : motive x := by
  have hall : x ∈ f.reached ∧ motive x :=
    descend_induction ⟨hid, hself⟩ (fun a ha c hc => ⟨h.children_reached ha.1 hc, hchild a ha.1 ha.2 c hc⟩) hx
  exact hall.2

omit hid in
/-- What holds of the roots and passes to children holds below all files. -/
@[elab_as_elim]
theorem reached_induction {motive : NodeId → Prop} (hroot : ∀ root ∈ f.roots, motive root)
    (hchild : ∀ id ∈ f.reached, motive id → ∀ c ∈ f.children id, motive c) (hid : id ∈ f.reached) : motive id := by
  obtain ⟨root, hr, hid⟩ := mem_flatMap.mp hid
  exact h.below_induction (root_mem_reached hr) (hroot root hr) hchild hid

/-- A node below a file that has a parent is a child of it. -/
theorem mem_children_of_parent (hp : f.parent id = some a) : a ∈ f.reached ∧ id ∈ f.children a := by
  revert hp
  refine h.reached_induction (fun root hroot hp => ?_) (fun b hb _ c hc hp => ?_) hid
  · cases (h.parent_root root hroot).symm.trans hp
  · obtain rfl := Option.some.inj ((h.parent_child b hb c hc).symm.trans hp)
    exact ⟨hb, hc⟩

theorem fits : f.Fits (f.size + 1) id := by
  refine h.reached_induction (fun root hr => h.fits_root hr) (fun a _ ha c hc => ?_) hid
  exact Fits.succ (ha c hc)

/-- A walk that ends meets everything below. -/
theorem descend_eq {n : Nat} (hn : f.Fits n id) : f.descend n id = f.descendants id := by
  obtain hle | hle := Nat.le_total n (f.size + 1)
  · exact (hn.descend_eq hle).symm
  · exact (h.fits hid).descend_eq hle

theorem descendants_eq : f.descendants id = id :: (f.children id).flatMap f.descendants := by
  rw [descendants, descend, List.cons.injEq]
  refine ⟨rfl, flatMap_congr fun c hc => ?_⟩
  exact h.descend_eq (h.children_reached hid hc) (h.fits hid c hc)

theorem descendants_reached (hx : x ∈ f.descendants id) : x ∈ f.reached :=
  descend_induction hid (fun _ ha _ hc => h.children_reached ha hc) hx

theorem descendants_nodup : (f.descendants id).Nodup := by
  refine h.reached_induction (fun root hroot => ?_) (fun a ha ih c hc => ?_) hid
  · exact (nodup_flatMap.mp h.nodup).1 root hroot
  · rw [h.descendants_eq ha, nodup_cons] at ih
    exact (nodup_flatMap.mp ih.2).1 c hc

theorem children_nodup : (f.children id).Nodup := by
  have hnodup := h.descendants_nodup hid
  rw [h.descendants_eq hid, nodup_cons] at hnodup
  exact nodup_of_flatMap_descendants hnodup.2

end Linked

/-! ## The bound of upward walks -/

/-- The upward walk from a node ends after `k` steps. -/
def Rooted (f : Forest) : Nat → NodeId → Prop
  | 0, id => f.parent id = none
  | k + 1, id => ∃ up, f.parent id = some up ∧ f.Rooted k up

theorem Rooted.climb_eq {k n : Nat} (h : f.Rooted k id) (hn : k < n) : f.climb n id = f.climb (k + 1) id := by
  induction k generalizing id n with
  | zero =>
    obtain ⟨n, rfl⟩ := Nat.exists_eq_add_of_lt hn
    have hp : f.parent id = none := h
    simp only [climb, hp]
  | succ k ih =>
    obtain ⟨m, rfl⟩ := Nat.exists_eq_add_of_lt hn
    obtain ⟨up, hp, hup⟩ := h
    rw [show k + 1 + m + 1 = (k + 1 + m) + 1 from rfl, climb, climb, hp]
    congr 1
    exact ih hup (by omega)

theorem Rooted.unique {k l : Nat} (hk : f.Rooted k id) (hl : f.Rooted l id) : k = l := by
  induction k generalizing id l with
  | zero =>
    cases l with
    | zero => rfl
    | succ l =>
      obtain ⟨up, hp, -⟩ := hl
      cases (show f.parent id = none from hk).symm.trans hp
  | succ k ih =>
    obtain ⟨up, hp, hup⟩ := hk
    cases l with
    | zero => cases hp.symm.trans (show f.parent id = none from hl)
    | succ l =>
      obtain ⟨up', hp', hup'⟩ := hl
      obtain rfl := Option.some.inj (hp.symm.trans hp')
      rw [ih hup hup']

/-- The way down to a node is a part of what the walk down meets. -/
theorem Rooted.below {k n : Nat} (hlink : f.Linked) (hid : id ∈ f.reached) (hk : f.Rooted k id)
    (hx : x ∈ f.descend n id) : ∃ l, f.Rooted (k + l) x ∧ l < (f.descend n id).length := by
  induction n generalizing id k with
  | zero => cases hx
  | succ n ih =>
    obtain rfl | hx := mem_cons.mp hx
    · exact ⟨0, hk, by simp [descend]⟩
    · obtain ⟨c, hc, hx⟩ := mem_flatMap.mp hx
      have hrooted : f.Rooted (k + 1) c := ⟨id, hlink.parent_child id hid c hc, hk⟩
      obtain ⟨l, hl, hlen⟩ := ih (hlink.children_reached hid hc) hrooted hx
      refine ⟨l + 1, ?_, ?_⟩
      · rwa [show k + (l + 1) = k + 1 + l by omega]
      · obtain ⟨before, after, hs⟩ := append_of_mem hc
        simp only [descend, hs, flatMap_append, flatMap_cons, length_cons, length_append]
        omega

namespace Linked

variable (h : f.Linked)
include h

theorem exists_rooted (hid : id ∈ f.reached) : ∃ k, f.Rooted k id ∧ k < f.size := by
  obtain ⟨root, hroot, hid⟩ := mem_flatMap.mp hid
  have hlt : ∀ x ∈ f.descendants root, x < f.size := fun x hx => h.lt_size x (mem_flatMap.mpr ⟨root, hroot, hx⟩)
  have hshort := length_le_size ((nodup_flatMap.mp h.nodup).1 root hroot) hlt
  have hrooted : f.Rooted 0 root := h.parent_root root hroot
  obtain ⟨k, hk, hlen⟩ := hrooted.below h (root_mem_reached hroot) hid
  rw [Nat.zero_add] at hk
  exact ⟨k, hk, Nat.lt_of_lt_of_le hlen hshort⟩

/-! ## Lineages -/

theorem lineage_root (hid : id ∈ f.roots) : f.lineage id = [id] := by
  rw [lineage, climb, h.parent_root id hid]

theorem lineage_child (hid : id ∈ f.reached) (hc : c ∈ f.children id) : f.lineage c = c :: f.lineage id := by
  obtain ⟨k, hk, hlt⟩ := h.exists_rooted hid
  rw [lineage, climb, h.parent_child id hid c hc]
  change c :: f.climb f.size id = c :: f.climb (f.size + 1) id
  rw [hk.climb_eq hlt, hk.climb_eq (Nat.lt_succ_of_lt hlt)]

theorem ancestors_root (hid : id ∈ f.roots) : f.ancestors id = [] := by
  rw [ancestors, h.lineage_root hid]
  rfl

theorem ancestors_child (hid : id ∈ f.reached) (hc : c ∈ f.children id) : f.ancestors c = f.lineage id := by
  rw [ancestors, h.lineage_child hid hc]
  rfl

omit h in
theorem lineage_eq_cons (f : Forest) (id : NodeId) : f.lineage id = id :: f.ancestors id := by
  rw [ancestors, lineage, climb]
  rfl

theorem lineage_subset (hid : id ∈ f.reached) : f.lineage id ⊆ f.reached := by
  refine h.reached_induction (fun root hroot => ?_) (fun a ha ih c hc => ?_) hid
  · rw [h.lineage_root hroot]
    exact cons_subset.mpr ⟨root_mem_reached hroot, nil_subset _⟩
  · rw [h.lineage_child ha hc]
    exact cons_subset.mpr ⟨h.children_reached ha hc, ih⟩

/-- The class around a node is a class-like below a file. -/
theorem enclosingClass?_reached (hid : id ∈ f.reached) (hc : f.enclosingClass? id = some c) :
    c ∈ f.reached ∧ (f.kind c).isClassLike = true := by
  have hclass := find?_some hc
  exact ⟨h.lineage_subset hid (mem_of_mem_drop (mem_of_find?_eq_some hc)), hclass⟩

/-- A node is below everything in its lineage. -/
theorem mem_descendants_of_mem_lineage (hx : x ∈ f.reached) (ha : a ∈ f.lineage x) : x ∈ f.descendants a := by
  revert ha
  refine h.reached_induction (fun root hroot ha => ?_) (fun b hb ih c hc ha => ?_) hx
  · rw [h.lineage_root hroot] at ha
    rw [mem_singleton.mp ha]
    exact self_mem_descend ..
  · rw [h.lineage_child hb hc] at ha
    obtain rfl | ha := mem_cons.mp ha
    · exact self_mem_descend ..
    · exact (h.fits (h.lineage_subset hb ha)).mem_descend_of_mem_children (ih ha) hc

/-- Everything above a node is in its lineage. -/
theorem mem_lineage_of_mem_descend {n : Nat} (ha : a ∈ f.reached) (hx : x ∈ f.descend n a) : a ∈ f.lineage x := by
  refine h.below_induction ha ?_ (fun b hb hab c hc => ?_) hx
  · rw [lineage_eq_cons]
    exact mem_cons_self
  · rw [h.lineage_child hb hc]
    exact mem_cons_of_mem c hab

/-- The ancestors of a node are nearer to the root than the node. -/
theorem exists_rooted_of_mem_lineage (hx : x ∈ f.reached) (ha : a ∈ f.lineage x) :
    ∀ k, f.Rooted k x → ∃ l ≤ k, f.Rooted l a := by
  revert ha
  refine h.reached_induction (fun root hroot ha k hk => ?_) (fun b hb ih c hc ha k hk => ?_) hx
  · rw [h.lineage_root hroot] at ha
    rw [mem_singleton.mp ha]
    exact ⟨k, Nat.le_refl k, hk⟩
  · rw [h.lineage_child hb hc] at ha
    obtain rfl | ha := mem_cons.mp ha
    · exact ⟨k, Nat.le_refl k, hk⟩
    · cases k with
      | zero => cases (show f.parent c = none from hk).symm.trans (h.parent_child b hb c hc)
      | succ k =>
        obtain ⟨up, hp, hup⟩ := hk
        obtain rfl := Option.some.inj (hp.symm.trans (h.parent_child b hb c hc))
        obtain ⟨l, hl, hl'⟩ := ih ha k hup
        exact ⟨l, Nat.le_succ_of_le hl, hl'⟩

theorem lineage_nodup (hid : id ∈ f.reached) : (f.lineage id).Nodup := by
  refine h.reached_induction (fun root hroot => ?_) (fun a ha ih c hc => ?_) hid
  · rw [h.lineage_root hroot]
    exact nodup_singleton root
  · rw [h.lineage_child ha hc]
    refine nodup_cons.mpr ⟨fun hmem => ?_, ih⟩
    obtain ⟨k, hk, -⟩ := h.exists_rooted ha
    obtain ⟨l, hl, hl'⟩ := h.exists_rooted_of_mem_lineage ha hmem k hk
    have hc' : f.Rooted (k + 1) c := ⟨a, h.parent_child a ha c hc, hk⟩
    have := hl'.unique hc'
    omega

/-- No node is below a child of something below it. -/
theorem not_mem_descendants_child {b : NodeId} (ha : a ∈ f.reached) (hb : b ∈ f.descendants a)
    (hc : c ∈ f.children b) : a ∉ f.descendants c := by
  intro hac
  have hreached := h.descendants_reached ha hb
  have hchild := h.children_reached hreached hc
  have hbelow : b ∈ f.descendants c :=
    descend_induction hac (fun _ hx _ hd => (h.fits hchild).mem_descend_of_mem_children hx hd) hb
  have hnodup := h.lineage_nodup hchild
  rw [h.lineage_child hreached hc] at hnodup
  exact (nodup_cons.mp hnodup).1 (h.mem_lineage_of_mem_descend hchild hbelow)

end Linked

end EventAtlas.Forest
