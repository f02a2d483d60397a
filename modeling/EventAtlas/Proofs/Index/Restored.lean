import EventAtlas.Proofs.Index.Snapshot
import EventAtlas.Proofs.Inference.Termination

/-!
# What a snapshot restores

Walks, look-ups and resolutions rely on a shape that building gives to an index: its handles stay in the arena, no node
is reached twice, and parents and children agree (`Index.Sound`). The snapshot of an index that was built restores an
index of that shape (`Index.exists_sound_of_saved`).

Reading itself looks at the form of a document only. A document that was not written for a built index can lack the
shape and is accepted all the same (`Index.ofJson_accepts_unsound`), even where building would refuse its forest.
-/

namespace EventAtlas

open Forest

namespace Index

variable {f : Forest} {x : Index}

/-- What walks, look-ups and resolutions rely on. -/
structure Sound (x : Index) : Prop where
  closed : x.Closed
  linked : x.forest.Linked
  parent_mem : ∀ id p, x.forest.parent id = some p → id ∈ x.forest.children p
  walks : x.forest.WalksEnd

/-- In an index of a forest without links, a node that has a parent is a child of it. -/
theorem Built.mem_children_of_parent (h : Built f x) (hunlinked : f.Unlinked) {id p : NodeId}
    (hp : x.forest.parent id = some p) : id ∈ x.forest.children p :=
  (h.linked.mem_children_of_parent (h.reached_of_parent hunlinked hp) hp).2

theorem Built.sound (h : Built f x) (horderly : f.Orderly f.roots) (hunlinked : f.Unlinked) : x.Sound where
  closed := h.closed horderly hunlinked
  linked := h.linked
  parent_mem _ _ hp := h.mem_children_of_parent hunlinked hp
  walks := h.walksEnd hunlinked horderly.child_lt

/-- Reading the snapshot of an index that was built from sources gives a sound index. -/
theorem exists_sound_of_saved {sources : List (String × Syntax.Source × Syntax.Tree)}
    (h : ofForests (forestsOf sources) = .ok x) (hstorable : (joined (forestsOf sources)).Storable)
    (hsize : (joined (forestsOf sources)).size ≤ 2 ^ 32) : ∃ y, ofJson x.toJson = .ok y ∧ y.Sound := by
  have hbuilt := ofForests_built h
  have hunits : ∀ u ∈ x.units, u.node < 2 ^ 32 := by
    intro u hu
    exact Nat.lt_of_lt_of_le (hbuilt.tree.size ▸ hbuilt.unit_lt_size hu) hsize
  refine ⟨x, ofJson_toJson hunits (hbuilt.storable hstorable hsize), ?_⟩
  exact hbuilt.sound (joined_orderly orderly_of_mem_forestsOf) (joined_unlinked unlinked_of_mem_forestsOf)

/-- A class with a method, and a class that extends it. -/
def twoClasses : List (String × String) :=
  [("a.php", "<?php\nclass A \x7b function f(): self \x7b return new B; \x7d \x7d\n"),
    ("b.php", "<?php\nclass B extends A \x7b\x7d\n")]

theorem exists_sound_of_saved_twoClasses :
    (ofPrograms twoClasses).units.map ClassUnit.fqn = ["A", "B"] ∧
      ∃ y, ofJson (ofPrograms twoClasses).toJson = .ok y ∧ y.Sound := by
  have hfacts : (ofPrograms twoClasses).units.map ClassUnit.fqn = ["A", "B"] ∧
      (joined (forestsOf (sourcesOf twoClasses))).Storable ∧
      (joined (forestsOf (sourcesOf twoClasses))).size ≤ 2 ^ 32 := by
    decide +kernel
  exact ⟨hfacts.1, exists_sound_of_saved (ofForests_ofPrograms twoClasses) hfacts.2.1 hfacts.2.2⟩

/-! ## Documents that no index was saved to -/

/-- Two blocks of a file with one statement in both. -/
def sharedStatement : Index where
  units := []
  forest := {
    nodes := #[{ kind := .returnStmt, span := ⟨8, 15, 2⟩, parent := some 1 },
      { kind := .block, span := ⟨6, 17, 2⟩, children := [0], parent := some 3 },
      { kind := .block, span := ⟨6, 17, 2⟩, children := [0], parent := some 3 },
      { kind := .file, span := ⟨0, 18, 1⟩, children := [1, 2] }]
    files := [{ path := "a.php", contentHash := "00", root := 3 }] }

/-- A class whose node is not in the arena. -/
def lostClass : Index where
  units := [{ fqn := "A", kind := .classUnit, node := 7, file := "a.php" }]
  forest := {}

/-- Reading accepts an index that reaches a node twice, although building refuses its forest, and one with a unit
outside of the arena. -/
theorem ofJson_accepts_unsound :
    (ofJson sharedStatement.toJson = .ok sharedStatement ∧
      sharedStatement.forest.linkParents = .error (.sharedChild 0) ∧ ¬ sharedStatement.Sound) ∧
    (ofJson lostClass.toJson = .ok lostClass ∧ ¬ lostClass.Sound) := by
  have hshared : (sharedStatement.forest.Storable ∧ ∀ u ∈ sharedStatement.units, u.node < 2 ^ 32) ∧
      ¬ sharedStatement.forest.reached.Nodup := by
    decide +kernel
  have hlost : (lostClass.forest.Storable ∧ ∀ u ∈ lostClass.units, u.node < 2 ^ 32) ∧
      ¬ ∀ u ∈ lostClass.units, u.node < lostClass.forest.size := by
    decide +kernel
  refine ⟨⟨ofJson_toJson hshared.1.2 hshared.1.1, rfl, ?_⟩, ofJson_toJson hlost.1.2 hlost.1.1, ?_⟩
  · intro h
    exact hshared.2 h.linked.nodup
  · intro h
    exact hlost.2 h.closed.unit

end Index

end EventAtlas
