import EventAtlas.Proofs.Forest.Requests

/-!
# Nodes of a syntax tree are made once

Each step of lowering takes over the nodes it is given and hands out others (`Adopts`), for any tree and any source. So
in the forest of a tree every child is older than its parent, no node has two parents, and the node of the file is the
last one (`Forest.ofTree_lowered`).
-/

namespace EventAtlas

namespace Lowering

open Syntax Forest

/-- A phrase makes its nodes out of nothing: all it asks for are phrases of fewer levels, which do so. -/
theorem lower_makes (src : Source) {n : Nat} {form : Form} {t : Tree} (ht : t.height ≤ n) :
    Makes (lower src n form t) := by
  induction n generalizing form t with
  | zero => exact absurd t.height_pos (Nat.not_lt.mpr ht)
  | succ n ih => exact (lower_step src ht).adopts fun _ _ hu => ih (Nat.le_of_lt_succ hu)

end Lowering

namespace Forest

open Syntax

/-- A forest as it is made for one file: children come before their parents, no node is a child twice, and the node of
the file is the last one. -/
structure Lowered (f : Forest) : Prop where
  child_lt : ∀ id, ∀ c ∈ f.children id, c < id
  nodup_children : (f.ids.flatMap f.children).Nodup
  kind_eq_file : ∀ id, f.kind id = .file ↔ id + 1 = f.size
  roots : ∃ root, f.roots = [root] ∧ root + 1 = f.size

variable (path : String) (src : Source) (t : Tree)

/-- The forest of a tree is a growing forest with the node of the file. -/
theorem exists_growing_ofTree :
    ∃ (g : Forest) (n : Node), Lowering.Growing g n.children ∧
      n = { kind := .file, span := n.span, children := n.children } ∧
      ofTree path src t = (g.push n).addFile ⟨path, Digest.sha256 src, g.size⟩ := by
  have hmakes : Lowering.Makes (Lowering.statementsOf src (Lowering.lower src t.height) t) :=
    (Lowering.statementsOf_step (Nat.le_refl _)).adopts fun _ _ hu => Lowering.lower_makes src (Nat.le_of_lt hu)
  have hgrown := hmakes {} [] .empty
  exact ⟨_, ⟨.file, Lowering.spanOf t.extent, _, none, none, none⟩, hgrown, rfl, rfl⟩

theorem ofTree_roots : ∃ root, (ofTree path src t).roots = [root] ∧ root + 1 = (ofTree path src t).size := by
  obtain ⟨g, n, hg, -, heq⟩ := exists_growing_ofTree path src t
  refine ⟨g.size, ?_, ?_⟩
  · rw [heq]
    simp [roots, addFile, Forest.push, hg.files]
  · rw [heq]
    exact (size_push g n).symm

theorem ofTree_orderly : Orderly (ofTree path src t) (ofTree path src t).roots := by
  obtain ⟨g, n, hg, -, heq⟩ := exists_growing_ofTree path src t
  have hroots : (ofTree path src t).roots = [g.size] := by
    rw [heq]
    simp [roots, addFile, Forest.push, hg.files]
  rw [hroots, heq]
  have hpush : Orderly (g.push n) ([] ++ [g.size]) := hg.orderly.push
  exact hpush.addFile _

theorem ofTree_unlinked : Unlinked (ofTree path src t) := by
  obtain ⟨g, n, hg, hn, heq⟩ := exists_growing_ofTree path src t
  have hpush : Unlinked (g.push n) := hg.unlinked.push (by rw [hn]) (by rw [hn]) (by rw [hn])
  rw [heq]
  exact hpush.addFile _

theorem ofTree_lowered : Lowered (ofTree path src t) := by
  have horderly := ofTree_orderly path src t
  refine ⟨horderly.child_lt, (List.nodup_append.mp horderly.nodup).1, fun id => ?_, ofTree_roots path src t⟩
  obtain ⟨g, n, hg, hn, heq⟩ := exists_growing_ofTree path src t
  have hsize : (ofTree path src t).size = g.size + 1 := by
    rw [heq]
    exact size_push g n
  have hkind : (ofTree path src t).kind id = if id = g.size then .file else g.kind id := by
    rw [heq]
    change ((g.push n).node id).kind = _
    rw [node_push, hn]
    split <;> rfl
  rw [hsize, hkind]
  by_cases hid : id = g.size
  · simp [hid]
  · simp [hid, hg.no_file id]

end Forest

end EventAtlas
