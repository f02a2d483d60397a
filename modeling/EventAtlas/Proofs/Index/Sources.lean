import EventAtlas.Proofs.Index.Table

/-!
# The order of sources

Positions in the arena, the unit that is kept among several of one name and the error that is reported first all depend
on the order in which files are read. Sources are therefore read in order of their paths. If the paths are distinct there
is only one such order, so the order in which the sources are given does not show in the answer
(`Index.ofSources_perm`): it is the index with the files in ascending order of their paths, or the error for the least
path whose source does not follow the grammar.
-/

namespace EventAtlas.Index

open List Forest

variable {sources first second : List (String × ByteArray)} {s : String × ByteArray} {path : String}

/-! ## One order -/

/-- The sources in ascending order of their paths. -/
def inOrder (sources : List (String × ByteArray)) : List (String × ByteArray) :=
  sources.mergeSort fun a b => a.1 ≤ b.1

theorem inOrder_perm (sources : List (String × ByteArray)) : (inOrder sources).Perm sources :=
  mergeSort_perm sources _

theorem inOrder_pairwise (sources : List (String × ByteArray)) : (inOrder sources).Pairwise fun a b => a.1 ≤ b.1 := by
  have hsorted : (inOrder sources).Pairwise fun a b => decide (a.1 ≤ b.1) = true := by
    apply pairwise_mergeSort
    · intro a b c hab hbc
      simp only [decide_eq_true_eq] at *
      exact String.le_trans hab hbc
    · intro a b
      simpa using String.le_total a.1 b.1
  simpa only [decide_eq_true_eq] using hsorted

/-- Sources with distinct paths have one order only. -/
theorem inOrder_eq_of_perm (h : first.Perm second) (hpaths : (first.map Prod.fst).Nodup) :
    inOrder first = inOrder second := by
  have hperm : (inOrder first).Perm (inOrder second) := (inOrder_perm first).trans (h.trans (inOrder_perm second).symm)
  apply List.Perm.eq_of_pairwise _ (inOrder_pairwise first) (inOrder_pairwise second) hperm
  intro a b ha hb hab hba
  have ha : a ∈ first := (inOrder_perm first).mem_iff.mp ha
  have hb : b ∈ first := (inOrder_perm first).mem_iff.mp (hperm.mem_iff.mpr hb)
  exact inj_on_of_nodup_map hpaths ha hb (String.le_antisymm hab hba)

/-! ## Reading one source after the other -/

/-- The source does not follow the grammar. -/
def isBroken (s : String × ByteArray) : Bool :=
  (ofSource? s.1 s.2).isNone

theorem exists_tree_of_not_isBroken (h : isBroken s = false) :
    ∃ tree, ofSource? s.1 s.2 = some (ofTree s.1 s.2 tree) := by
  unfold isBroken at h
  cases htree : Syntax.Tree.ofSource s.2 with
  | none =>
    rw [ofSource?, htree] at h
    cases h
  | some tree => exact ⟨tree, by rw [ofSource?, htree, Option.map_some]⟩

/-- Reading stops at the first source that does not follow the grammar. -/
theorem parseAll_of_find? (h : sources.find? isBroken = some s) : parseAll false sources = .error (.unparsable s.1) := by
  induction sources with
  | nil => cases h
  | cons t rest ih =>
    rw [find?_cons] at h
    cases ht : isBroken t with
    | true =>
      simp only [ht, Option.some.injEq] at h
      subst h
      simp [parseAll, Option.isNone_iff_eq_none.mp ht]
    | false =>
      obtain ⟨tree, htree⟩ := exists_tree_of_not_isBroken ht
      simp only [ht] at h
      simp only [parseAll, htree, ih h]
      rfl

/-- Sources that follow the grammar are read into the forests of their trees. -/
theorem exists_parseAll (h : ∀ s ∈ sources, isBroken s = false) :
    ∃ trees, parseAll false sources = .ok (forestsOf trees) ∧ trees.map Prod.fst = sources.map Prod.fst := by
  induction sources with
  | nil => exact ⟨[], rfl, rfl⟩
  | cons s rest ih =>
    obtain ⟨hs, hrest⟩ := forall_mem_cons.mp h
    obtain ⟨tree, htree⟩ := exists_tree_of_not_isBroken hs
    obtain ⟨trees, htrees, hpaths⟩ := ih hrest
    refine ⟨(s.1, s.2, tree) :: trees, ?_, by simp [hpaths]⟩
    simp only [parseAll, htree, htrees]
    rfl

/-! ## The files of an index -/

theorem paths_ofTree (path : String) (source : Syntax.Source) (tree : Syntax.Tree) :
    (ofTree path source tree).files.map SourceFile.path = [path] := by
  obtain ⟨g, n, hg, -, heq⟩ := exists_growing_ofTree path source tree
  rw [heq]
  simp [addFile, Forest.push, hg.files]

/-- The files of an index stand in the order in which their forests were joined. -/
theorem paths_of_ofForests {trees : List (String × Syntax.Source × Syntax.Tree)} {x : Index}
    (h : ofForests (forestsOf trees) = .ok x) : x.forest.files.map SourceFile.path = trees.map Prod.fst := by
  rw [(ofForests_built h).tree.files, joined_paths, forestsOf, flatMap_map]
  simp only [paths_ofTree]
  exact map_eq_flatMap.symm

/-! ## Any order -/

/-- The least path whose source does not follow the grammar. -/
structure LeastBroken (sources : List (String × ByteArray)) (path : String) : Prop where
  broken : ∃ s ∈ sources, s.1 = path ∧ isBroken s = true
  least : ∀ s ∈ sources, isBroken s = true → path ≤ s.1

theorem LeastBroken.unique {path' : String} (h : LeastBroken sources path) (h' : LeastBroken sources path') :
    path = path' := by
  obtain ⟨s, hs, rfl, hbroken⟩ := h.broken
  obtain ⟨t, ht, rfl, hbroken'⟩ := h'.broken
  exact String.le_antisymm (h.least t ht hbroken') (h'.least s hs hbroken)

theorem leastBroken_of_find? (h : (inOrder sources).find? isBroken = some s) : LeastBroken sources s.1 := by
  obtain ⟨hbroken, before, after, hsplit, hbefore⟩ := find?_eq_some_iff_append.mp h
  have hsorted := inOrder_pairwise sources
  rw [hsplit] at hsorted
  refine ⟨⟨s, (inOrder_perm sources).mem_iff.mp (mem_of_find?_eq_some h), rfl, hbroken⟩, ?_⟩
  intro t ht ht'
  have hmem : t ∈ before ++ s :: after := hsplit ▸ (inOrder_perm sources).mem_iff.mpr ht
  rcases mem_append.mp hmem with hmem | hmem
  · have hfine := hbefore t hmem
    simp [ht'] at hfine
  · rcases mem_cons.mp hmem with rfl | hmem
    · exact String.le_refl t.1
    · exact (pairwise_cons.mp (pairwise_append.mp hsorted).2.1).1 t hmem

/-- If a source does not follow the grammar, the answer is the error for the least such path. -/
theorem ofSources_of_leastBroken (h : LeastBroken sources path) : ofSources sources = .error (.unparsable path) := by
  cases hfind : (inOrder sources).find? isBroken with
  | none =>
    obtain ⟨s, hs, -, hbroken⟩ := h.broken
    exact absurd hbroken (find?_eq_none.mp hfind s ((inOrder_perm sources).mem_iff.mpr hs))
  | some s =>
    rw [h.unique (leastBroken_of_find? hfind)]
    show ofOrdered false (inOrder sources) = _
    rw [ofOrdered, parseAll_of_find? hfind]
    rfl

/-- If all sources follow the grammar, the answer is an index with one file for each, in order. -/
theorem exists_ofSources (h : ∀ s ∈ sources, isBroken s = false) : ∃ x, ofSources sources = .ok x ∧
    x.forest.files.map SourceFile.path = (inOrder sources).map Prod.fst := by
  have hfine : ∀ s ∈ inOrder sources, isBroken s = false := by
    intro s hs
    exact h s ((inOrder_perm sources).mem_iff.mp hs)
  obtain ⟨trees, htrees, hpaths⟩ := exists_parseAll hfine
  obtain ⟨x, hx⟩ := ofForests_forestsOf trees
  refine ⟨x, ?_, hpaths ▸ paths_of_ofForests hx⟩
  show ofOrdered false (inOrder sources) = _
  rw [ofOrdered, htrees]
  exact hx

theorem exists_leastBroken_or (sources : List (String × ByteArray)) :
    (∃ path, LeastBroken sources path) ∨ ∀ s ∈ sources, isBroken s = false := by
  cases hfind : (inOrder sources).find? isBroken with
  | some s => exact .inl ⟨s.1, leastBroken_of_find? hfind⟩
  | none =>
    refine .inr fun s hs => ?_
    simpa using find?_eq_none.mp hfind s ((inOrder_perm sources).mem_iff.mpr hs)

/-- The order in which sources with distinct paths are given does not matter: two orders give the same index, with all
its positions, or the same error. The error is for the least path whose source does not follow the grammar, if there is
one; otherwise the index has the files in ascending order of their paths. -/
theorem ofSources_perm (h : first.Perm second) (hpaths : (first.map Prod.fst).Nodup) :
    ofSources first = ofSources second ∧
    (∀ e, ofSources first = .error e ↔ ∃ path, e = .unparsable path ∧ LeastBroken first path) ∧
    ∀ x, ofSources first = .ok x → (x.forest.files.map SourceFile.path).Perm (second.map Prod.fst) ∧
      (x.forest.files.map SourceFile.path).Pairwise (· ≤ ·) := by
  have hsame : ofSources first = ofSources second := congrArg (ofOrdered false) (inOrder_eq_of_perm h hpaths)
  refine ⟨hsame, ?_, ?_⟩
  · intro e
    rcases exists_leastBroken_or first with ⟨path, hleast⟩ | hfine
    · rw [ofSources_of_leastBroken hleast, Except.error.injEq]
      constructor
      · intro he
        exact ⟨path, he.symm, hleast⟩
      · rintro ⟨path', rfl, hleast'⟩
        rw [hleast.unique hleast']
    · obtain ⟨x, hx, -⟩ := exists_ofSources hfine
      constructor
      · intro he
        cases hx.symm.trans he
      · rintro ⟨path, -, hleast⟩
        obtain ⟨s, hs, -, hbroken⟩ := hleast.broken
        simp [hfine s hs] at hbroken
  · intro x hx
    rcases exists_leastBroken_or first with ⟨path, hleast⟩ | hfine
    · cases (ofSources_of_leastBroken hleast).symm.trans hx
    · obtain ⟨y, hy, hfiles⟩ := exists_ofSources hfine
      obtain rfl := Except.ok.inj (hy.symm.trans hx)
      rw [hfiles]
      exact ⟨((inOrder_perm first).trans h).map Prod.fst, List.pairwise_map.mpr (inOrder_pairwise first)⟩

/-- Two sources that do not follow the grammar and one that does. -/
def twoBroken : List (String × ByteArray) :=
  [("b.php", "<?php class".toUTF8), ("c.php", "<?php class C \x7b\x7d".toUTF8), ("a.php", "<?php if (".toUTF8)]

theorem ofSources_perm_twoBroken : (twoBroken.map Prod.fst).Nodup ∧
    ofSources twoBroken = .error (.unparsable "a.php") ∧ ofSources twoBroken.reverse = .error (.unparsable "a.php") := by
  have hbroken : isBroken ("a.php", "<?php if (".toUTF8) = true := by decide +kernel
  have hpaths : (twoBroken.map Prod.fst).Nodup := by decide
  have hleast : LeastBroken twoBroken "a.php" := by
    refine ⟨⟨_, by simp [twoBroken], rfl, hbroken⟩, ?_⟩
    intro s hs _
    simp only [twoBroken, List.mem_cons, List.not_mem_nil, or_false] at hs
    rcases hs with rfl | rfl | rfl <;> decide
  obtain ⟨hsame, herror, -⟩ := ofSources_perm twoBroken.reverse_perm.symm hpaths
  have hfirst := (herror _).mpr ⟨"a.php", rfl, hleast⟩
  exact ⟨hpaths, hfirst, hsame ▸ hfirst⟩

end EventAtlas.Index
