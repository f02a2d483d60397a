import EventAtlas.Link.Ancestry
import EventAtlas.Proofs.Forest.Growth
import Mathlib.Data.List.Perm.Basic

/-!
# Parents are linked exactly in trees

`attach` succeeds exactly if the walk below a node ends, meets no node twice and stays in the arena (`attach_ok`,
`attach_isOk`); what it writes is then determined: the children of every node it has met have that node as their parent,
and nothing else is changed. The same follows for all files of a forest (`linkParents_ok`, `linkParents_isOk`). A forest
in which children are older than their parents and no node has two of them can be linked (`Orderly.linkParents_isOk`).
-/

namespace EventAtlas

open List

namespace Forest

/-- Nothing but parents differs. -/
structure SameButParents (f g : Forest) : Prop where
  tree : SameTree f g
  resolvedName : g.resolvedName = f.resolvedName
  declaration : g.declaration = f.declaration
  nameScopes : g.nameScopes = f.nameScopes

namespace SameButParents

variable {f g h : Forest}

theorem refl (f : Forest) : SameButParents f f := ⟨.refl f, rfl, rfl, rfl⟩

theorem trans (a : SameButParents f g) (b : SameButParents g h) : SameButParents f h :=
  ⟨a.tree.trans b.tree, b.resolvedName.trans a.resolvedName, b.declaration.trans a.declaration,
    b.nameScopes.trans a.nameScopes⟩

theorem modify (f : Forest) (id : NodeId) (parent : Option NodeId) :
    SameButParents f (f.modify id fun n => { n with parent }) := by
  refine ⟨.modify f id (fun _ => rfl) (fun _ => rfl) (fun _ => rfl), ?_, ?_, rfl⟩
  · funext j
    exact field_modify Node.resolvedName (fun n => { n with parent }) (fun _ => rfl) f id j
  · funext j
    exact field_modify Node.declaration (fun n => { n with parent }) (fun _ => rfl) f id j

end SameButParents

/-- Every node below a file, file by file in source order. -/
def reached (f : Forest) : List NodeId :=
  f.roots.flatMap f.descendants

theorem reached_eq (f : Forest) : f.reached = f.files.flatMap fun file => f.descendants file.root := by
  rw [reached, roots, List.flatMap_map]

end Forest

namespace Ancestry

open Forest

variable {n : Nat} {root id : NodeId} {parent : Option NodeId} {p q r : Progress}

namespace Progress

/-- There is a mark for each node. -/
def Fair (p : Progress) : Prop :=
  p.met.size = p.forest.size

/-- A node of the arena that has not been met. -/
def Free (p : Progress) (id : NodeId) : Prop :=
  id < p.forest.size ∧ p.met.getD id false = false

theorem met_meet (p : Progress) (parent : Option NodeId) {id : NodeId} (hid : id < p.met.size) (x : NodeId) :
    (p.meet id parent).met.getD x false = true ↔ p.met.getD x false = true ∨ x = id := by
  simp only [meet, Array.getD_eq_getD_getElem?]
  by_cases hx : x < p.met.size
  · have hm : x < (p.met.modify id fun _ => true).size := by simpa using hx
    rw [Array.getElem?_eq_getElem hx, Array.getElem?_eq_getElem hm, Array.getElem_modify]
    by_cases h : id = x
    · simp [h]
    · simp [h, Ne.symm h]
  · have hne : x ≠ id := by
      rintro rfl
      exact hx hid
    rw [Array.getElem?_eq_none (Nat.le_of_not_lt hx), Array.getElem?_eq_none (by simpa using Nat.le_of_not_lt hx)]
    simp [hne]

theorem Fair.meet (h : p.Fair) (id : NodeId) (parent : Option NodeId) : (p.meet id parent).Fair := by
  simpa [Fair, Progress.meet] using h

theorem parent_meet (p : Progress) (parent : Option NodeId) {id : NodeId} (hid : id < p.forest.size) (x : NodeId) :
    (p.meet id parent).forest.parent x = if x = id then parent else p.forest.parent x := by
  simp only [meet, Forest.parent, node_modify, hid, and_true]
  split <;> rfl

end Progress

/-- What it means that the nodes `ids` were attached to `parent` and everything below to them: nothing was met twice,
and the parents were written. -/
structure Attached (n : Nat) (parent : Option NodeId) (ids : List NodeId) (p q : Progress) : Prop where
  same : SameButParents p.forest q.forest
  fair : q.Fair
  fits : ∀ id ∈ ids, p.forest.Fits n id
  nodup : (ids.flatMap (p.forest.descend n)).Nodup
  free : ∀ x ∈ ids.flatMap (p.forest.descend n), p.Free x
  met : ∀ x, q.met.getD x false = true ↔ p.met.getD x false = true ∨ x ∈ ids.flatMap (p.forest.descend n)
  parent_self : ∀ id ∈ ids, q.forest.parent id = parent
  parent_child : ∀ x ∈ ids.flatMap (p.forest.descend n), ∀ c ∈ p.forest.children x, q.forest.parent c = some x
  parent_other : ∀ x, x ∉ ids.flatMap (p.forest.descend n) → q.forest.parent x = p.forest.parent x

namespace Attached

variable {ids : List NodeId}

theorem nil (h : p.Fair) : Attached n parent [] p p :=
  ⟨.refl _, h, by simp, by simp, by simp, by simp, by simp, by simp, by simp⟩

/-- What was met once is not free any more. -/
theorem not_free (h : Attached n parent ids p q) {x : NodeId} (hx : x ∈ ids.flatMap (p.forest.descend n)) :
    ¬ q.Free x := by
  intro hfree
  have := (h.met x).mpr (.inr hx)
  simp [hfree.2] at this

/-- What is free later was free before. -/
theorem free_of_free (h : Attached n parent ids p q) {x : NodeId} (hx : q.Free x) : p.Free x := by
  refine ⟨h.same.tree.size ▸ hx.1, ?_⟩
  by_contra hmet
  have := (h.met x).mpr (.inl (by simpa using hmet))
  simp [hx.2] at this

theorem cons (ha : Attached n parent [id] p q) (hl : Attached n parent ids q r) :
    Attached n parent (id :: ids) p r := by
  have hsplit : (id :: ids).flatMap (p.forest.descend n) = p.forest.descend n id ++ ids.flatMap (p.forest.descend n) :=
    flatMap_cons
  have hone : [id].flatMap (p.forest.descend n) = p.forest.descend n id := flatMap_singleton ..
  obtain ⟨same, fair, fits, nodup, free, met, self, child, other⟩ := ha
  have hself : id ∈ p.forest.descend n id := by
    cases n with
    | zero => exact (fits id (by simp)).elim
    | succ n => exact self_mem_descend ..
  have hdisjoint : ∀ x ∈ p.forest.descend n id, x ∉ ids.flatMap (p.forest.descend n) := by
    intro x hx hmem
    refine not_free ⟨same, fair, fits, nodup, free, met, self, child, other⟩ (hone.symm ▸ hx) (hl.free x ?_)
    rwa [same.tree.descend]
  have hfree : ∀ x ∈ ids.flatMap (p.forest.descend n), p.Free x := by
    intro x hx
    refine free_of_free ⟨same, fair, fits, nodup, free, met, self, child, other⟩ (hl.free x ?_)
    rwa [same.tree.descend]
  obtain ⟨same', fair', fits', nodup', -, met', self', child', other'⟩ := hl
  simp only [same.tree.descend, same.tree.children] at fits' nodup' met' self' child' other'
  rw [hone] at nodup free met child other
  refine ⟨same.trans same', fair', ?_, ?_, ?_, ?_, ?_, ?_, ?_⟩
  · intro x hx
    obtain rfl | hx := mem_cons.mp hx
    · exact fits x (by simp)
    · exact fits_congr same.tree.children (fits' x hx)
  · rw [hsplit]
    exact nodup_append.mpr ⟨nodup, nodup', fun x hx y hy hxy => hdisjoint x hx (hxy ▸ hy)⟩
  · rw [hsplit]
    intro x hx
    obtain hx | hx := mem_append.mp hx
    · exact free x hx
    · exact hfree x hx
  · intro x
    rw [met', met, hsplit, mem_append, or_assoc]
  · intro x hx
    obtain rfl | hx := mem_cons.mp hx
    · rw [other' x (hdisjoint x hself)]
      exact self x (by simp)
    · exact self' x hx
  · rw [hsplit]
    intro x hx c hc
    obtain hx | hx := mem_append.mp hx
    · have hc' : c ∈ p.forest.descend n id := (fits id (by simp)).mem_descend_of_mem_children hx hc
      rw [other' c (hdisjoint c hc')]
      exact child x hx c hc
    · exact child' x hx c hc
  · rw [hsplit]
    intro x hx
    rw [mem_append, not_or] at hx
    rw [other' x hx.2, other x hx.1]

/-- A node is met, then its children are attached to it. -/
theorem node (hp : p.Fair) (hid : p.Free id)
    (h : Attached n (some id) (p.forest.children id) (p.meet id parent) q) : Attached (n + 1) parent [id] p q := by
  have hmet := p.met_meet parent (hp.symm ▸ hid.1)
  have htree : SameButParents p.forest (p.meet id parent).forest := .modify ..
  have hone : [id].flatMap (p.forest.descend (n + 1)) =
      id :: (p.forest.children id).flatMap (p.forest.descend n) := flatMap_singleton ..
  obtain ⟨same, fair, fits, nodup, free, met, self, child, other⟩ := h
  simp only [htree.tree.descend, htree.tree.children] at nodup free met child other
  have hfresh : id ∉ (p.forest.children id).flatMap (p.forest.descend n) := by
    intro hmem
    have := (hmet id).mpr (.inr rfl)
    simp [(free id hmem).2] at this
  refine ⟨htree.trans same, fair, ?_, ?_, ?_, ?_, ?_, ?_, ?_⟩
  · intro x hx
    rw [mem_singleton.mp hx]
    exact fun c hc => fits_congr htree.tree.children (fits c hc)
  · rw [hone]
    exact nodup_cons.mpr ⟨hfresh, nodup⟩
  · rw [hone]
    intro x hx
    obtain rfl | hx := mem_cons.mp hx
    · exact hid
    · refine ⟨htree.tree.size ▸ (free x hx).1, ?_⟩
      by_contra hx'
      have := (hmet x).mpr (.inl (by simpa using hx'))
      simp [(free x hx).2] at this
  · intro x
    rw [met, hmet, hone, mem_cons, or_assoc]
  · intro x hx
    rw [mem_singleton.mp hx, other id hfresh, p.parent_meet parent hid.1, if_pos rfl]
  · rw [hone]
    intro x hx c hc
    obtain rfl | hx := mem_cons.mp hx
    · exact self c hc
    · exact child x hx c hc
  · rw [hone]
    intro x hx
    rw [mem_cons, not_or] at hx
    rw [other x hx.2, p.parent_meet parent hid.1, if_neg hx.1]

end Attached

/-- Attaching nodes one after the other, if attaching one of them does what it should. -/
theorem attachAll_ok {α : Type} (roots ids : α → NodeId) (parent : Option NodeId)
    (hone : ∀ {a p q}, p.Fair → attach (roots a) n parent p (ids a) = .ok q → Attached n parent [ids a] p q)
    {l : List α} (hp : p.Fair) (h : l.foldlM (fun p a => attach (roots a) n parent p (ids a)) p = .ok q) :
    Attached n parent (l.map ids) p q := by
  induction l generalizing p with
  | nil =>
    cases h
    exact .nil hp
  | cons a rest ih =>
    rw [foldlM_cons] at h
    cases hfirst : attach (roots a) n parent p (ids a) with
    | error e =>
      rw [hfirst] at h
      cases h
    | ok first =>
      rw [hfirst] at h
      have hattached := hone hp hfirst
      exact hattached.cons (ih hattached.fair h)

/-- If attaching succeeds, the walk below the node met nothing twice and wrote all parents. -/
theorem attach_ok (hp : p.Fair) (h : attach root n parent p id = .ok q) : Attached n parent [id] p q := by
  induction n generalizing parent p id q with
  | zero => cases h
  | succ n ih =>
    unfold attach at h
    split at h
    · cases h
    · next hlt =>
      split at h
      · cases h
      · next hmet =>
        have hfree : p.Free id := ⟨hp ▸ Nat.lt_of_not_le hlt, by simpa using hmet⟩
        have hall := attachAll_ok (fun _ => root) (fun c => c) (some id) ih (hp.meet id parent) h
        rw [map_id'] at hall
        exact .node hp hfree hall

/-- Attaching nodes succeeds if attaching each of them does. -/
theorem attachAll_isOk {α : Type} (roots ids : α → NodeId) (parent : Option NodeId)
    (hone : ∀ {a p}, p.Fair → p.forest.Fits n (ids a) → (p.forest.descend n (ids a)).Nodup →
      (∀ x ∈ p.forest.descend n (ids a), p.Free x) → ∃ q, attach (roots a) n parent p (ids a) = .ok q)
    {l : List α} (hp : p.Fair) (hfits : ∀ a ∈ l, p.forest.Fits n (ids a))
    (hnodup : (l.flatMap fun a => p.forest.descend n (ids a)).Nodup)
    (hfree : ∀ x ∈ l.flatMap fun a => p.forest.descend n (ids a), p.Free x) :
    ∃ q, l.foldlM (fun p a => attach (roots a) n parent p (ids a)) p = .ok q := by
  induction l generalizing p with
  | nil => exact ⟨p, rfl⟩
  | cons a rest ih =>
    rw [flatMap_cons] at hnodup hfree
    obtain ⟨hnodup₁, hnodup₂, hdisjoint⟩ := nodup_append.mp hnodup
    obtain ⟨first, hfirst⟩ := hone hp (hfits a (by simp)) hnodup₁ fun x hx => hfree x (mem_append_left _ hx)
    have hattached := attach_ok hp hfirst
    have hsame : first.forest.descend = p.forest.descend := hattached.same.tree.descend
    obtain ⟨last, hlast⟩ := ih (p := first) hattached.fair
      (fun b hb => fits_congr hattached.same.tree.children.symm (hfits b (mem_cons_of_mem _ hb)))
      (by rwa [hsame]) (by
        rw [hsame]
        intro x hx
        have hfree := hfree x (mem_append_right _ hx)
        refine ⟨hattached.same.tree.size ▸ hfree.1, ?_⟩
        by_contra hmet
        obtain hmet | hmet := (hattached.met x).mp (by simpa using hmet)
        · simp [hfree.2] at hmet
        · rw [flatMap_singleton] at hmet
          exact hdisjoint x hmet x hx rfl)
    exact ⟨last, by rw [foldlM_cons, hfirst]; exact hlast⟩

/-- Attaching succeeds if the walk below the node ends and meets only free nodes, none of them twice. -/
theorem attach_isOk (hp : p.Fair) (hfits : p.forest.Fits n id) (hnodup : (p.forest.descend n id).Nodup)
    (hfree : ∀ x ∈ p.forest.descend n id, p.Free x) : ∃ q, attach root n parent p id = .ok q := by
  induction n generalizing parent p id with
  | zero => exact hfits.elim
  | succ n ih =>
    have hid := hfree id (self_mem_descend ..)
    have hsame : SameButParents p.forest (p.meet id parent).forest := .modify ..
    obtain ⟨hnew, hnodup⟩ := nodup_cons.mp hnodup
    unfold attach
    rw [if_neg (Nat.not_le.mpr (hp.symm ▸ hid.1)), if_neg (by simp [hid.2])]
    refine attachAll_isOk (fun _ => root) (fun c => c) (some id) ih (hp.meet id parent) ?_ ?_ ?_
    · exact fun c hc => fits_congr hsame.tree.children.symm (hfits c hc)
    · rwa [hsame.tree.descend]
    · rw [hsame.tree.descend]
      intro x hx
      have hx' := hfree x (mem_cons_of_mem _ hx)
      refine ⟨hsame.tree.size ▸ hx'.1, ?_⟩
      by_contra hmet
      obtain hmet | rfl := (p.met_meet parent (hp.symm ▸ hid.1) x).mp (by simpa using hmet)
      · simp [hx'.2] at hmet
      · exact hnew hx

end Ancestry

namespace Forest

open Ancestry

variable {f g : Forest}

/-- `g` is `f` with the parents of everything below its files, which are trees that share nothing. -/
structure ParentsLinked (f g : Forest) : Prop where
  same : SameButParents f g
  fits : ∀ root ∈ f.roots, f.Fits (f.size + 1) root
  nodup : f.reached.Nodup
  lt_size : ∀ id ∈ f.reached, id < f.size
  parent_root : ∀ root ∈ f.roots, g.parent root = none
  parent_child : ∀ id ∈ f.reached, ∀ c ∈ f.children id, g.parent c = some id
  parent_other : ∀ id, id ∉ f.reached → g.parent id = f.parent id

/-- The marks at the start of linking. -/
theorem start_free (f : Forest) (id : NodeId) (h : id < f.size) :
    Progress.Free ⟨f, Array.replicate f.size false⟩ id := by
  refine ⟨h, ?_⟩
  simp only [Array.getD_eq_getD_getElem?, Array.getElem?_replicate]
  split <;> rfl

theorem start_fair (f : Forest) : Progress.Fair ⟨f, Array.replicate f.size false⟩ := by
  simp [Progress.Fair]

theorem linkParents_ok (h : f.linkParents = .ok g) : f.ParentsLinked g := by
  simp only [linkParents, bind, Except.bind] at h
  split at h
  · cases h
  · next q hq =>
    obtain rfl : q.forest = g := Except.ok.inj h
    have hall := attachAll_ok SourceFile.root SourceFile.root none attach_ok (start_fair f) hq
    obtain ⟨same, -, fits, nodup, free, -, self, child, other⟩ := hall
    exact ⟨same, fits, nodup, fun id hid => (free id hid).1, self, child, other⟩

/-- A list of different nodes of the arena is not longer than the arena. -/
theorem length_le_size {l : List NodeId} (hnodup : l.Nodup) (hlt : ∀ id ∈ l, id < f.size) : l.length ≤ f.size := by
  have hsub : l ⊆ List.range f.size := fun id hid => mem_range.mpr (hlt id hid)
  simpa using (hnodup.subperm hsub).length_le

theorem linkParents_isOk (hnodup : f.reached.Nodup) (hlt : ∀ id ∈ f.reached, id < f.size) :
    ∃ g, f.linkParents = .ok g := by
  have hmem {file : SourceFile} (hfile : file ∈ f.files) : file.root ∈ f.roots := mem_map_of_mem hfile
  have hfits : ∀ file ∈ f.files, f.Fits (f.size + 1) file.root := by
    -- A walk that is cut has met more nodes than there are.
    intro file hfile
    by_contra hcut
    have hlong := le_length_descend_of_not_fits hcut
    have hnodup' := (nodup_flatMap.mp hnodup).1 _ (hmem hfile)
    have hshort := length_le_size hnodup' fun id hid => hlt id (mem_flatMap.mpr ⟨_, hmem hfile, hid⟩)
    exact absurd (Nat.le_trans hlong hshort) (Nat.not_succ_le_self _)
  have hflat : (f.files.flatMap fun file => f.descend (f.size + 1) file.root) = f.reached :=
    f.reached_eq.symm
  obtain ⟨q, hq⟩ := attachAll_isOk SourceFile.root SourceFile.root none attach_isOk (start_fair f)
    hfits (hflat ▸ hnodup) (fun id hid => start_free f id (hlt id (hflat ▸ hid)))
  refine ⟨q.forest, ?_⟩
  simp only [linkParents, hq]
  rfl

/-! ## Orderly forests -/

/-- What is below a child is the child of something that is as deep. -/
theorem exists_parent_of_mem_below {n : Nat} {id x : NodeId} (h : x ∈ (f.children id).flatMap (f.descend n)) :
    ∃ y ∈ f.descend n id, x ∈ f.children y := by
  induction n generalizing id with
  | zero => simp [descend] at h
  | succ n ih =>
    obtain ⟨c, hc, hx⟩ := mem_flatMap.mp h
    obtain rfl | hx := mem_cons.mp hx
    · exact ⟨id, self_mem_descend f n id, hc⟩
    · obtain ⟨y, hy, hxy⟩ := ih hx
      exact ⟨y, mem_cons_of_mem _ (mem_flatMap.mpr ⟨c, hc, hy⟩), hxy⟩

/-- Different nodes, none of which is below another. -/
structure Scattered (f : Forest) (l : List NodeId) : Prop where
  nodup : l.Nodup
  apart : ∀ x ∈ l, ∀ y ∈ l, ∀ n, x ∉ (f.children y).flatMap (f.descend n)

namespace Orderly

variable {loose : List NodeId}

section

variable (h : Orderly f loose)
include h

theorem le_of_mem_descend {n : Nat} {id x : NodeId} (hx : x ∈ f.descend n id) : x ≤ id :=
  descend_induction (Nat.le_refl id) (fun a ha c hc => Nat.le_trans (Nat.le_of_lt (h.child_lt a c hc)) ha) hx

/-- Loose nodes are children of nothing, so none of them is below another. -/
theorem scattered : f.Scattered loose := by
  obtain ⟨-, hnodup, hdisjoint⟩ := nodup_append.mp h.nodup
  refine ⟨hnodup, fun x hx y _ n hbelow => ?_⟩
  obtain ⟨z, -, hz⟩ := exists_parent_of_mem_below hbelow
  exact hdisjoint x (mem_flatMap_children hz) x hx rfl

/-- The children of scattered nodes are scattered. -/
theorem scattered_children {l : List NodeId} (hl : f.Scattered l) : f.Scattered (l.flatMap f.children) := by
  refine ⟨nodup_flatMap.mpr ⟨fun id hid => ?_, ?_⟩, ?_⟩
  · by_cases hlt : id < f.size
    · exact (nodup_flatMap.mp (nodup_append.mp h.nodup).1).1 id (mem_range.mpr hlt)
    · rw [children, node_of_size_le (Nat.le_of_not_lt hlt)]
      exact nodup_nil
  · exact hl.nodup.imp fun hne c ha hb => hne (h.parent_unique ha hb)
  · intro x hx y hy n hbelow
    obtain ⟨a, ha, hxa⟩ := mem_flatMap.mp hx
    obtain ⟨b, hb, hyb⟩ := mem_flatMap.mp hy
    obtain ⟨z, hz, hxz⟩ := exists_parent_of_mem_below hbelow
    obtain rfl := h.parent_unique hxa hxz
    exact hl.apart a ha b hb n (mem_flatMap.mpr ⟨y, hyb, hz⟩)

/-- The trees below scattered nodes share nothing: level by level, the nodes are scattered. -/
theorem nodup_descend (n : Nat) {l : List NodeId} (hl : f.Scattered l) : (l.flatMap (f.descend n)).Nodup := by
  induction n generalizing l with
  | zero =>
    rw [flatMap_eq_nil_iff.mpr fun id _ => (rfl : f.descend 0 id = [])]
    exact nodup_nil
  | succ n ih =>
    have hperm : (l ++ (l.flatMap f.children).flatMap (f.descend n)).Perm (l.flatMap (f.descend (n + 1))) := by
      have := flatMap_append_perm l (fun id => [id]) fun id => (f.children id).flatMap (f.descend n)
      rwa [flatMap_singleton', ← flatMap_assoc] at this
    refine hperm.nodup (nodup_append.mpr ⟨hl.nodup, ih (h.scattered_children hl), ?_⟩)
    rintro x hx y hy rfl
    obtain ⟨c, hc, hx'⟩ := mem_flatMap.mp hy
    obtain ⟨b, hb, hcb⟩ := mem_flatMap.mp hc
    exact hl.apart x hx b hb n (mem_flatMap.mpr ⟨c, hcb, hx'⟩)

end

/-- Linking an orderly forest succeeds. -/
theorem linkParents_isOk (h : Orderly f f.roots) : ∃ g, f.linkParents = .ok g := by
  refine Forest.linkParents_isOk (h.nodup_descend _ h.scattered) fun id hid => ?_
  obtain ⟨root, hroot, hid⟩ := mem_flatMap.mp hid
  exact Nat.lt_of_le_of_lt (h.le_of_mem_descend hid) (h.loose_lt root hroot)

end Orderly

end Forest

end EventAtlas
