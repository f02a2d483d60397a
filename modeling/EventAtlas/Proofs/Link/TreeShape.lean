import EventAtlas.Proofs.Link.Lineage

/-!
# Linking decides whether files are trees

The lists of children of a forest may hold anything: handles that are no node, nodes that stand in two lists, cycles. A
way down is a list of positions among children, so how often a node is reached can be said without a walk and without a
bound: `TreeShaped` says that every way from a file stays in the arena and that no two ways meet.

`Ancestry.Works` is linking as a machine with a list of frames to work off and the ancestry of the node at hand, which
no bound stops. It comes to an end on every forest, with the result of `linkParents` (`Ancestry.works_of_attach`), and
that result is a forest exactly if the files are tree-shaped (`treeShaped_iff`). Then parents, upward walks and files
are those of the trees, and nothing else is changed.
-/

namespace EventAtlas

open List

/-- No value comes up twice: neither in the list of one place nor in the lists of two places. -/
theorem nodup_flatMap_iff_getElem? {α β : Type} {g : α → List β} {l : List α} :
    (l.flatMap g).Nodup ↔ (∀ a ∈ l, (g a).Nodup) ∧
      ∀ (i j : Nat) (a b : α) (x : β), l[i]? = some a → l[j]? = some b → x ∈ g a → x ∈ g b → i = j := by
  rw [nodup_flatMap, pairwise_iff_getElem]
  refine and_congr_right fun _ => ⟨fun h i j a b x ha hb hxa hxb => ?_, fun h i j hi hj hlt x hxa hxb => ?_⟩
  · obtain ⟨hi, rfl⟩ := List.getElem?_eq_some_iff.mp ha
    obtain ⟨hj, rfl⟩ := List.getElem?_eq_some_iff.mp hb
    obtain hlt | heq | hgt := Nat.lt_trichotomy i j
    · exact (h i j hi hj hlt hxa hxb).elim
    · exact heq
    · exact (h j i hj hi hgt hxb hxa).elim
  · exact absurd (h i j _ _ x (getElem?_eq_getElem hi) (getElem?_eq_getElem hj) hxa hxb) (Nat.ne_of_lt hlt)

namespace Forest

variable {f g : Forest} {id x : NodeId} {way way' : List Nat}

/-! ## Ways down -/

/-- The node to which a way leads: at each step, to the child at a position. -/
def follow? (f : Forest) : List Nat → NodeId → Option NodeId
  | [], id => some id
  | k :: way, id => (f.children id)[k]?.bind (f.follow? way)

/-- The node to which a way from the root of a file leads; files go by their position. -/
def arrive? (f : Forest) (i : Nat) (way : List Nat) : Option NodeId :=
  f.roots[i]?.bind (f.follow? way)

/-- Some way from a file leads to the handle. -/
def Reachable (f : Forest) (id : NodeId) : Prop :=
  ∃ i way, f.arrive? i way = some id

/-- The files are trees that share nothing: every handle below a file is a node, and no node is reached twice. -/
structure TreeShaped (f : Forest) : Prop where
  inside : ∀ id, f.Reachable id → id < f.size
  once : ∀ i way j way' id, f.arrive? i way = some id → f.arrive? j way' = some id → i = j ∧ way = way'

theorem follow?_cons {k : Nat} :
    f.follow? (k :: way) id = some x ↔ ∃ c, (f.children id)[k]? = some c ∧ f.follow? way c = some x :=
  Option.bind_eq_some_iff

theorem arrive?_eq_some {i : Nat} :
    f.arrive? i way = some x ↔ ∃ root, f.roots[i]? = some root ∧ f.follow? way root = some x :=
  Option.bind_eq_some_iff

theorem follow?_append : f.follow? (way ++ way') id = (f.follow? way id).bind (f.follow? way') := by
  induction way generalizing id with
  | nil => rfl
  | cons k way ih =>
    rw [cons_append, follow?, follow?, Option.bind_assoc]
    exact Option.bind_congr fun c _ => ih

theorem arrive?_append {i : Nat} (h : f.arrive? i way = some id) (hway : f.follow? way' id = some x) :
    f.arrive? i (way ++ way') = some x := by
  obtain ⟨root, hroot, hid⟩ := arrive?_eq_some.mp h
  refine arrive?_eq_some.mpr ⟨root, hroot, ?_⟩
  rw [follow?_append, hid]
  exact hway

/-- A walk of `n` levels meets what is at the end of a way of less than `n` steps. -/
theorem mem_descend_iff_follow? {n : Nat} :
    x ∈ f.descend n id ↔ ∃ way : List Nat, way.length < n ∧ f.follow? way id = some x := by
  induction n generalizing id with
  | zero => simp [descend]
  | succ n ih =>
    rw [descend, mem_cons, mem_flatMap]
    constructor
    · rintro (rfl | ⟨c, hc, hx⟩)
      · exact ⟨[], Nat.succ_pos n, rfl⟩
      · obtain ⟨k, hk⟩ := mem_iff_getElem?.mp hc
        obtain ⟨way, hlen, hway⟩ := ih.mp hx
        exact ⟨k :: way, Nat.succ_lt_succ hlen, follow?_cons.mpr ⟨c, hk, hway⟩⟩
    · rintro ⟨way, hlen, hway⟩
      cases way with
      | nil => exact .inl (Option.some.inj hway).symm
      | cons k way =>
        obtain ⟨c, hk, hway⟩ := follow?_cons.mp hway
        exact .inr ⟨c, mem_of_getElem? hk, ih.mpr ⟨way, Nat.lt_of_succ_lt_succ hlen, hway⟩⟩

/-- Where no two ways meet, a walk meets nothing twice. -/
theorem nodup_descend_of_once {n : Nat}
    (h : ∀ way way' x, f.follow? way id = some x → f.follow? way' id = some x → way = way') :
    (f.descend n id).Nodup := by
  induction n generalizing id with
  | zero => exact nodup_nil
  | succ n ih =>
    have hdown : ∀ {k : Nat} {c x : NodeId} {way : List Nat}, (f.children id)[k]? = some c →
        f.follow? way c = some x → f.follow? (k :: way) id = some x := fun hk hway => follow?_cons.mpr ⟨_, hk, hway⟩
    refine nodup_cons.mpr ⟨fun hmem => ?_, nodup_flatMap_iff_getElem?.mpr ⟨fun c hc => ?_, ?_⟩⟩
    · obtain ⟨c, hc, hx⟩ := mem_flatMap.mp hmem
      obtain ⟨k, hk⟩ := mem_iff_getElem?.mp hc
      obtain ⟨way, -, hway⟩ := mem_descend_iff_follow?.mp hx
      cases h (k :: way) [] id (hdown hk hway) rfl
    · obtain ⟨k, hk⟩ := mem_iff_getElem?.mp hc
      exact ih fun way way' x hway hway' => (List.cons.inj (h _ _ x (hdown hk hway) (hdown hk hway'))).2
    · intro i j c d x hi hj hc hd
      obtain ⟨way, -, hway⟩ := mem_descend_iff_follow?.mp hc
      obtain ⟨way', -, hway'⟩ := mem_descend_iff_follow?.mp hd
      exact (List.cons.inj (h _ _ x (hdown hi hway) (hdown hj hway'))).1

theorem Fits.mem_descend_of_follow? {n : Nat} (h : f.Fits n id) (hway : f.follow? way id = some x) :
    x ∈ f.descend n id := by
  rw [← h.descend_eq (Nat.le_max_left n (way.length + 1))]
  exact mem_descend_iff_follow?.mpr ⟨way, Nat.lt_of_succ_le (Nat.le_max_right ..), hway⟩

/-- Where a walk ends and meets nothing twice, no two ways meet. -/
theorem Fits.follow?_unique {n : Nat} (h : f.Fits n id) (hnodup : (f.descend n id).Nodup)
    (hway : f.follow? way id = some x) (hway' : f.follow? way' id = some x) : way = way' := by
  induction n generalizing id way way' with
  | zero => exact h.elim
  | succ n ih =>
    obtain ⟨hfresh, hnodup⟩ := nodup_cons.mp hnodup
    have hbelow : ∀ {k : Nat} {way : List Nat}, f.follow? (k :: way) id = some x →
        ∃ c, (f.children id)[k]? = some c ∧ f.follow? way c = some x ∧ x ∈ f.descend n c := by
      intro k way hway
      obtain ⟨c, hk, hway⟩ := follow?_cons.mp hway
      exact ⟨c, hk, hway, (h c (mem_of_getElem? hk)).mem_descend_of_follow? hway⟩
    have hlonger : ∀ {k : Nat} {way : List Nat}, f.follow? (k :: way) id = some x → x ≠ id := by
      rintro k way hway rfl
      obtain ⟨c, hk, -, hx⟩ := hbelow hway
      exact hfresh (mem_flatMap.mpr ⟨c, mem_of_getElem? hk, hx⟩)
    cases way with
    | nil =>
      cases way' with
      | nil => rfl
      | cons k way' => exact absurd (Option.some.inj hway).symm (hlonger hway')
    | cons k way =>
      cases way' with
      | nil => exact absurd (Option.some.inj hway').symm (hlonger hway)
      | cons l way' =>
        obtain ⟨c, hk, hway, hc⟩ := hbelow hway
        obtain ⟨d, hl, hway', hd⟩ := hbelow hway'
        obtain ⟨hone, hapart⟩ := nodup_flatMap_iff_getElem?.mp hnodup
        obtain rfl := hapart k l c d x hk hl hc hd
        obtain rfl := Option.some.inj (hk.symm.trans hl)
        have hmem := mem_of_getElem? hk
        rw [ih (h c hmem) (hone c hmem) hway hway']

/-- The walk below a root goes along ways from its file. -/
theorem exists_way_of_mem_descendants {i : Nat} {root : NodeId} (hi : f.roots[i]? = some root)
    (hx : x ∈ f.descendants root) : ∃ way, f.arrive? i way = some x := by
  obtain ⟨way, -, hway⟩ := mem_descend_iff_follow?.mp hx
  exact ⟨way, arrive?_eq_some.mpr ⟨root, hi, hway⟩⟩

theorem reachable_of_mem_reached (hx : x ∈ f.reached) : f.Reachable x := by
  obtain ⟨root, hroot, hx⟩ := mem_flatMap.mp hx
  obtain ⟨i, hi⟩ := mem_iff_getElem?.mp hroot
  exact ⟨i, exists_way_of_mem_descendants hi hx⟩

theorem mem_reached_of_reachable (hfits : ∀ root ∈ f.roots, f.Fits (f.size + 1) root) (hx : f.Reachable x) :
    x ∈ f.reached := by
  obtain ⟨i, way, hway⟩ := hx
  obtain ⟨root, hi, hway⟩ := arrive?_eq_some.mp hway
  have hroot := mem_of_getElem? hi
  exact mem_flatMap.mpr ⟨root, hroot, (hfits root hroot).mem_descend_of_follow? hway⟩

/-- Ways and walks agree on what tree-shaped files are. -/
theorem treeShaped_iff : f.TreeShaped ↔ f.reached.Nodup ∧ ∀ id ∈ f.reached, id < f.size := by
  constructor
  · intro h
    refine ⟨nodup_flatMap_iff_getElem?.mpr ⟨fun root hroot => ?_, ?_⟩, fun x hx => ?_⟩
    · obtain ⟨i, hi⟩ := mem_iff_getElem?.mp hroot
      exact nodup_descend_of_once fun way way' x hway hway' =>
        (h.once i way i way' x (arrive?_eq_some.mpr ⟨root, hi, hway⟩) (arrive?_eq_some.mpr ⟨root, hi, hway'⟩)).2
    · intro i j a b x ha hb hxa hxb
      obtain ⟨way, hway⟩ := exists_way_of_mem_descendants ha hxa
      obtain ⟨way', hway'⟩ := exists_way_of_mem_descendants hb hxb
      exact (h.once i way j way' x hway hway').1
    · exact h.inside x (reachable_of_mem_reached hx)
  · rintro ⟨hnodup, hlt⟩
    obtain ⟨g, hg⟩ := linkParents_isOk hnodup hlt
    have hfits := (linkParents_ok hg).fits
    obtain ⟨hone, hapart⟩ := nodup_flatMap_iff_getElem?.mp hnodup
    refine ⟨fun x hx => hlt x (mem_reached_of_reachable hfits hx), ?_⟩
    intro i way j way' x hway hway'
    obtain ⟨a, ha, hway⟩ := arrive?_eq_some.mp hway
    obtain ⟨b, hb, hway'⟩ := arrive?_eq_some.mp hway'
    have hrootA := mem_of_getElem? ha
    have hrootB := mem_of_getElem? hb
    obtain rfl := hapart i j a b x ha hb ((hfits a hrootA).mem_descend_of_follow? hway)
      ((hfits b hrootB).mem_descend_of_follow? hway')
    obtain rfl := Option.some.inj (ha.symm.trans hb)
    exact ⟨rfl, (hfits a hrootA).follow?_unique (hone a hrootA) hway hway'⟩

end Forest

/-! ## Linking as a machine -/

namespace Ancestry

open Forest

/-- One thing to do. -/
inductive Frame where
  | enter (id : NodeId)
  | leave

variable {n : Nat} {root id : NodeId} {p q : Progress} {work : List Frame} {ancestry : List NodeId}
  {r r' : Except LinkError Progress}

/-- Working off the frames comes to an end with this result. A node that is entered is attached to the innermost node of
the ancestry and joins it until it is left; a handle that is no node and a node that was met are refused. -/
inductive Works (root : NodeId) : List Frame → List NodeId → Progress → Except LinkError Progress → Prop
  | done {ancestry : List NodeId} {p : Progress} : Works root [] ancestry p (.ok p)
  | dangling {id : NodeId} {work : List Frame} {ancestry : List NodeId} {p : Progress} : p.met.size ≤ id →
    Works root (.enter id :: work) ancestry p (.error (.danglingChild (ancestry.head?.getD root) id))
  | shared {id : NodeId} {work : List Frame} {ancestry : List NodeId} {p : Progress} : id < p.met.size →
    p.met.getD id false = true → Works root (.enter id :: work) ancestry p (.error (.sharedChild id))
  | enter {id : NodeId} {work : List Frame} {ancestry : List NodeId} {p : Progress} {r : Except LinkError Progress} :
    id < p.met.size → p.met.getD id false = false →
    Works root ((p.forest.children id).map .enter ++ .leave :: work) (id :: ancestry) (p.meet id ancestry.head?) r →
    Works root (.enter id :: work) ancestry p r
  | leave {work : List Frame} {ancestry : List NodeId} {p : Progress} {r : Except LinkError Progress} :
    Works root work ancestry.tail p r → Works root (.leave :: work) ancestry p r

/-- Linking file after file comes to an end with this result. -/
inductive WorksFiles : List SourceFile → Progress → Except LinkError Progress → Prop
  | done {p : Progress} : WorksFiles [] p (.ok p)
  | refused {file : SourceFile} {files : List SourceFile} {p : Progress} {e : LinkError} :
    Works file.root [.enter file.root] [] p (.error e) → WorksFiles (file :: files) p (.error e)
  | next {file : SourceFile} {files : List SourceFile} {p q : Progress} {r : Except LinkError Progress} :
    Works file.root [.enter file.root] [] p (.ok q) → WorksFiles files q r → WorksFiles (file :: files) p r

/-- At each point one rule applies, so there is one result. -/
theorem Works.unique (h : Works root work ancestry p r) (h' : Works root work ancestry p r') : r = r' := by
  induction h with
  | done =>
    cases h'
    rfl
  | dangling hle =>
    cases h' with
    | dangling _ => rfl
    | shared hlt _ => exact absurd hlt (Nat.not_lt.mpr hle)
    | enter hlt _ _ => exact absurd hlt (Nat.not_lt.mpr hle)
  | shared hlt hmet =>
    cases h' with
    | dangling hle => exact absurd hlt (Nat.not_lt.mpr hle)
    | shared _ _ => rfl
    | enter _ hfree _ => cases hmet.symm.trans hfree
  | enter hlt hfree _ ih =>
    cases h' with
    | dangling hle => exact absurd hlt (Nat.not_lt.mpr hle)
    | shared _ hmet => cases hmet.symm.trans hfree
    | enter _ _ h' => exact ih h'
  | leave _ ih =>
    cases h' with
    | leave h' => exact ih h'

theorem WorksFiles.unique {files : List SourceFile} (h : WorksFiles files p r) (h' : WorksFiles files p r') :
    r = r' := by
  induction h with
  | done =>
    cases h'
    rfl
  | refused h =>
    cases h' with
    | refused h' => exact h.unique h'
    | next h' _ => cases h.unique h'
  | next h _ ih =>
    cases h' with
    | refused h' => cases h.unique h'
    | next h' hrest =>
      obtain rfl := Except.ok.inj (h.unique h')
      exact ih hrest

/-- The nodes of the ancestry are different nodes that have been met. -/
structure Trail (p : Progress) (ancestry : List NodeId) : Prop where
  nodup : ancestry.Nodup
  met : ∀ a ∈ ancestry, p.met.getD a false = true

/-- What was met is a node. -/
theorem Progress.Fair.lt_size (h : p.Fair) (hmet : p.met.getD id false = true) : id < p.forest.size := by
  rw [← h]
  by_contra hle
  rw [Array.getD_eq_getD_getElem?, Array.getElem?_eq_none (Nat.le_of_not_lt hle)] at hmet
  cases hmet

theorem Trail.length_le (h : Trail p ancestry) (hp : p.Fair) : ancestry.length ≤ p.forest.size :=
  length_le_size h.nodup fun a ha => hp.lt_size (h.met a ha)

theorem Trail.meet (h : Trail p ancestry) (hlt : id < p.met.size) (hfree : p.met.getD id false = false)
    (parent : Option NodeId) : Trail (p.meet id parent) (id :: ancestry) := by
  have hmet := p.met_meet parent hlt
  refine ⟨nodup_cons.mpr ⟨fun hmem => ?_, h.nodup⟩, forall_mem_cons.mpr ⟨(hmet id).mpr (.inr rfl), ?_⟩⟩
  · cases (h.met id hmem).symm.trans hfree
  · exact fun a ha => (hmet a).mpr (.inl (h.met a ha))

theorem Trail.attached {ids : List NodeId} {parent : Option NodeId} (h : Trail p ancestry)
    (hq : Attached n parent ids p q) : Trail q ancestry :=
  ⟨h.nodup, fun a ha => (hq.met a).mpr (.inl (h.met a ha))⟩

/-- Where something has come to an end, the rest of the work leads to this result. -/
def Proceeds (root : NodeId) (work : List Frame) (ancestry : List NodeId) :
    Except LinkError Progress → Except LinkError Progress → Prop
  | .ok q, r => Works root work ancestry q r
  | .error e, r => r = .error e

/-- The machine enters nodes one after the other, if it enters each of them as `attach` attaches it. -/
theorem works_of_attachAll
    (hone : ∀ {id p work r}, p.Fair → Trail p ancestry →
      Proceeds root work ancestry (attach root n ancestry.head? p id) r →
      p.forest.size < n + ancestry.length → Works root (.enter id :: work) ancestry p r)
    {ids : List NodeId} (hp : p.Fair) (htrail : Trail p ancestry) (hn : p.forest.size < n + ancestry.length)
    (h : Proceeds root work ancestry (ids.foldlM (attach root n ancestry.head?) p) r) :
    Works root (ids.map .enter ++ work) ancestry p r := by
  induction ids generalizing p with
  | nil => exact h
  | cons id rest ih =>
    rw [foldlM_cons] at h
    refine hone hp htrail ?_ hn
    cases hfirst : attach root n ancestry.head? p id with
    | error e =>
      rw [hfirst] at h
      exact h
    | ok q =>
      rw [hfirst] at h
      have hattached := attach_ok hp hfirst
      exact ih hattached.fair (htrail.attached hattached) (hattached.same.tree.size ▸ hn) h

/-- The machine enters a node as `attach` attaches it. A level of `attach` adds a node to the ancestry, and there are no
more of these than nodes, so its bound is not met. -/
theorem works_of_attach (hp : p.Fair) (htrail : Trail p ancestry)
    (h : Proceeds root work ancestry (attach root n ancestry.head? p id) r)
    (hn : p.forest.size < n + ancestry.length) : Works root (.enter id :: work) ancestry p r := by
  induction n generalizing id ancestry p work r with
  | zero =>
    have hshort := htrail.length_le hp
    rw [Nat.zero_add] at hn
    exact absurd hn (Nat.not_lt.mpr hshort)
  | succ n ih =>
    unfold attach at h
    by_cases hle : p.met.size ≤ id
    · rw [if_pos hle] at h
      cases h
      exact .dangling hle
    · have hlt := Nat.lt_of_not_le hle
      rw [if_neg hle] at h
      by_cases hmet : p.met.getD id false = true
      · rw [if_pos hmet] at h
        cases h
        exact .shared hlt hmet
      · have hfree : p.met.getD id false = false := by simpa using hmet
        have hsize : (p.meet id ancestry.head?).forest.size = p.forest.size :=
          (SameButParents.modify p.forest id ancestry.head?).tree.size
        rw [if_neg hmet] at h
        refine .enter hlt hfree (works_of_attachAll ih (hp.meet id _) (htrail.meet hlt hfree _) ?_ ?_)
        · rw [hsize, length_cons]
          omega
        · -- What follows the children is the frame in which the node is left.
          rw [head?_cons]
          cases hall : (p.forest.children id).foldlM (attach root n (some id)) (p.meet id ancestry.head?) with
          | error e =>
            rw [hall] at h
            exact h
          | ok q =>
            rw [hall] at h
            exact .leave h

/-- The machine links files as `attach` does. -/
theorem worksFiles_of_attach (files : List SourceFile) (hp : p.Fair) (hn : p.forest.size < n) :
    WorksFiles files p (files.foldlM (fun p file => attach file.root n none p file.root) p) := by
  induction files generalizing p with
  | nil => exact .done
  | cons file rest ih =>
    have hwork : ∀ {r}, Proceeds file.root [] [] (attach file.root n none p file.root) r →
        Works file.root [.enter file.root] [] p r := by
      intro r h
      exact works_of_attach (n := n) hp ⟨nodup_nil, nofun⟩ h hn
    rw [foldlM_cons]
    cases hfirst : attach file.root n none p file.root with
    | error e =>
      rw [hfirst] at hwork
      exact .refused (hwork rfl)
    | ok q =>
      rw [hfirst] at hwork
      have hattached := attach_ok hp hfirst
      exact .next (hwork .done) (ih hattached.fair (hattached.same.tree.size ▸ hn))

end Ancestry

namespace Forest

open Ancestry

variable {f g : Forest} {id x root : NodeId} {way : List Nat}

/-- The machine links the files of a forest with this result. -/
def Links (f : Forest) (r : Except LinkError Forest) : Prop :=
  ∃ done, WorksFiles f.files ⟨f, Array.replicate f.size false⟩ done ∧ r = done.map Progress.forest

theorem links_iff {r : Except LinkError Forest} : f.Links r ↔ f.linkParents = r := by
  have hworks := worksFiles_of_attach f.files (start_fair f) (Nat.lt_succ_self f.size)
  have hmap : f.linkParents = (f.files.foldlM (fun p file => attach file.root (f.size + 1) none p file.root)
      ⟨f, Array.replicate f.size false⟩).map Progress.forest := by
    rw [linkParents]
    cases f.files.foldlM (fun p file => attach file.root (f.size + 1) none p file.root)
      ⟨f, Array.replicate f.size false⟩ <;> rfl
  constructor
  · rintro ⟨done, hdone, rfl⟩
    rw [hdone.unique hworks, hmap]
  · rintro rfl
    exact ⟨_, hworks, hmap⟩

/-! ## What linking trees writes -/

/-- The upward walk goes from each node to its parent and ends at `root`, which has none. -/
structure AscendsTo (f : Forest) (root id : NodeId) : Prop where
  step : (id :: f.ancestors id).IsChain fun a b => f.parent a = some b
  last : (id :: f.ancestors id).getLast? = some root
  top : f.parent root = none

/-- `g` is `f` with the parents that tree-shaped files have. -/
structure TreeLinks (f g : Forest) : Prop where
  same : SameButParents f g
  unreachable : ∀ id, ¬ f.Reachable id → g.node id = f.node id
  root : ∀ root ∈ f.roots, g.parent root = none
  parent : ∀ id, f.Reachable id → id ∉ f.roots → ∃ p, g.parent id = some p ∧ f.Reachable p ∧ id ∈ f.children p ∧
    ∀ q, f.Reachable q → id ∈ f.children q → q = p
  ascends : ∀ root ∈ f.roots, ∀ way id, f.follow? way root = some id → g.AscendsTo root id
  file : ∀ file ∈ f.files, ∀ way id, f.follow? way file.root = some id → g.fileOf? id = some file

theorem SameTree.follow? (h : SameTree f g) : g.follow? way id = f.follow? way id := by
  induction way generalizing id with
  | nil => rfl
  | cons k way ih =>
    have hrest : g.follow? way = f.follow? way := funext fun c => ih
    rw [Forest.follow?, Forest.follow?, h.children, hrest]

namespace Linked

variable (h : g.Linked)
include h

theorem ascendsTo_root (hroot : root ∈ g.roots) : g.AscendsTo root root := by
  refine ⟨?_, ?_, h.parent_root root hroot⟩
  · rw [h.ancestors_root hroot]
    exact .singleton root
  · rw [h.ancestors_root hroot]
    rfl

theorem ascendsTo_child {c : NodeId} (hid : id ∈ g.reached) (hc : c ∈ g.children id)
    (hup : g.AscendsTo root id) : g.AscendsTo root c := by
  have hancestors : g.ancestors c = id :: g.ancestors id := by
    rw [h.ancestors_child hid hc, lineage_eq_cons]
  refine ⟨?_, ?_, hup.top⟩
  · rw [hancestors]
    exact isChain_cons_cons.mpr ⟨h.parent_child id hid c hc, hup.step⟩
  · rw [hancestors, getLast?_cons_cons]
    exact hup.last

/-- A way down leads to nodes from which the upward walk ends where the way begins. -/
theorem ascendsTo_of_follow? (hroot : root ∈ g.roots) (hway : g.follow? way root = some x) : g.AscendsTo root x :=
  h.below_induction (root_mem_reached hroot) (h.ascendsTo_root hroot) (fun _ ha hup _ hc => h.ascendsTo_child ha hc hup)
    ((h.fits_root hroot).mem_descend_of_follow? hway)

/-- No two files have the same root. -/
theorem fileByRoot?_eq {file : SourceFile} (hfile : file ∈ g.files) : g.fileByRoot? file.root = some file := by
  have hroots : (g.files.map SourceFile.root).Nodup := nodup_of_flatMap_descendants h.nodup
  cases hfind : g.fileByRoot? file.root with
  | none =>
    have := find?_eq_none.mp hfind file (mem_reverse.mpr hfile)
    simp at this
  | some other =>
    have hother := mem_reverse.mp (mem_of_find?_eq_some hfind)
    have hroot : other.root = file.root := by simpa using find?_some hfind
    rw [inj_on_of_nodup_map hroots hother hfile hroot]

theorem fileOf?_eq {file : SourceFile} (hfile : file ∈ g.files) (hup : g.AscendsTo file.root id) :
    g.fileOf? id = some file := by
  rw [fileOf?, lineage_eq_cons, hup.last]
  exact h.fileByRoot?_eq hfile

/-- Below a file there are its root and children. -/
theorem exists_parent (hid : id ∈ g.reached) (hroot : id ∉ g.roots) : ∃ p ∈ g.reached, id ∈ g.children p := by
  revert hroot
  refine h.reached_induction (fun root hroot hnot => (hnot hroot).elim) (fun p hp _ c hc _ => ?_) hid
  exact ⟨p, hp, hc⟩

end Linked

theorem ParentsLinked.treeLinks (h : ParentsLinked f g) : TreeLinks f g := by
  have htree := h.same.tree
  have hlinked := h.linked
  have hreached : ∀ {x}, f.Reachable x ↔ x ∈ f.reached :=
    ⟨mem_reached_of_reachable h.fits, reachable_of_mem_reached⟩
  have hascends : ∀ root ∈ f.roots, ∀ way id, f.follow? way root = some id → g.AscendsTo root id := by
    intro root hroot way id hway
    rw [← htree.roots] at hroot
    exact hlinked.ascendsTo_of_follow? hroot (htree.follow?.trans hway)
  refine ⟨h.same, fun id hid => ?_, h.parent_root, fun id hid hroot => ?_, hascends, ?_⟩
  · exact Node.ext (congrFun htree.kind id) (htree.span id) (congrFun htree.children id)
      (h.parent_other id fun hmem => hid (hreached.mpr hmem)) (congrFun h.same.resolvedName id)
      (congrFun h.same.declaration id)
  · rw [hreached, ← htree.reached] at hid
    rw [← htree.roots] at hroot
    obtain ⟨p, hp, hchild⟩ := hlinked.exists_parent hid hroot
    rw [htree.reached] at hp
    rw [htree.children] at hchild
    have hparent := h.parent_child p hp id hchild
    refine ⟨p, hparent, hreached.mpr hp, hchild, fun q hq hchild' => ?_⟩
    exact Option.some.inj ((h.parent_child q (hreached.mp hq) id hchild').symm.trans hparent)
  · intro file hfile way id hway
    have hup := hascends file.root (mem_map_of_mem hfile) way id hway
    rw [← htree.files] at hfile
    exact hlinked.fileOf?_eq hfile hup

/-- The walk below a node of a tree ends. -/
theorem TreeShaped.fits (h : f.TreeShaped) (hid : f.Reachable id) : f.Fits (f.size + 1) id := by
  obtain ⟨hnodup, hlt⟩ := treeShaped_iff.mp h
  obtain ⟨g, hg⟩ := linkParents_isOk hnodup hlt
  have hlinked := linkParents_ok hg
  have hid := mem_reached_of_reachable hlinked.fits hid
  rw [← hlinked.same.tree.reached] at hid
  have hfits := hlinked.linked.fits hid
  rw [hlinked.same.tree.size] at hfits
  exact fits_congr hlinked.same.tree.children hfits

/-- **Linking decides whether files are trees**: the machine comes to an end on every forest, whatever its lists of
children hold; it ends with a forest exactly if the files are tree-shaped; and that forest has the parents of the trees
and differs in nothing else. -/
theorem linkParents_decides_treeShaped (f : Forest) :
    (∀ r, f.Links r ↔ f.linkParents = r) ∧ ((∃ g, f.linkParents = .ok g) ↔ f.TreeShaped) ∧
      ∀ g, f.linkParents = .ok g → TreeLinks f g := by
  refine ⟨fun r => links_iff, ⟨?_, fun h => ?_⟩, fun g hg => (linkParents_ok hg).treeLinks⟩
  · rintro ⟨g, hg⟩
    have hlinked := linkParents_ok hg
    exact treeShaped_iff.mpr ⟨hlinked.nodup, hlinked.lt_size⟩
  · obtain ⟨hnodup, hlt⟩ := treeShaped_iff.mp h
    exact linkParents_isOk hnodup hlt

/-- Two files beside a cycle that no file reaches, from which a node of the first file and a handle that is no node are
listed too. -/
def besideCycle : Forest where
  nodes := #[{ kind := .var "x" }, { kind := .block, children := [0] }, { kind := .file, children := [1] },
    { kind := .file }, { kind := .block, children := [5, 0, 9] }, { kind := .block, children := [4], parent := some 3 }]
  files := [{ path := "a", root := 2 }, { path := "b", root := 3 }]

/-- The same arena where a file holds the cycle. -/
def aroundCycle : Forest :=
  { besideCycle with files := [{ path := "a", root := 4 }] }

theorem linkParents_besideCycle : besideCycle.TreeShaped ∧ ¬ aroundCycle.TreeShaped ∧
    ∃ g, besideCycle.linkParents = .ok g ∧ TreeLinks besideCycle g ∧
      g.ancestors 0 = [1, 2] ∧ (g.fileOf? 0).map SourceFile.path = some "a" ∧ g.parent 5 = some 3 := by
  obtain ⟨-, hshape, hlinks⟩ := linkParents_decides_treeShaped besideCycle
  obtain ⟨-, hcycle, -⟩ := linkParents_decides_treeShaped aroundCycle
  have hrefused : aroundCycle.linkParents = .error (.sharedChild 4) := rfl
  refine ⟨hshape.mp ⟨_, rfl⟩, fun h => ?_, _, rfl, hlinks _ rfl, rfl, rfl, rfl⟩
  obtain ⟨g, hg⟩ := hcycle.mpr h
  cases hrefused.symm.trans hg

end Forest

end EventAtlas
