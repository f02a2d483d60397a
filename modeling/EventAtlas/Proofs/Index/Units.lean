import EventAtlas.Proofs.Index.Places
import EventAtlas.Proofs.Typing.Names
import Mathlib.Data.List.Forall2

/-!
# The table of units

Every file contributes its first top-level declaration, unless an earlier file has contributed the same name. What a
top-level declaration is, and when two names are the same, is said here without the index: by the place of a node in its
file (`Forest.IsTopLevel`, `Forest.FirstDeclaration`) and by the characters of a name (`Text.SameName`). The main
statement says what the table of a built index holds and what a look-up in it gives.
-/

namespace EventAtlas

open List

/-! ## Names up to case and leading separators -/

namespace Text

variable {c d : Char} {s t : String}

/-- The same character, or the same letter once as a capital and once as a small letter. -/
def SameLetter (c d : Char) : Prop :=
  c = d ∨ (65 ≤ c.toNat ∧ c.toNat ≤ 90 ∧ d.toNat = c.toNat + 32) ∨
    (65 ≤ d.toNat ∧ d.toNat ≤ 90 ∧ c.toNat = d.toNat + 32)

/-- Two names that differ in their leading separators and in the case of letters only. -/
def SameName (s t : String) : Prop :=
  ∃ m n p q, s.toList = List.replicate m '\\' ++ p ∧ t.toList = List.replicate n '\\' ++ q ∧
    List.Forall₂ SameLetter p q

theorem toNat_toLower (c : Char) : c.toLower.toNat = if 65 ≤ c.toNat ∧ c.toNat ≤ 90 then c.toNat + 32 else c.toNat := by
  unfold Char.toLower
  have hiff : (c.val ≥ 'A'.val ∧ c.val ≤ 'Z'.val) ↔ (65 ≤ c.toNat ∧ c.toNat ≤ 90) := by
    simp only [ge_iff_le, UInt32.le_iff_toNat_le, Char.toNat, Char.reduceVal, UInt32.reduceToNat]
  split
  · next h =>
    rw [if_pos (hiff.mp h)]
    have hsmall := (hiff.mp h).2
    simp only [Char.toNat, Char.reduceVal, UInt32.toNat_add, UInt32.reduceSub, UInt32.reduceToNat] at hsmall ⊢
    omega
  · next h => rw [if_neg fun h' => h (hiff.mpr h')]

theorem sameLetter_iff : SameLetter c d ↔ c.toLower = d.toLower := by
  have hinj (a b : Char) : a = b ↔ a.toNat = b.toNat := ⟨congrArg _, fun h => Char.toNat_inj.mp h⟩
  rw [SameLetter, hinj c, hinj c.toLower, toNat_toLower, toNat_toLower]
  split <;> split <;> omega

theorem exists_replicate_append_unrooted (s : String) :
    ∃ n, s.toList = List.replicate n '\\' ++ (unrooted s).toList := by
  have hall : ∀ c ∈ s.toList.takeWhile isSeparator, c = '\\' := by
    intro c hc
    simpa [isSeparator] using all_eq_true.mp (all_takeWhile (p := isSeparator) (l := s.toList)) c hc
  refine ⟨(s.toList.takeWhile isSeparator).length, ?_⟩
  rw [← eq_replicate_of_mem hall, unrooted, dropLeft, String.toList_ofList, takeWhile_append_dropWhile]

theorem lower_unrooted_of_toList {n : Nat} {p : List Char} (h : s.toList = List.replicate n '\\' ++ p) :
    (lower (unrooted s)).toList = (p.map Char.toLower).dropWhile isSeparator := by
  have hsep : ∀ c ∈ List.replicate n '\\', isSeparator c.toLower = true := by
    intro c hc
    rw [eq_of_mem_replicate hc]
    rfl
  rw [← unrooted_lower, unrooted, dropLeft, lower, String.toList_ofList, String.toList_ofList, h, map_append,
    dropWhile_append_of_pos]
  intro c hc
  obtain ⟨d, hd, rfl⟩ := mem_map.mp hc
  exact hsep d hd

/-- Names have the same key exactly if they differ in leading separators and case only. -/
theorem declarationKey_eq_iff : Forest.declarationKey s = Forest.declarationKey t ↔ SameName s t := by
  have hforall (p q : List Char) : List.Forall₂ SameLetter p q ↔ p.map Char.toLower = q.map Char.toLower := by
    simp only [funext fun c => funext fun d => propext (@sameLetter_iff c d)]
    rw [← forall₂_eq_eq_eq, forall₂_map_left_iff, forall₂_map_right_iff]
  constructor
  · intro h
    obtain ⟨m, hm⟩ := exists_replicate_append_unrooted s
    obtain ⟨n, hn⟩ := exists_replicate_append_unrooted t
    refine ⟨m, n, _, _, hm, hn, (hforall _ _).mpr ?_⟩
    simpa only [Forest.declarationKey, lower, String.toList_ofList] using congrArg String.toList h
  · rintro ⟨m, n, p, q, hs, ht, hpq⟩
    apply String.toList_injective
    rw [Forest.declarationKey, Forest.declarationKey, lower_unrooted_of_toList hs, lower_unrooted_of_toList ht,
      (hforall p q).mp hpq]

end Text

/-! ## Top-level declarations -/

namespace Forest

variable {f : Forest} {root id : NodeId}

/-- A class-like that stands directly in a file or in one of its namespaces. -/
structure IsTopLevel (f : Forest) (root id : NodeId) : Prop where
  classLike : (f.kind id).isClassLike = true
  place : f.parent id = some root ∨
    ∃ ns name, f.parent id = some ns ∧ f.kind ns = .namespaceDecl name ∧ f.parent ns = some root

/-- The first top-level class-like of a file in source order. -/
def FirstDeclaration (f : Forest) (root id : NodeId) : Prop :=
  f.IsTopLevel root id ∧
    ∃ before after, f.descendants root = before ++ id :: after ∧ ∀ other ∈ before, ¬ f.IsTopLevel root other

namespace Linked

variable (h : f.Linked) (hroot : root ∈ f.roots)

include h hroot

theorem not_isTopLevel_below {c d m : NodeId} (hc : c ∈ f.children root) (hd : d ∈ f.children c)
    (hm : m ∈ (f.children d).flatMap f.descendants) : ¬ f.IsTopLevel root m := by
  -- Such a node is at least three steps below the file.
  have hcr := h.children_reached (root_mem_reached hroot) hc
  have hdr := h.children_reached hcr hd
  obtain ⟨e, he, hm⟩ := mem_flatMap.mp hm
  have hrooted : f.Rooted 3 e := ⟨d, h.parent_child d hdr e he, c, h.parent_child c hcr d hd, root,
    h.parent_child root (root_mem_reached hroot) c hc, h.parent_root root hroot⟩
  obtain ⟨l, hl, -⟩ := hrooted.below h (h.children_reached hdr he) hm
  rintro ⟨-, hparent | ⟨ns, name, hparent, -, hns⟩⟩
  · have := hl.unique (l := 1) ⟨root, hparent, h.parent_root root hroot⟩
    omega
  · have := hl.unique (l := 2) ⟨ns, hparent, root, hns, h.parent_root root hroot⟩
    omega

theorem isTopLevel_child {c : NodeId} (hc : c ∈ f.children root) :
    f.IsTopLevel root c ↔ (f.kind c).isClassLike = true := by
  have hparent := h.parent_child root (root_mem_reached hroot) c hc
  exact ⟨IsTopLevel.classLike, fun hk => ⟨hk, .inl hparent⟩⟩

theorem isTopLevel_grandchild {c d : NodeId} (hc : c ∈ f.children root) (hd : d ∈ f.children c) :
    f.IsTopLevel root d ↔ (f.kind d).isClassLike = true ∧ ∃ name, f.kind c = .namespaceDecl name := by
  have hrootc := h.parent_child root (root_mem_reached hroot) c hc
  have hparent := h.parent_child c (h.children_reached (root_mem_reached hroot) hc) d hd
  constructor
  · rintro ⟨hk, hroot' | ⟨ns, name, hns, hkind, -⟩⟩
    · obtain rfl := Option.some.inj (hparent.symm.trans hroot')
      cases (h.parent_root c hroot).symm.trans hrootc
    · obtain rfl := Option.some.inj (hparent.symm.trans hns)
      exact ⟨hk, name, hkind⟩
  · rintro ⟨hk, name, hkind⟩
    exact ⟨hk, .inr ⟨c, name, hparent, hkind, hrootc⟩⟩

open Classical in
/-- The top-level class-likes are found in source order. -/
theorem filter_isTopLevel : (f.descendants root).filter (fun id => f.IsTopLevel root id) = Index.topLevel f root := by
  have hreached := root_mem_reached hroot
  have hself : ¬ f.IsTopLevel root root := by
    rintro ⟨-, hparent | ⟨ns, name, hparent, -⟩⟩ <;> cases (h.parent_root root hroot).symm.trans hparent
  rw [h.descendants_eq hreached, filter_cons_of_neg (by simpa using hself), filter_flatMap, Index.topLevel]
  refine flatMap_congr fun c hc => ?_
  have hcr := h.children_reached hreached hc
  -- Below a child of the file only its own children can be top-level.
  have hbelow : ((f.children c).flatMap f.descendants).filter (fun id => f.IsTopLevel root id) =
      (f.children c).filter fun id => f.IsTopLevel root id := by
    conv_rhs => rw [← flatMap_singleton' (f.children c)]
    rw [filter_flatMap, filter_flatMap]
    refine flatMap_congr fun d hd => ?_
    rw [h.descendants_eq (h.children_reached hcr hd), filter_cons, filter_cons, filter_nil,
      filter_eq_nil_iff.mpr fun m hm => by simpa using h.not_isTopLevel_below hroot hc hd hm]
  have hnone (hk : ∀ name, f.kind c ≠ .namespaceDecl name) :
      (f.children c).filter (fun id => f.IsTopLevel root id) = [] := by
    refine filter_eq_nil_iff.mpr fun d hd => ?_
    rw [decide_eq_true_iff, h.isTopLevel_grandchild hroot hc hd]
    rintro ⟨-, name, hkind⟩
    exact hk name hkind
  rw [h.descendants_eq hcr, filter_cons, hbelow]
  simp only [decide_eq_true_iff, h.isTopLevel_child hroot hc]
  cases hk : f.kind c with
  | namespaceDecl name =>
    have hkids : (f.children c).filter (fun id => f.IsTopLevel root id) = f.childrenWhere c NodeKind.isClassLike := by
      refine filter_congr fun d hd => ?_
      simp [h.isTopLevel_grandchild hroot hc hd, hk]
    simp [NodeKind.isClassLike, hkids]
  | _ => simp [NodeKind.isClassLike, hnone (by simp [hk])]

theorem head?_topLevel : (Index.topLevel f root).head? = some id ↔ f.FirstDeclaration root id := by
  classical
  rw [← h.filter_isTopLevel hroot, head?_filter, find?_eq_some_iff_append, FirstDeclaration]
  simp only [decide_eq_true_iff, Bool.not_eq_true', decide_eq_false_iff_not]

end Linked

end Forest

/-! ## Names that are taken -/

namespace Index

open Forest

variable {f : Forest} {x : Index}

theorem distinctUnits_pairwise (taken : List String) (l : List ClassUnit) :
    (distinctUnits taken l).Pairwise (fun u v => u.key ≠ v.key) ∧ ∀ u ∈ distinctUnits taken l, u.key ∉ taken := by
  induction l generalizing taken with
  | nil => exact ⟨.nil, fun _ h => nomatch h⟩
  | cons u rest ih =>
    unfold distinctUnits
    split
    · exact ih taken
    · next hnew =>
      obtain ⟨hpair, hfree⟩ := ih (u.key :: taken)
      have hnew : u.key ∉ taken := fun hmem => hnew (contains_iff_mem.mpr hmem)
      refine ⟨hpair.cons fun v hv heq => hfree v hv (mem_cons.mpr (.inl heq.symm)), ?_⟩
      exact forall_mem_cons.mpr ⟨hnew, fun v hv hmem => hfree v hv (mem_cons_of_mem _ hmem)⟩

/-- A unit is left out only because its name is taken. -/
theorem mem_distinctUnits_or (taken : List String) (before after : List ClassUnit) (u : ClassUnit) :
    u ∈ distinctUnits taken (before ++ u :: after) ∨ u.key ∈ taken ∨
      ∃ v ∈ before, v ∈ distinctUnits taken (before ++ u :: after) ∧ v.key = u.key := by
  induction before generalizing taken with
  | nil =>
    by_cases htaken : u.key ∈ taken
    · exact .inr (.inl htaken)
    · refine .inl ?_
      rw [nil_append, distinctUnits, if_neg (by simpa using htaken)]
      exact mem_cons_self
  | cons w rest ih =>
    rw [cons_append, distinctUnits]
    split
    · obtain hmem | htaken | ⟨v, hv, hmem, hkey⟩ := ih taken
      · exact .inl hmem
      · exact .inr (.inl htaken)
      · exact .inr (.inr ⟨v, mem_cons_of_mem w hv, hmem, hkey⟩)
    · obtain hmem | htaken | ⟨v, hv, hmem, hkey⟩ := ih (w.key :: taken)
      · exact .inl (mem_cons_of_mem w hmem)
      · obtain hkey | htaken := mem_cons.mp htaken
        · exact .inr (.inr ⟨w, mem_cons_self, mem_cons_self, hkey.symm⟩)
        · exact .inr (.inl htaken)
      · exact .inr (.inr ⟨v, mem_cons_of_mem w hv, mem_cons_of_mem w hmem, hkey⟩)

/-- The units come from some of the files, in the order of the files. -/
theorem exists_files_distinctUnits (f : Forest) (taken : List String) (files : List SourceFile) :
    ∃ kept, kept.Sublist files ∧ List.Forall₂ (fun file u => unitOf? f file = some u) kept
      (distinctUnits taken (files.filterMap (unitOf? f))) := by
  induction files generalizing taken with
  | nil => exact ⟨[], .slnil, .nil⟩
  | cons file rest ih =>
    cases hunit : unitOf? f file with
    | none =>
      rw [filterMap_cons_none hunit]
      obtain ⟨kept, hsub, hkept⟩ := ih taken
      exact ⟨kept, hsub.cons file, hkept⟩
    | some u =>
      rw [filterMap_cons_some hunit, distinctUnits]
      split
      · obtain ⟨kept, hsub, hkept⟩ := ih taken
        exact ⟨kept, hsub.cons file, hkept⟩
      · obtain ⟨kept, hsub, hkept⟩ := ih (u.key :: taken)
        exact ⟨file :: kept, hsub.cons_cons file, .cons hunit hkept⟩

/-! ## Units and their files -/

theorem find?_reverse_eq_some {α : Type} {l : List α} {p : α → Bool} {a : α} (ha : a ∈ l) (hp : p a = true)
    (hunique : ∀ b ∈ l, p b = true → b = a) : l.reverse.find? p = some a := by
  cases hfind : l.reverse.find? p with
  | none => exact absurd hp (find?_eq_none.mp hfind a (mem_reverse.mpr ha))
  | some b =>
    have hb := mem_reverse.mp (mem_of_find?_eq_some hfind)
    rw [hunique b hb (find?_some hfind)]

theorem ofDeclaration?_fields {node : NodeId} {path : String} {u : ClassUnit}
    (h : ClassUnit.ofDeclaration? f node path = some u) :
    u.node = node ∧ u.file = path ∧ f.resolvedName node = some u.fqn := by
  simp only [ClassUnit.ofDeclaration?, Option.bind_eq_bind, Option.bind_eq_some_iff] at h
  obtain ⟨fqn, hfqn, kind, -, hu⟩ := h
  rw [← Option.some.inj hu]
  exact ⟨rfl, rfl, hfqn⟩

theorem exists_ofDeclaration? {node : NodeId} {fqn : String} (hk : (f.kind node).isClassLike = true)
    (hfqn : f.resolvedName node = some fqn) (path : String) :
    ∃ u, ClassUnit.ofDeclaration? f node path = some u ∧ u.node = node ∧ u.fqn = fqn := by
  have hkind : ∃ kind, UnitKind.ofNode? (f.kind node) = some kind := by
    cases hkind : f.kind node <;> simp [hkind, NodeKind.isClassLike] at hk <;> exact ⟨_, rfl⟩
  obtain ⟨kind, hkind⟩ := hkind
  have hname : (f.node node).resolvedName = some fqn := hfqn
  simp [ClassUnit.ofDeclaration?, hname, hkind]

namespace Built

variable (h : Built f x)

include h

/-- The unit of a file is made from its first declaration. -/
theorem unitOf?_fields {file : SourceFile} (hfile : file ∈ x.forest.files) {u : ClassUnit}
    (hu : unitOf? x.forest file = some u) : u.file = file.path ∧ x.forest.FirstDeclaration file.root u.node ∧
      x.forest.resolvedName u.node = some u.fqn := by
  obtain ⟨node, hnode, hu⟩ := Option.bind_eq_some_iff.mp hu
  obtain ⟨rfl, hpath, hfqn⟩ := ofDeclaration?_fields hu
  exact ⟨hpath, (h.linked.head?_topLevel (mem_map_of_mem hfile)).mp hnode, hfqn⟩

/-- A file with a top-level declaration has a unit to contribute. -/
theorem exists_unitOf? {file : SourceFile} (hfile : file ∈ x.forest.files) {id : NodeId}
    (hid : x.forest.FirstDeclaration file.root id) : ∃ u, unitOf? x.forest file = some u ∧ u.node = id := by
  have hroot : file.root ∈ x.forest.roots := mem_map_of_mem hfile
  have hreached : id ∈ x.forest.reached := by
    obtain ⟨-, before, after, hsplit, -⟩ := hid
    refine mem_flatMap.mpr ⟨file.root, hroot, ?_⟩
    rw [hsplit]
    exact mem_append_right before mem_cons_self
  have hname := h.resolvedName_of_isClassLike hreached hid.1.classLike
  obtain ⟨u, hu, hnode, -⟩ := exists_ofDeclaration? hid.1.classLike hname file.path
  exact ⟨u, Option.bind_eq_some_iff.mpr ⟨id, (h.linked.head?_topLevel hroot).mpr hid, hu⟩, hnode⟩

/-- No two units have the same declaration, since files share no nodes. -/
theorem unit_eq_of_node {u v : ClassUnit} (hu : u ∈ x.units) (hv : v ∈ x.units) (hnode : u.node = v.node) : u = v := by
  rw [h.units] at hu hv
  obtain ⟨a, ha, hua⟩ := mem_filterMap.mp (mem_of_mem_distinctUnits hu)
  obtain ⟨b, hb, hvb⟩ := mem_filterMap.mp (mem_of_mem_distinctUnits hv)
  have hbelow {file : SourceFile} {w : ClassUnit} (hfile : file ∈ x.forest.files)
      (hw : unitOf? x.forest file = some w) : w.node ∈ x.forest.descendants file.root := by
    obtain ⟨-, ⟨-, before, after, hsplit, -⟩, -⟩ := h.unitOf?_fields hfile hw
    rw [hsplit]
    exact mem_append_right before mem_cons_self
  have hpair : x.forest.files.Pairwise fun a b =>
      (x.forest.descendants a.root).Disjoint (x.forest.descendants b.root) := by
    have hnodup := h.linked.nodup
    rw [reached_eq] at hnodup
    exact (nodup_flatMap.mp hnodup).2
  have hsymm : Std.Symm fun a b : SourceFile =>
      (x.forest.descendants a.root).Disjoint (x.forest.descendants b.root) := ⟨fun _ _ h _ ha hb => h hb ha⟩
  have hab : a = b := by
    by_contra hne
    exact hpair.forall ha hb hne (hbelow ha hua) (hnode ▸ hbelow hb hvb)
  subst hab
  exact Option.some.inj (hua.symm.trans hvb)

theorem find?_eq_some {u : ClassUnit} (hu : u ∈ x.units) {s : String} (hs : declarationKey s = u.key) :
    x.find? s = some u := by
  have hpair : x.units.Pairwise fun u v => u.key ≠ v.key := by
    rw [h.units]
    exact (distinctUnits_pairwise [] _).1
  have hsymm : Std.Symm fun u v : ClassUnit => u.key ≠ v.key := ⟨fun _ _ h => h.symm⟩
  rw [find?]
  refine find?_reverse_eq_some hu (by rw [hs, beq_self_eq_true]) fun v hv hkey => ?_
  by_contra hne
  exact hpair.forall hv hu hne ((beq_iff_eq.mp hkey).trans hs)

theorem unitByNode?_eq_some {u : ClassUnit} (hu : u ∈ x.units) : x.unitByNode? u.node = some u :=
  find?_reverse_eq_some hu (beq_self_eq_true _) fun _ hv hnode => h.unit_eq_of_node hv hu (beq_iff_eq.mp hnode)

end Built

/-- The table of units of a built index. The files stand in the order in which they were given. The units come from
some of them, in their order and one from each, and every unit is the first top-level declaration of its file. No two
units have the same name. A first declaration is left out only if an earlier file has contributed its name. A unit is
found under every spelling of its name and by its declaration, and nothing is found under any other name. -/
theorem ofForests_unit_table {forests : List Forest} (h : ofForests forests = .ok x) :
    x.forest.files.map SourceFile.path = (forests.flatMap fun f => f.files.map SourceFile.path) ∧
    (∃ files, files.Sublist x.forest.files ∧ List.Forall₂ (fun file u => u.file = file.path ∧
      x.forest.FirstDeclaration file.root u.node ∧ x.forest.resolvedName u.node = some u.fqn) files x.units) ∧
    x.units.Pairwise (fun u v => ¬ Text.SameName u.fqn v.fqn) ∧
    (∀ before file after, x.forest.files = before ++ file :: after →
      ∀ id, x.forest.FirstDeclaration file.root id → ∃ fqn, x.forest.resolvedName id = some fqn ∧
        ((∃ u ∈ x.units, u.node = id) ∨ ∃ earlier ∈ before, ∃ u ∈ x.units,
          x.forest.FirstDeclaration earlier.root u.node ∧ Text.SameName u.fqn fqn)) ∧
    (∀ u ∈ x.units, (∀ s, Text.SameName s u.fqn → x.find? s = some u ∧ x.declaration? s = some u.node) ∧
      x.unitByNode? u.node = some u) ∧
    ∀ s, (∀ u ∈ x.units, ¬ Text.SameName s u.fqn) → x.find? s = none := by
  have hbuilt := ofForests_built h
  refine ⟨?_, ?_, ?_, ?_, ?_, ?_⟩
  · rw [hbuilt.tree.files, joined_paths]
  · obtain ⟨kept, hsub, hkept⟩ := exists_files_distinctUnits x.forest [] x.forest.files
    refine ⟨kept, hsub, ?_⟩
    rw [hbuilt.units]
    refine (List.forall₂_iff_zip.mpr ⟨hkept.length_eq, fun {file u} hzip => ?_⟩)
    exact hbuilt.unitOf?_fields (hsub.subset (List.of_mem_zip hzip).1) ((List.forall₂_iff_zip.mp hkept).2 hzip)
  · have hpair := (distinctUnits_pairwise [] (x.forest.files.filterMap (unitOf? x.forest))).1
    rw [hbuilt.units]
    exact hpair.imp fun hne hsame => hne (Text.declarationKey_eq_iff.mpr hsame)
  · intro before file after hfiles id hid
    have hfile : file ∈ x.forest.files := hfiles ▸ List.mem_append_right before List.mem_cons_self
    obtain ⟨u, hu, rfl⟩ := hbuilt.exists_unitOf? hfile hid
    refine ⟨u.fqn, (hbuilt.unitOf?_fields hfile hu).2.2, ?_⟩
    have hsplit : x.forest.files.filterMap (unitOf? x.forest) =
        before.filterMap (unitOf? x.forest) ++ u :: after.filterMap (unitOf? x.forest) := by
      rw [hfiles, List.filterMap_append, List.filterMap_cons_some hu]
    rw [hbuilt.units, unitsOf, hsplit]
    obtain hmem | hnil | ⟨v, hv, hmem, hkey⟩ := mem_distinctUnits_or [] (before.filterMap (unitOf? x.forest))
      (after.filterMap (unitOf? x.forest)) u
    · exact .inl ⟨u, hmem, rfl⟩
    · cases hnil
    · obtain ⟨earlier, hearlier, hvu⟩ := List.mem_filterMap.mp hv
      have hmem' : earlier ∈ x.forest.files := hfiles ▸ List.mem_append_left _ hearlier
      exact .inr ⟨earlier, hearlier, v, hmem, (hbuilt.unitOf?_fields hmem' hvu).2.1,
        Text.declarationKey_eq_iff.mp hkey⟩
  · intro u hu
    refine ⟨fun s hs => ?_, hbuilt.unitByNode?_eq_some hu⟩
    have hfind := hbuilt.find?_eq_some hu (Text.declarationKey_eq_iff.mpr hs)
    exact ⟨hfind, by rw [declaration?, hfind]; rfl⟩
  · intro s hs
    rw [find?, List.find?_eq_none]
    intro u hu hkey
    exact hs u (List.mem_reverse.mp hu) (Text.declarationKey_eq_iff.mp (beq_iff_eq.mp hkey).symm)

/-- A file that declares two classes, and a file that declares the first one again. -/
def declaredAgain : List (String × String) :=
  [("a.php", "<?php\nnamespace N \x7b class A \x7b\x7d class B \x7b\x7d \x7d\n"),
    ("b.php", "<?php\nnamespace n;\ninterface a \x7b\x7d\n")]

theorem ofForests_unit_table_declaredAgain : let x := ofPrograms declaredAgain
    ofForests (forestsOf (sourcesOf declaredAgain)) = .ok x ∧ x.units.map ClassUnit.fqn = ["N\\A"] ∧
    ∃ u ∈ x.units, u.fqn = "N\\A" ∧ x.find? "\\\\n\\a" = some u ∧ x.unitByNode? u.node = some u := by
  have hnames : (ofPrograms declaredAgain).units.map ClassUnit.fqn = ["N\\A"] := by decide +kernel
  obtain ⟨-, -, -, -, hfound, -⟩ := ofForests_unit_table (ofForests_ofPrograms declaredAgain)
  obtain ⟨u, hu, hfqn⟩ := List.mem_map.mp (hnames ▸ List.mem_cons_self : "N\\A" ∈ _)
  obtain ⟨hspelled, hnode⟩ := hfound u hu
  have hsame : Text.SameName "\\\\n\\a" u.fqn := by
    rw [hfqn, ← Text.declarationKey_eq_iff]
    decide
  exact ⟨ofForests_ofPrograms declaredAgain, hnames, u, hu, hfqn, (hspelled _ hsame).1, hnode⟩

end Index

end EventAtlas
