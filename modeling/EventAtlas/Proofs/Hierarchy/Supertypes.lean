import EventAtlas.Proofs.Hierarchy.Closure
import EventAtlas.Proofs.Index.References
import EventAtlas.Proofs.Typing.Names

/-!
# Member lookup and supertype names see one hierarchy

Members are looked up by following links, and supertypes are reported by their names. In a built index the two agree: a
declaration that a name is linked to is known under the key of that name (`Index.Built.key_of_declaration`), and every
declaration in the order of lookup is linked from a name that is reported. So a member that is found belongs to the
class itself or to a declaration whose name is among the supertypes (`Index.lookup_sees_supertypes`).
-/

namespace EventAtlas

open List Forest

/-! ## Links and names -/

namespace Index.Built

variable {f : Forest} {x : Index} {n c d : NodeId} {text : String} {role : NameRole}

/-- A node that knows a parent is below a file. -/
theorem reached_of_parent (h : Built f x) (hf : f.Unlinked) {p : NodeId} (hp : x.forest.parent n = some p) :
    n ∈ x.forest.reached := by
  obtain ⟨linked, named, hlinked, hnamed, hsame, -⟩ := h.exists_passes
  have hplaces := hnamed.places.trans hsame.places
  rw [hplaces.reached, hlinked.same.tree.reached]
  by_contra hout
  rw [hplaces.parent, hlinked.parent_other n hout, hf.parent n] at hp
  cases hp

theorem reached_of_enclosingClass? (h : Built f x) (hf : f.Unlinked) (hc : x.forest.enclosingClass? n = some c) :
    n ∈ x.forest.reached := by
  have hmem : c ∈ x.forest.ancestors n := mem_of_find?_eq_some hc
  cases hp : x.forest.parent n with
  | none =>
    rw [ancestors, lineage, climb, hp] at hmem
    cases hmem
  | some p => exact h.reached_of_parent hf hp

/-- A name is linked to the class around that it means, or to what the index has under its name. -/
theorem declaration_cases (h : Built f x) (hf : f.Unlinked) (hk : x.forest.kind n = .name text role)
    (hd : x.forest.declaration n = some d) :
    Reference.meansSelf (.name text role) = true ∧ x.forest.enclosingClass? n = some d ∨
      ∃ fqn, x.forest.nameOf? n = some fqn ∧ x.declaration? fqn = some d := by
  obtain ⟨linked, named, hlinked, hnamed, hsame, hrefs⟩ := h.exists_passes
  have hk' : named.kind n = .name text role := by rw [← hk, hsame.tree.kind]
  have hfresh : named.declaration n = none := by
    rw [hnamed.declaration, hlinked.same.declaration]
    exact hf.declaration n
  rw [hrefs, declaration_linkReferences hk', hfresh, Option.or_none, hk'] at hd
  rw [hsame.enclosingClass?, hsame.nameOf?]
  obtain hself | ⟨-, hname⟩ := Option.or_eq_some_iff.mp hd
  · rw [Option.ite_none_right_eq_some] at hself
    exact .inl hself
  · rw [Option.ite_none_right_eq_some] at hname
    exact .inr (Option.bind_eq_some_iff.mp hname.2)

/-- A name that is linked stands for what it is linked to: a class-like that is known under the key of the name. -/
theorem key_of_declaration (h : Built f x) (hf : f.Unlinked) (hk : x.forest.kind n = .name text role)
    (hd : x.forest.declaration n = some d) :
    (x.forest.kind d).isClassLike = true ∧ ∃ r fqn, x.forest.resolvedName d = some r ∧ x.forest.nameOf? n = some fqn ∧
      declarationKey fqn = declarationKey r := by
  obtain ⟨hself, hc⟩ | ⟨fqn, hname, hfound⟩ := h.declaration_cases hf hk hd
  · -- The name has the qualified name of the class around, which is that of the declaration.
    have hid := h.reached_of_enclosingClass? hf hc
    obtain ⟨hreached, hclass⟩ := h.linked.enclosingClass?_reached hid hc
    have hr := h.resolvedName_of_isClassLike hreached hclass
    simp only [Reference.meansSelf, Text.sameLetters, Bool.and_eq_true, Bool.or_eq_true, beq_iff_eq] at hself
    have hfqn := h.resolvedName_of_self hid hk hself.1 hself.2
    rw [hc, Option.bind_some, hr, Option.getD_some] at hfqn
    exact ⟨hclass, _, _, hr, nameOf?_of_resolvedName hk hfqn, rfl⟩
  · obtain ⟨u, hu, rfl, hkey⟩ := exists_unit_of_declaration? hfound
    obtain ⟨-, hclass, hr⟩ := h.unit hu
    exact ⟨hclass, u.fqn, fqn, hr, hname, hkey.symm⟩

end Index.Built

/-! ## Reported names -/

namespace Forest

variable {f : Forest} {c d n q : NodeId} {fqn : String}

theorem lower_mem_of_mem_distinct {names : List String} {s : List String × List String}
    (hs : ∀ key ∈ s.1, ∃ m ∈ s.2, Text.lower m = key) {name : String} (hname : name ∈ names ∨ Text.lower name ∈ s.1) :
    ∃ m ∈ (names.foldl (fun (s : List String × List String) n =>
      let key := Text.lower n
      if s.1.contains key then s else (key :: s.1, n :: s.2)) s).2, Text.lower m = Text.lower name := by
  induction names generalizing s with
  | nil =>
    obtain hname | hname := hname
    · cases hname
    · exact hs _ hname
  | cons a rest ih =>
    rw [foldl_cons]
    by_cases hkey : s.1.contains (Text.lower a) = true
    · simp only [hkey, if_true]
      refine ih hs ?_
      obtain hname | hname := hname
      · obtain rfl | hname := mem_cons.mp hname
        · exact .inr (contains_iff_mem.mp hkey)
        · exact .inl hname
      · exact .inr hname
    · simp only [hkey, Bool.false_eq_true, if_false]
      refine ih (forall_mem_cons.mpr ⟨⟨a, mem_cons_self, rfl⟩, fun key hmem => ?_⟩) ?_
      · obtain ⟨m, hm, hlower⟩ := hs key hmem
        exact ⟨m, mem_cons_of_mem a hm, hlower⟩
      · obtain hname | hname := hname
        · obtain rfl | hname := mem_cons.mp hname
          · exact .inr mem_cons_self
          · exact .inl hname
        · exact .inr (mem_cons_of_mem _ hname)

/-- Each name has a distinct name that agrees with it up to case. -/
theorem exists_mem_distinctNames {names : List String} {name : String} (h : name ∈ names) :
    ∃ m ∈ distinctNames names, Text.lower m = Text.lower name := by
  obtain ⟨m, hm, hlower⟩ := lower_mem_of_mem_distinct (s := ([], [])) (fun key hkey => nomatch hkey) (.inl h)
  exact ⟨m, mem_reverse.mpr hm, hlower⟩

/-- Among the supertype names of `c` is one with this key. -/
def HasSupertype (f : Forest) (c : NodeId) (key : String) : Prop :=
  ∃ s ∈ f.supertypeNames c, declarationKey s = key

theorem declarationKey_congr {a b : String} (h : Text.lower a = Text.lower b) :
    declarationKey a = declarationKey b := by
  rw [declarationKey, ← Text.unrooted_lower, h, Text.unrooted_lower, declarationKey]

theorem hasSupertype_of_mem {name : String}
    (h : name ∈ f.parentNames c ++ f.interfaceNames c ++ f.traitNames c) : f.HasSupertype c (declarationKey name) := by
  obtain ⟨m, hm, hlower⟩ := exists_mem_distinctNames h
  exact ⟨m, hm, declarationKey_congr hlower⟩

/-- The names that link a declaration of the order of lookup to another one are reported. -/
theorem hasSupertype_of_parentNameNode? (hq : q ∈ c :: f.parentChain c) (hn : f.parentNameNode? q = some n)
    (hname : f.nameOf? n = some fqn) : f.HasSupertype c (declarationKey fqn) := by
  have hmem : fqn ∈ f.parentNames c :=
    mem_filterMap.mpr ⟨n, mem_filterMap.mpr ⟨q, hq, hn⟩, hname⟩
  exact hasSupertype_of_mem (mem_append_left _ (mem_append_left _ hmem))

theorem hasSupertype_of_distinct {nodes : List NodeId} {names : NodeId → List NodeId} (hq : q ∈ nodes)
    (hn : n ∈ names q) (hname : f.nameOf? n = some fqn)
    (hreported : distinctNames ((nodes.flatMap names).filterMap f.nameOf?) ⊆
      f.parentNames c ++ f.interfaceNames c ++ f.traitNames c) : f.HasSupertype c (declarationKey fqn) := by
  have hmem : fqn ∈ (nodes.flatMap names).filterMap f.nameOf? :=
    mem_filterMap.mpr ⟨n, mem_flatMap.mpr ⟨q, hq, hn⟩, hname⟩
  obtain ⟨m, hm, hlower⟩ := exists_mem_distinctNames hmem
  rw [← declarationKey_congr hlower]
  exact hasSupertype_of_mem (hreported hm)

/-! ## The order of lookup -/

theorem mem_classesAndTraits {p : NodeId} (hp : p ∈ c :: f.parentChain c) (hq : q ∈ p :: f.traitClosure p) :
    q ∈ f.classesAndTraits c :=
  mem_eraseDups.mpr (mem_flatMap.mpr ⟨p, hp, hq⟩)

theorem isName_of_mem_namesWithRole {role : NameRole} (h : n ∈ f.namesWithRole q role) :
    ∃ text role, f.kind n = .name text role := by
  have hkind := (mem_filter.mp h).2
  cases hk : f.kind n with
  | name text role => exact ⟨text, role, rfl⟩
  | _ => simp [hk] at hkind

/-- Every declaration in the order of lookup, apart from the first, is linked from a name that is reported. -/
theorem exists_name_of_mem_lookupOrder (h : d ∈ f.lookupOrder c) (hne : d ≠ c) :
    ∃ n text role, f.kind n = .name text role ∧ f.declaration n = some d ∧
      ∀ fqn, f.nameOf? n = some fqn → f.HasSupertype c (declarationKey fqn) := by
  obtain hd | hd := mem_append.mp (mem_eraseDups.mp h)
  · obtain ⟨p, hp, hd⟩ := mem_flatMap.mp (mem_eraseDups.mp hd)
    obtain rfl | hd := mem_cons.mp hd
    · -- A parent.
      obtain rfl | hd := mem_cons.mp hp
      · exact absurd rfl hne
      · obtain ⟨q, hq, hparent⟩ := mem_parentChain hd
        obtain ⟨n, hn, hdecl⟩ := Option.bind_eq_some_iff.mp hparent
        have hrole : n ∈ f.namesWithRole q .extends := by
          unfold parentNameNode? at hn
          split at hn
          · exact mem_of_mem_head? hn
          · cases hn
        obtain ⟨text, role, hk⟩ := isName_of_mem_namesWithRole hrole
        exact ⟨n, text, role, hk, hdecl, fun fqn hfqn => hasSupertype_of_parentNameNode? hq hn hfqn⟩
    · -- A trait of the declaration or of one of its parents.
      obtain ⟨q, hq, hd⟩ := mem_traitClosure hd
      obtain ⟨n, hn, hdecl⟩ := mem_filterMap.mp hd
      obtain ⟨u, -, hrole⟩ := mem_flatMap.mp hn
      obtain ⟨text, role, hk⟩ := isName_of_mem_namesWithRole hrole
      exact ⟨n, text, role, hk, hdecl, fun fqn hfqn =>
        hasSupertype_of_distinct (mem_classesAndTraits hp hq) hn hfqn fun m hm => mem_append_right _ hm⟩
  · -- An interface.
    obtain ⟨q, hq, hd⟩ := mem_interfaceClosure hd
    obtain ⟨n, hn, hdecl⟩ := mem_filterMap.mp hd
    have hq' : q ∈ f.classesAndTraits c ++ f.interfaceClosure c := by
      obtain hq | hq := mem_append.mp hq
      · exact mem_append_left _ (mem_classesAndTraits hq mem_cons_self)
      · exact mem_append_right _ hq
    have hrole : ∃ role, n ∈ f.namesWithRole q role := by
      unfold interfaceNameNodes at hn
      split at hn
      · exact ⟨_, hn⟩
      · exact ⟨_, hn⟩
      · cases hn
    obtain ⟨_, hrole⟩ := hrole
    obtain ⟨text, role, hk⟩ := isName_of_mem_namesWithRole hrole
    exact ⟨n, text, role, hk, hdecl, fun fqn hfqn =>
      hasSupertype_of_distinct hq' hn hfqn fun m hm => mem_append_left _ (mem_append_right _ hm)⟩

theorem findMember?_eq_some {p : NodeKind → Bool} {m : NodeId} (h : f.findMember? c p = some m) :
    ∃ owner ∈ f.lookupOrder c, m ∈ f.members owner ∧ p (f.kind m) = true := by
  obtain ⟨owner, howner, hm⟩ := exists_of_findSome?_eq_some h
  exact ⟨owner, howner, mem_of_find?_eq_some hm, find?_some (p := fun m => p (f.kind m)) hm⟩

end Forest

namespace Index

variable {x : Index} {c d : NodeId}

/-- The declaration has a qualified name, and `c` reports it as a supertype, case and leading separators aside. -/
def Reports (x : Index) (c d : NodeId) : Prop :=
  ∃ r, x.forest.resolvedName d = some r ∧ x.forest.HasSupertype c (declarationKey r)

theorem Built.reports_of_mem_lookupOrder {f : Forest} (h : Built f x) (hf : f.Unlinked)
    (hd : d ∈ x.forest.lookupOrder c) (hne : d ≠ c) : x.Reports c d := by
  obtain ⟨n, text, role, hk, hdecl, hreported⟩ := exists_name_of_mem_lookupOrder hd hne
  obtain ⟨-, r, fqn, hr, hname, hkey⟩ := h.key_of_declaration hf hk hdecl
  exact ⟨r, hr, hkey ▸ hreported fqn hname⟩

/-- Member lookup and supertype names see the same hierarchy, whatever the links are. Every declaration in which members
of `c` are looked up is `c` itself or a supertype that `c` reports by name; so a method or a constant that is found
belongs to one of those. -/
theorem lookup_sees_supertypes {forests : List Forest} (h : ofForests forests = .ok x)
    (hunlinked : ∀ f ∈ forests, f.Unlinked) (c : NodeId) :
    (∀ d ∈ x.forest.lookupOrder c, d ≠ c → x.Reports c d) ∧
    ∀ name m, x.forest.findMethod? c name = some m ∨ x.forest.findConstant? c name = some m →
      ∃ owner, m ∈ x.forest.members owner ∧ (owner = c ∨ x.Reports c owner) := by
  have hreports : ∀ d ∈ x.forest.lookupOrder c, d ≠ c → x.Reports c d :=
    fun d hd hne => (ofForests_built h).reports_of_mem_lookupOrder (joined_unlinked hunlinked) hd hne
  refine ⟨hreports, fun name m hm => ?_⟩
  obtain ⟨p, hm⟩ : ∃ p, x.forest.findMember? c p = some m := hm.elim (fun hm => ⟨_, hm⟩) (fun hm => ⟨_, hm⟩)
  obtain ⟨owner, howner, hmember, -⟩ := findMember?_eq_some hm
  exact ⟨owner, hmember, (em (owner = c)).imp_right (hreports owner howner)⟩

/-- Classes that extend each other, a trait that uses itself, and interfaces that extend each other. -/
def circularSupertypes : List (String × String) :=
  [("a.php", "<?php\nclass A extends \\b \x7b\x7d\n"),
    ("b.php", "<?php\nclass B extends A implements I \x7b use t; \x7d\n"),
    ("t.php", "<?php\ntrait T \x7b use T; function m() \x7b\x7d \x7d\n"),
    ("i.php", "<?php\ninterface I extends J, Gone \x7b\x7d\n"),
    ("j.php", "<?php\ninterface J extends I \x7b const K = 1; \x7d\n")]

theorem lookup_sees_circularSupertypes : let x := ofPrograms circularSupertypes
    x.forest.lookupOrder 1 = [1, 7, 13, 17, 22] ∧ x.forest.supertypeNames 1 = ["b", "A", "I", "J", "Gone", "t"] ∧
    x.Reports 1 7 ∧ x.Reports 1 13 ∧ x.Reports 1 17 ∧ x.Reports 1 22 ∧ x.forest.findMethod? 1 "M" = some 12 ∧
    ∃ owner, 12 ∈ x.forest.members owner ∧ (owner = 1 ∨ x.Reports 1 owner) := by
  have hfacts : let x := ofPrograms circularSupertypes
      x.forest.lookupOrder 1 = [1, 7, 13, 17, 22] ∧ x.forest.supertypeNames 1 = ["b", "A", "I", "J", "Gone", "t"] ∧
        x.forest.findMethod? 1 "M" = some 12 := by
    decide +kernel
  obtain ⟨horder, hnames, hmethod⟩ := hfacts
  obtain ⟨hreports, hmember⟩ :=
    lookup_sees_supertypes (ofForests_ofPrograms circularSupertypes) unlinked_of_mem_forestsOf 1
  rw [horder] at hreports
  exact ⟨horder, hnames, hreports 7 (by decide) (by decide), hreports 13 (by decide) (by decide),
    hreports 17 (by decide) (by decide), hreports 22 (by decide) (by decide), hmethod, hmember "M" 12 (.inl hmethod)⟩

end Index

end EventAtlas
