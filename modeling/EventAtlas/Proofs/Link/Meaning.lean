import EventAtlas.Proofs.Index.Table
import Mathlib.Data.String.Basic

/-!
# What a name means at its place

The walk that names a forest folds imports into tables as it meets them. Here a scope is described by its look-ups
instead: its namespace is the one that its node opens, and an alias stands for what the last import with this alias
names (`NameScope.Means`). The imports that count for a name are those that have the same nearest file or namespace
around them and stand before the name; for a recorded scope they are all that have it around them
(`Forest.resolveNames_means`). A class around is known by its own qualified name and by the class that it extends, read
where the class stands (`Naming.ClassAround.Means`). On ASCII names no test for the keyword `namespace` cuts a
character.
-/

namespace EventAtlas

open List Forest

/-! ## Imports by alias -/

/-- How an alias is looked up: constants exactly, everything else without regard to ASCII case. -/
def ImportKind.key : ImportKind → String → String
  | constant, short => short
  | _, short => Text.lower short

namespace NameScope

/-- The imports of one kind. -/
def table (s : NameScope) : ImportKind → Sorted String String
  | .classLike => s.classes
  | .function => s.functions
  | .constant => s.constants

theorem table_addImport (s : NameScope) (kind other : ImportKind) (name short : String) :
    (s.addImport kind name short).table other =
      if kind = other then (s.table other).insert (kind.key short) (Text.unrooted name) else s.table other := by
  cases kind <;> cases other <;> rfl

theorem current_addImport (s : NameScope) (kind : ImportKind) (name short : String) :
    (s.addImport kind name short).current = s.current := by
  cases kind <;> rfl

end NameScope

namespace Forest

variable {f g : Forest} {id n s : NodeId}

/-- The namespace that a file or namespace opens. -/
def namespaceOf (f : Forest) (id : NodeId) : String :=
  match f.kind id with
  | .namespaceDecl name => Text.dropBoth Text.isSeparator name
  | _ => ""

/-- The key and the target with which a node imports something of a kind. -/
def importOf? (f : Forest) (kind : ImportKind) (id : NodeId) : Option (String × String) :=
  match f.kind id with
  | .importDecl k name short => if k = kind then some (k.key short, Text.unrooted name) else none
  | _ => none

/-- What the last of some imports with a key names. -/
def importedAs? (f : Forest) (uses : List NodeId) (kind : ImportKind) (key : String) : Option String :=
  ((uses.filterMap (f.importOf? kind)).reverse.find? fun e => e.1 == key).map Prod.snd

/-- The imports among `seen` that have `s` as the nearest file or namespace around. -/
def usesOf (f : Forest) (seen : List NodeId) (s : NodeId) : List NodeId :=
  seen.filter fun u => (f.kind u).isImport && f.opener? u == some s

end Forest

/-- The scope is the one that `s` opens, with the imports `uses`: an alias stands for what the last of them names. -/
structure NameScope.Means (f : Forest) (s : NodeId) (uses : List NodeId) (scope : NameScope) : Prop where
  node : scope.node = s
  current : scope.current = f.namespaceOf s
  imports : ∀ kind key, (scope.table kind).find? key = f.importedAs? uses kind key

namespace Forest

variable {f g : Forest} {id n s : NodeId}

theorem table_addUse (f : Forest) (scope : NameScope) (id : NodeId) (kind : ImportKind) :
    (f.addUse scope id).table kind =
      (f.importOf? kind id).toList.foldl (fun m e => m.insert e.1 e.2) (scope.table kind) := by
  unfold addUse importOf?
  cases f.kind id with
  | importDecl k name short =>
    simp only [NameScope.table_addImport]
    by_cases hkind : k = kind <;> simp [hkind]
  | _ => rfl

theorem table_foldl_addUse (f : Forest) (uses : List NodeId) (scope : NameScope) (kind : ImportKind) :
    (uses.foldl f.addUse scope).table kind =
      (uses.filterMap (f.importOf? kind)).foldl (fun m e => m.insert e.1 e.2) (scope.table kind) := by
  induction uses generalizing scope with
  | nil => rfl
  | cons u rest ih =>
    rw [foldl_cons, ih, table_addUse, filterMap_cons]
    cases f.importOf? kind u <;> rfl

theorem current_addUse (f : Forest) (scope : NameScope) (id : NodeId) :
    (f.addUse scope id).current = scope.current := by
  unfold addUse
  split
  · exact NameScope.current_addImport ..
  · rfl

theorem current_scopeWith (f : Forest) (seen : List NodeId) (s : NodeId) :
    (f.scopeWith seen s).current = f.namespaceOf s := by
  have hopened : (f.scopeOpened s).current = f.namespaceOf s := by
    unfold scopeOpened namespaceOf
    cases f.kind s <;> rfl
  refine List.foldlRecOn (motive := fun scope : NameScope => scope.current = f.namespaceOf s) _ f.addUse hopened ?_
  intro scope hscope u _
  rw [current_addUse, hscope]

theorem table_scopeOpened (f : Forest) (s : NodeId) (kind : ImportKind) : (f.scopeOpened s).table kind = {} := by
  unfold scopeOpened
  split <;> cases kind <;> rfl

/-- What is no import adds nothing to the tables of a scope. -/
theorem filterMap_importOf?_usesOf (f : Forest) (seen : List NodeId) (s : NodeId) (kind : ImportKind) :
    (f.usesOf seen s).filterMap (f.importOf? kind) =
      (seen.filter fun u => f.opener? u == some s).filterMap (f.importOf? kind) := by
  have hnone : ∀ u, (if (f.kind u).isImport = true then f.importOf? kind u else none) = f.importOf? kind u := by
    intro u
    unfold importOf?
    cases f.kind u <;> rfl
  rw [usesOf, ← filter_filter, filterMap_filter, funext hnone]

/-- A scope with imports folded in means what its imports say. -/
theorem scopeWith_means (f : Forest) (seen : List NodeId) (s : NodeId) :
    (f.scopeWith seen s).Means f s (f.usesOf seen s) := by
  refine ⟨node_scopeWith f seen s, current_scopeWith f seen s, fun kind key => ?_⟩
  rw [scopeWith, table_foldl_addUse, table_scopeOpened, Sorted.find?_foldl_insert, ← filterMap_importOf?_usesOf]
  exact Option.or_none

/-! ## Places below files -/

/-- Every node below a root has the root in its lineage. -/
theorem Linked.exists_root_mem_lineage (h : f.Linked) (hid : id ∈ f.reached) :
    ∃ root ∈ f.roots, root ∈ f.lineage id := by
  refine h.reached_induction (fun root hroot => ?_) (fun a ha ih c hc => ?_) hid
  · exact ⟨root, hroot, by rw [h.lineage_root hroot]; exact mem_singleton_self root⟩
  · obtain ⟨root, hroot, hmem⟩ := ih
    rw [h.lineage_child ha hc]
    exact ⟨root, hroot, mem_cons_of_mem c hmem⟩

/-- Below the root of a file there is always a file or namespace around. -/
theorem Linked.exists_opener? (h : f.Linked) (hroots : ∀ root ∈ f.roots, f.kind root = .file) (hid : id ∈ f.reached)
    (hkind : f.kind id ≠ .file) : ∃ s, f.opener? id = some s := by
  obtain ⟨root, hroot, hmem⟩ := h.exists_root_mem_lineage hid
  rw [Linked.lineage_eq_cons] at hmem
  obtain rfl | hmem := mem_cons.mp hmem
  · exact absurd (hroots root hroot) hkind
  · rw [← Option.isSome_iff_exists, opener?, enclosing?, find?_isSome]
    exact ⟨root, hmem, by rw [hroots root hroot]; rfl⟩

theorem scopeAt_of_opener? (h : f.opener? id = some s) : f.scopeAt id = f.scopeWith (f.before id) s := by
  rw [scopeAt, h]
  rfl

end Forest

/-- The class is known as the class-like `c` of `f` is inside of it: by its qualified name, which is also what is
written into it, and by the class that it extends, both read in the scope where it stands. -/
structure Naming.ClassAround.Means (f : Forest) (c : NodeId) (around : Naming.ClassAround) : Prop where
  written : f.resolveNames.resolvedName c = some around.name
  read : ∃ s scope, f.opener? c = some s ∧ NameScope.Means f s (f.usesOf (f.before c) s) scope ∧
    around.name = scope.qualify ((f.kind c).name?.getD "") ∧ around.parent = Naming.parentName? f scope c

namespace Forest

variable {f g : Forest} {id n c s : NodeId} {text : String}

theorem nameAt_of_isClassLike (h : (f.kind c).isClassLike = true) : f.nameAt c = some (f.classAt c).name := by
  unfold nameAt classAt
  cases hk : f.kind c <;> first | rfl | (rw [hk] at h; cases h)

theorem classAt_means (h : f.Linked) (hroots : ∀ root ∈ f.roots, f.kind root = .file) (hc : c ∈ f.reached)
    (hclass : (f.kind c).isClassLike = true) : (f.classAt c).Means f c := by
  have hfile : f.kind c ≠ .file := fun hk => by rw [hk] at hclass; cases hclass
  obtain ⟨s, hs⟩ := h.exists_opener? hroots hc hfile
  refine ⟨?_, s, f.scopeAt c, hs, ?_, rfl, rfl⟩
  · rw [(resolveNames_named h).name, if_pos hc, nameAt_of_isClassLike hclass]
  · rw [scopeAt_of_opener? hs]
    exact scopeWith_means ..

/-! ## ASCII names -/

end Forest

/-- A name, if the node is one, is made of ASCII characters. -/
def NodeKind.hasAsciiName : NodeKind → Bool
  | name text _ => text.toList.all fun c => c.val ≤ 127
  | _ => true

namespace NameScope

theorem utf8ByteSize_of_ascii {l : List Char} (h : ∀ c ∈ l, c.val ≤ 127) :
    (String.ofList l).utf8ByteSize = l.length := by
  rw [String.utf8ByteSize_ofList]
  induction l with
  | nil => rfl
  | cons c rest ih =>
    obtain ⟨hc, hrest⟩ := forall_mem_cons.mp h
    rw [String.utf8Len_cons, ih hrest, Char.utf8Size_eq_one_iff.mpr hc, length_cons]

/-- An ASCII name is cut between characters wherever it is cut. -/
theorem isDivisible_of_ascii {name : String} (h : ∀ c ∈ name.toList, c.val ≤ 127) : isDivisible name = true := by
  have hsize : name.utf8ByteSize = name.toList.length := by
    conv_lhs => rw [← String.ofList_toList (s := name)]
    exact utf8ByteSize_of_ascii h
  obtain hlt | hle := Nat.lt_or_ge keywordBytes name.utf8ByteSize
  · have hcut : (String.ofList (name.toList.take keywordBytes)).utf8ByteSize = keywordBytes := by
      rw [utf8ByteSize_of_ascii fun c hc => h c (mem_of_mem_take hc), length_take]
      omega
    rw [isDivisible, Bool.or_eq_true]
    refine .inr (any_eq_true.mpr ⟨keywordBytes, self_mem_range_succ, ?_⟩)
    rw [hcut, beq_self_eq_true]
  · simp [isDivisible, hle]

theorem mem_of_mem_trim {text : String} {c : Char} (h : c ∈ (Text.trim text).toList) : c ∈ text.toList := by
  simp only [Text.trim, Text.dropBoth, Text.dropLeft, Text.dropRight, String.toList_ofList, mem_reverse] at h
  have hmem := (dropWhile_suffix _).subset h
  exact (dropWhile_suffix _).subset (mem_reverse.mp hmem)

theorem refusesClass_of_ascii {text : String} (h : ∀ c ∈ text.toList, c.val ≤ 127) : refusesClass text = false := by
  have htrim : ∀ c ∈ (Text.trim text).toList, c.val ≤ 127 := fun c hc => h c (mem_of_mem_trim hc)
  simp [refusesClass, isDivisible_of_ascii htrim]

end NameScope

namespace Forest

variable {f g : Forest}

/-- The pass that names a forest gives every name its meaning. In a forest whose parents are linked, whose roots are
files and whose names are ASCII, a name means what its text means for its role, in the namespace of the nearest file or
namespace around it, with the imports that have the same one around them and stand before it, and inside of the nearest
class around it; and the scope recorded for a file or namespace has all imports of it. -/
theorem resolveNames_means (hlink : f.linkParents = .ok g) (hroots : ∀ root ∈ g.roots, g.kind root = .file)
    (hascii : ∀ id ∈ g.reached, (g.kind id).hasAsciiName = true) :
    (∀ n ∈ g.reached, ∀ text role, g.kind n = .name text role →
      NameScope.refusesClass text = false ∧
      ∃ s scope, g.opener? n = some s ∧ NameScope.Means g s (g.usesOf (g.before n) s) scope ∧
      ∃ around : Option Naming.ClassAround,
        (∀ c, g.enclosingClass? n = some c → ∃ a, around = some a ∧ a.Means g c) ∧
        (g.enclosingClass? n = none → around = none) ∧
        g.resolveNames.resolvedName n = some (Naming.qualified scope around text role)) ∧
    (∀ s ∈ g.reached, (g.kind s).opensScope = true →
      ∃ scope, g.resolveNames.nameScope? s = some scope ∧ NameScope.Means g s (g.usesOf g.reached s) scope) := by
  have hlinked : g.Linked := (linkParents_ok hlink).linked
  have hnamed := resolveNames_named hlinked
  refine ⟨fun n hn text role hk => ⟨?_, ?_⟩, fun s hs hopens => ⟨g.scopeWith g.reached s, ?_, scopeWith_means ..⟩⟩
  · have hname := hascii n hn
    rw [hk] at hname
    exact NameScope.refusesClass_of_ascii fun c hc => by simpa using List.all_eq_true.mp hname c hc
  · obtain ⟨s, hs⟩ := hlinked.exists_opener? hroots hn (by rw [hk]; exact NodeKind.noConfusion)
    refine ⟨s, g.scopeWith (g.before n) s, hs, scopeWith_means .., g.classAround? n, ?_, ?_, ?_⟩
    · intro c hc
      obtain ⟨hreached, hclass⟩ := hlinked.enclosingClass?_reached hn hc
      exact ⟨g.classAt c, by rw [classAround?, hc]; rfl, classAt_means hlinked hroots hreached hclass⟩
    · intro hnone
      rw [classAround?, hnone]
      rfl
    · rw [hnamed.name, if_pos hn, nameAt, hk, scopeAt_of_opener? hs]
  · rw [hnamed.nameScope, if_pos ⟨hs, hopens⟩]

/-- Two classes extend a name that is imported anew between them, and the second speaks of its parent. -/
def reimported : List (String × String) :=
  [("a.php", "<?php\nnamespace App;\nuse Lib\\Base;\nclass A extends Base \x7b\x7d\nuse Other\\Base;\n" ++
    "class B extends Base \x7b function f(): parent \x7b\x7d \x7d\n")]

theorem resolveNames_means_reimported : ∃ g s scope around,
    (Index.joined (Index.forestsOf (Index.sourcesOf reimported))).linkParents = .ok g ∧
    (∀ root ∈ g.roots, g.kind root = .file) ∧ (∀ id ∈ g.reached, (g.kind id).hasAsciiName = true) ∧
    g.kind 5 = .name "parent" .typeHint ∧ g.usesOf (g.before 1) s = [0] ∧ g.usesOf (g.before 5) s = [0, 3] ∧
    g.opener? 5 = some s ∧ NameScope.Means g s [0, 3] scope ∧ around.Means g 8 ∧
    g.resolveNames.resolvedName 5 = some (Naming.qualified scope (some around) "parent" .typeHint) := by
  obtain ⟨g, hg⟩ :=
    (Index.joined_orderly (@Index.orderly_of_mem_forestsOf (Index.sourcesOf reimported))).linkParents_isOk
  have hfacts : let g := (Index.joined (Index.forestsOf (Index.sourcesOf reimported))).linkParents.toOption.getD {}
      (∀ root ∈ g.roots, g.kind root = .file) ∧ (∀ id ∈ g.reached, (g.kind id).hasAsciiName = true) ∧ 5 ∈ g.reached ∧
      g.kind 5 = .name "parent" .typeHint ∧ g.usesOf (g.before 1) 9 = [0] ∧ g.usesOf (g.before 5) 9 = [0, 3] ∧
      g.opener? 5 = some 9 ∧ g.enclosingClass? 5 = some 8 := by
    decide +kernel
  rw [hg] at hfacts
  obtain ⟨hroots, hascii, hmem, hkind, hfirst, huses, hopener, hclass⟩ := hfacts
  obtain ⟨-, s, scope, hs, hscope, around, haround, -, hname⟩ :=
    (resolveNames_means hg hroots hascii).1 5 hmem "parent" .typeHint hkind
  obtain rfl : 9 = s := Option.some.inj (hopener.symm.trans hs)
  obtain ⟨a, rfl, ha⟩ := haround 8 hclass
  exact ⟨g, 9, scope, a, hg, hroots, hascii, hkind, hfirst, huses, hs, huses ▸ hscope, ha, hname⟩

end Forest

end EventAtlas
