import EventAtlas.Proofs.Hierarchy.Supertypes
import EventAtlas.Proofs.Inference.BoundTypes
import EventAtlas.Proofs.Link.Meaning
import EventAtlas.Proofs.Text

/-!
# Types that a program gives by itself

Some types are found without inference: those of class-likes, of names, of `$this` and of documentation. Where the
names of class-likes and namespaces are plain, all of these are bound: they point at a declaration only if they have
its name (`Index.Built.bindsGiven`).

A declaration is found under a key without leading separators, and the type is kept under a normal form of the written
name, from which blanks go before separators do. The two differ for a name with a separator in front of a blank. No
such name is looked up. A qualified name starts with a separator only if the name it comes from has two of them, or
none before an import of nothing; names in documentation have no blanks, and every other name of a known class is
linked where it stands, so that the type has the name of the declaration itself.
-/

namespace EventAtlas

open List

/-! ## Texts -/

namespace Text

variable {a b s : String} {c : Char} {p : Char → Bool}

theorem mem_of_mem_dropLeft (h : c ∈ (dropLeft p s).toList) : c ∈ s.toList := by
  rw [dropLeft, String.toList_ofList] at h
  exact (dropWhile_sublist p).subset h

theorem mem_of_mem_dropBoth (h : c ∈ (dropBoth p s).toList) : c ∈ s.toList := by
  rw [dropBoth, dropRight, String.toList_ofList, mem_reverse] at h
  exact mem_of_mem_dropLeft (mem_reverse.mp ((dropWhile_sublist p).subset h))

/-- Separators that stand in front of nothing are not there any more. -/
theorem unrooted_dropBoth (s : String) : unrooted (dropBoth isSeparator s) = dropBoth isSeparator s := by
  rw [unrooted_eq_self_iff]
  intro c hc
  have hprefix : (dropBoth isSeparator s).toList <+: (unrooted s).toList := by
    rw [dropBoth, dropRight, String.toList_ofList]
    exact rdropWhile_prefix _ _
  obtain ⟨rest, hrest⟩ := hprefix
  refine unrooted_eq_self_iff.mp (unrooted_unrooted s) c ?_
  rw [← hrest, head?_append, hc]
  rfl

/-- Characters of names and separators only. -/
def Plain (s : String) : Prop :=
  ∀ c ∈ s.toList, isSeparator c = true ∨ isNameChar c = true

instance : DecidablePred Plain :=
  fun s => decidable_of_iff (s.toList.all fun c => isSeparator c || isNameChar c) (by simp [Plain])

theorem Plain.append (ha : Plain a) (hb : Plain b) : Plain (a ++ b) := by
  intro c hc
  rw [String.toList_append, mem_append] at hc
  exact hc.elim (ha c) (hb c)

theorem Plain.ne_bracket (h : Plain s) (hc : c ∈ s.toList) : c ≠ '<' ∧ c ≠ ']' := by
  have hnot : ∀ d, (isSeparator d || isNameChar d) = false → c ≠ d := by
    rintro d hd rfl
    rw [Bool.or_eq_false_iff] at hd
    obtain hsep | hname := h c hc
    · cases hd.1.symm.trans hsep
    · cases hd.2.symm.trans hname
  exact ⟨hnot '<' rfl, hnot ']' rfl⟩

theorem isSeparator_of_isNameChar (h : isNameChar c = true) : isSeparator c = false := by
  by_contra hsep
  rw [beq_iff_eq.mp (Bool.of_not_eq_false hsep)] at h
  cases h

theorem plain_of_isIdentifier (h : isIdentifier s.toList = true) : Plain s :=
  fun c hc => .inr (isNameChar_of_mem_identifier h c hc)

theorem unrooted_of_isIdentifier (h : isIdentifier s.toList = true) : unrooted s = s :=
  unrooted_eq_self_iff.mpr fun c hc =>
    isSeparator_of_isNameChar (isNameChar_of_mem_identifier h c (mem_of_mem_head? hc))

theorem ne_empty_of_isIdentifier (h : isIdentifier s.toList = true) : s ≠ "" := by
  rintro rfl
  cases h

/-! ### Unbroken names -/

theorem Unbroken.append (ha : Unbroken a) (hb : Unbroken b) : Unbroken (a ++ b) := by
  intro c hc
  rw [String.toList_append, mem_append] at hc
  exact hc.elim (ha c) (hb c)

/-- The name has no separator in front of a blank. -/
def Clear (s : String) : Prop :=
  unrooted s = s ∨ Unbroken s

theorem Clear.append (ha : unrooted a = a) (hb : Unbroken b) : Clear (a ++ b) := by
  by_cases hne : a = ""
  · rw [hne, String.empty_append]
    exact .inr hb
  · exact .inl (unrooted_append ha hne b)

end Text

/-! ## Normal forms -/

namespace Typing

open Text

variable {a b : String}

theorem lower_normalize_congr (h : lower a = lower b) : lower (normalize a) = lower (normalize b) := by
  have htrim : lower (trim a) = lower (trim b) := by rw [← trim_lower, h, trim_lower]
  have hkey : lower (unrooted (trim a)) = lower (unrooted (trim b)) := by rw [← unrooted_lower, htrim, unrooted_lower]
  simp only [normalize, native?_congr hkey]
  cases native? (trim b) with
  | some n => rw [Option.getD_some, Option.getD_some]
  | none => simp only [Option.getD_none, hkey]

theorem startsSolid_of_isNative (h : isNative a = true) : startsSolid (unrooted a) = true := by
  have hnames : ∀ n ∈ nativeNames ++ nativeAliases.map Prod.fst, startsSolid n = true := by decide
  obtain ⟨n, hn⟩ := Option.isSome_iff_exists.mp h
  rw [← startsSolid_lower]
  refine hnames _ (mem_append.mpr ?_)
  unfold native? at hn
  dsimp only at hn
  split at hn
  · next hmem => exact .inl (contains_iff_mem.mp hmem)
  · obtain ⟨l₁, l₂, hsplit, -⟩ := lookup_eq_some_iff.mp hn
    refine .inr (mem_map.mpr ⟨(lower (unrooted a), n), ?_, rfl⟩)
    rw [hsplit]
    exact mem_append_right _ mem_cons_self

/-- The type of a plain name has the normal form of the name as its base name. -/
theorem baseName_named (h : Plain a) : (Ty.named a).baseName = normalize a := by
  have hnative : ∀ n ∈ nativeNames, Plain n := by decide
  have hname : (Ty.named a).name = normalize a := by simp only [Ty.named]
  rw [Ty.baseName_of_forall_ne, hname]
  intro c hc
  simp only [hname, normalize] at hc
  cases hn : native? (trim a) with
  | some n =>
    rw [hn, Option.getD_some] at hc
    exact (hnative n (mem_nativeNames_of_native? hn)).ne_bracket hc
  | none =>
    rw [hn, Option.getD_none, unrooted] at hc
    have htrim := mem_of_mem_dropLeft hc
    rw [trim] at htrim
    exact h.ne_bracket (mem_of_mem_dropBoth htrim)

end Typing

/-! ## Qualified names -/

open Text

namespace NameScope

variable {s : NameScope} {name : String}

theorem mem_of_strip? {head rest : String} (h : strip? head name = some rest) {c : Char} (hc : c ∈ rest.toList) :
    c ∈ name.toList := by
  have hstrip (head text rest : List Char) (h : stripChars? head text = some rest) : rest ⊆ text := by
    induction head generalizing text with
    | nil => exact Option.some.inj h ▸ List.Subset.refl _
    | cons d head ih =>
      cases text with
      | nil => cases h
      | cons e text =>
        rw [stripChars?] at h
        split at h
        · exact subset_cons_of_subset e (ih text h)
        · cases h
  obtain ⟨cs, hcs, rfl⟩ := Option.map_eq_some_iff.mp h
  rw [String.toList_ofList] at hc
  exact hstrip _ _ _ hcs hc

theorem mem_of_relative? {rest : String} (h : relative? name = some rest) {c : Char} (hc : c ∈ rest.toList) :
    c ∈ name.toList := by
  unfold relative? at h
  split at h
  · dsimp only at h
    split at h
    · cases h
    · rw [← Option.some.inj h, String.toList_ofList] at hc
      exact mem_of_mem_drop hc
  · cases h

theorem mem_of_splitFirst? {p : Char → Bool} {first rest : String} (h : splitFirst? p name = some (first, rest))
    {c : Char} (hc : c ∈ rest.toList) : c ∈ name.toList := by
  unfold splitFirst? at h
  split at h
  · cases h
  · next hdrop =>
    obtain ⟨-, rfl⟩ := Prod.mk.inj (Option.some.inj h)
    rw [String.toList_ofList] at hc
    exact (dropWhile_sublist _).subset (hdrop ▸ mem_cons_of_mem _ hc)

theorem clear_qualify (hcurrent : unrooted s.current = s.current) (hname : Unbroken name) : Clear (s.qualify name) := by
  unfold qualify
  split
  · exact .inr hname
  · rw [String.append_assoc]
    exact .append hcurrent (.append (by decide) hname)

/-- The qualified name of a class whose written name has no blanks is clear. -/
theorem clear_resolveClass (hcurrent : unrooted s.current = s.current)
    (hclasses : ∀ key target, s.classes.find? key = some target → unrooted target = target) (hname : Unbroken name) :
    Clear (s.resolveClass name) := by
  have htrim : Unbroken (trim name) := fun c hc => hname c (mem_of_mem_dropBoth (by rwa [trim] at hc))
  unfold resolveClass
  generalize trim name = n at htrim
  dsimp only
  split
  · exact .inl rfl
  split
  · next rest hrest => exact .inr fun c hc => htrim c (mem_of_strip? hrest hc)
  split
  · next native hnative =>
    have hnames : ∀ n ∈ Typing.nativeNames, unrooted n = n := by decide
    exact .inl (hnames native (Typing.mem_nativeNames_of_native? hnative))
  split
  · next rest hrest => exact clear_qualify hcurrent fun c hc => htrim c (mem_of_relative? hrest hc)
  split
  · next first rest hsplit =>
    split
    · next target htarget =>
      have hrest : Unbroken rest := fun c hc => htrim c (mem_of_splitFirst? hsplit hc)
      rw [String.append_assoc]
      exact .append (hclasses _ target htarget) (.append (by decide) hrest)
    · exact clear_qualify hcurrent htrim
  · cases hfound : s.classes.find? (lower n) with
    | some target => exact .inl (hclasses _ target hfound)
    | none => exact clear_qualify hcurrent htrim

end NameScope

/-- The class-like has an identifier as its name, the namespace has characters of names and separators. -/
def NodeKind.declaresPlainName : NodeKind → Bool
  | classDecl n _ | interfaceDecl n | traitDecl n => isIdentifier n.toList
  | namespaceDecl n => n.toList.all fun c => isSeparator c || isNameChar c
  | _ => true

theorem NodeKind.isIdentifier_of_declaresPlainName {k : NodeKind} (hclass : k.isClassLike = true)
    (h : k.declaresPlainName = true) : isIdentifier (k.name?.getD "").toList = true := by
  cases k with
  | classDecl | interfaceDecl | traitDecl => exact h
  | _ => cases hclass

namespace Forest

variable {f : Forest} {id s : NodeId}

/-- The name of a class in an expression stands where it is looked up: in a new object, an access to something static or
a test. -/
def IsClassPlace (f : Forest) (id : NodeId) : Prop :=
  (∃ p, f.parent id = some p ∧ f.kind p = .instanceof) ∨
    ∃ site, (f.kind site).namesClassFirst = true ∧ f.firstChild? site = some id

theorem unrooted_namespaceOf (f : Forest) (s : NodeId) : unrooted (f.namespaceOf s) = f.namespaceOf s := by
  unfold namespaceOf
  split
  · exact unrooted_dropBoth _
  · rfl

theorem plain_namespaceOf (h : (f.kind s).declaresPlainName = true) : Plain (f.namespaceOf s) := by
  unfold namespaceOf
  split
  · next name hk =>
    rw [hk, NodeKind.declaresPlainName, all_eq_true] at h
    exact fun c hc => Bool.or_eq_true_iff.mp (h c (mem_of_mem_dropBoth hc))
  · exact fun c hc => nomatch hc

theorem current_scopeAt (f : Forest) (id : NodeId) :
    (f.scopeAt id).current = "" ∨ ∃ s, (f.scopeAt id).current = f.namespaceOf s := by
  cases hs : f.opener? id with
  | none =>
    left
    rw [scopeAt, hs]
    rfl
  | some s => exact .inr ⟨s, by rw [scopeAt_of_opener? hs, current_scopeWith]⟩

/-- Imported names do not start with a separator. -/
theorem unrooted_of_importedAs? {uses : List NodeId} {kind : ImportKind} {key target : String}
    (h : f.importedAs? uses kind key = some target) : unrooted target = target := by
  obtain ⟨e, he, rfl⟩ := Option.map_eq_some_iff.mp h
  obtain ⟨u, -, hu⟩ := mem_filterMap.mp (mem_reverse.mp (mem_of_find?_eq_some he))
  unfold importOf? at hu
  split at hu
  · split at hu
    · rw [← Option.some.inj hu]
      exact unrooted_unrooted _
    · cases hu
  · cases hu

end Forest

/-! ## What a built index gives -/

namespace Index

open Forest

/-- What the program says about types by itself is bound: the types of names, of documentation, of the class around, and
of `$this`. -/
structure BindsGiven (x : Index) : Prop where
  name : ∀ node text role, x.forest.kind node = .name text role → x.BindsAll (x.nameTypes node text role)
  doc : ∀ node, ∀ doc : DocType, doc.AllNames Unbroken → x.BindsAll (x.docTypes node doc)
  enclosing : ∀ node t, x.enclosingType? node = some t → x.Binds t
  this : ∀ node t, x.thisType? node = some t → x.Binds t

namespace Built

variable {f : Forest} {x : Index} {id d n : NodeId} {r fqn text : String} {role : NameRole}

section Names

variable (h : Built f x) (hf : f.Unlinked)
include h hf

/-- Whatever has a qualified name because it is a class-like is below a file. -/
theorem reached_of_resolvedName (hr : x.forest.resolvedName d = some r) : d ∈ x.forest.reached := by
  obtain ⟨linked, named, hlinked, hnamed, hsame, -⟩ := h.exists_passes
  by_contra hout
  rw [(hnamed.places.trans hsame.places).reached] at hout
  rw [hsame.resolvedName, hnamed.name, if_neg hout, hlinked.same.resolvedName, hf.resolvedName] at hr
  cases hr

/-- References lead to class-likes. -/
theorem isClassLike_of_declaration (hd : x.forest.declaration n = some d) : (x.forest.kind d).isClassLike = true := by
  have hunit := @Built.unit f x h
  obtain ⟨linked, named, hlinked, hnamed, hsame, hrefs⟩ := h.exists_passes
  have hdeclares :
      Declares (fun d => (x.forest.kind d).isClassLike = true) (named.linkReferences x.declaration?).2 := by
    refine Declares.linkReferences (fun fqn t ht => ?_) (fun y c hc => ?_) fun y t ht => ?_
    · obtain ⟨u, hu, rfl, -⟩ := exists_unit_of_declaration? ht
      exact (hunit hu).2.1
    · have hclass := find?_some hc
      rwa [hsame.tree.kind]
    · rw [hnamed.declaration, hlinked.same.declaration, hf.declaration] at ht
      cases ht
  exact hdeclares n d (hrefs ▸ hd)

variable (hnames : ∀ id, (x.forest.kind id).declaresPlainName = true)
include hnames

section

variable (hclass : (x.forest.kind d).isClassLike = true) (hr : x.forest.resolvedName d = some r)
include hclass hr

/-- The qualified name of a class-like is plain and starts with a character of a name. -/
theorem plain_resolvedName : Plain r ∧ unrooted r = r ∧ r ≠ "" := by
  rw [h.resolvedName_of_isClassLike (h.reached_of_resolvedName hf hr) hclass] at hr
  have hid := NodeKind.isIdentifier_of_declaresPlainName hclass (hnames d)
  generalize (x.forest.kind d).name?.getD "" = name at hr hid
  rw [← Option.some.inj hr, NameScope.qualify]
  split
  · exact ⟨plain_of_isIdentifier hid, unrooted_of_isIdentifier hid, ne_empty_of_isIdentifier hid⟩
  · next hne =>
    have hne : (x.forest.scopeAt d).current ≠ "" := fun heq => hne (by rw [heq]; rfl)
    obtain hempty | ⟨s, hs⟩ := x.forest.current_scopeAt d
    · exact absurd hempty hne
    · rw [hs] at hne ⊢
      have hsep : Plain "\\" := by decide
      refine ⟨((plain_namespaceOf (hnames s)).append hsep).append (plain_of_isIdentifier hid), ?_, ?_⟩
      · rw [String.append_assoc]
        exact unrooted_append (unrooted_namespaceOf _ s) hne _
      · intro heq
        have hlist := congrArg String.toList heq
        simp at hlist

/-- A class-like is named as any name with the same normal form up to case. -/
theorem isNamed_declared (hlower : lower (Typing.normalize r) = lower (Typing.normalize fqn)) :
    x.IsNamed d (Ty.declared fqn d).baseName := by
  have hplain := (h.plain_resolvedName hf hnames hclass hr).1
  have hown : x.IsNamed d (Ty.named r).baseName :=
    ⟨hclass, r, hr, by rw [Typing.baseName_named hplain, sameLetters, beq_self_eq_true]⟩
  refine hown.congr (Ty.lower_baseName_congr ?_)
  simp only [Ty.declared, Ty.named, hlower]

theorem binds_declared
    (hlower : lower (Typing.normalize r) = lower (Typing.normalize fqn)) : x.Binds (.declared fqn d) := by
  have hnamed := h.isNamed_declared hf hnames hclass hr hlower
  refine binds_of_parts (fun d' hd => ?_) (fun k hk => ?_) fun e he => ?_
  · simp only [Ty.declared, Option.some.injEq] at hd
    exact hd ▸ hnamed
  · simp only [Ty.declared, Ty.named, reduceCtorEq] at hk
  · simp only [Ty.declared, Ty.named, reduceCtorEq] at he

omit hr in
/-- A class-like as a type is bound. -/
theorem binds_declaredType? {t : Ty} (ht : x.declaredType? d = some t) : x.Binds t := by
  obtain ⟨r, hr, rfl⟩ := Option.map_eq_some_iff.mp ht
  exact h.binds_declared hf hnames hclass hr rfl

end

/-- A name as a type is bound if what is known under it does not start with a blank, or if it has no separator in
front. -/
theorem binds_namedType
    (hfqn : ∀ u ∈ x.units, u.key = declarationKey fqn → startsSolid u.fqn = true ∨ unrooted fqn = fqn) :
    x.Binds (x.namedType fqn) := by
  unfold namedType
  split
  · next d hd =>
    obtain ⟨u, hu, rfl, hkey⟩ := exists_unit_of_declaration? hd
    obtain ⟨-, hclass, hr⟩ := h.unit hu
    have hroot := (h.plain_resolvedName hf hnames hclass hr).2.1
    have hkey' : lower (unrooted u.fqn) = lower (unrooted fqn) := hkey
    refine h.binds_declared hf hnames hclass hr ?_
    obtain hsolid | hunrooted := hfqn u hu hkey
    · have hsame := Typing.sameLetters_normalize (hroot.symm ▸ hsolid) hkey'
      rwa [sameLetters, beq_iff_eq] at hsame
    · rw [hroot, hunrooted] at hkey'
      exact Typing.lower_normalize_congr hkey'
  · exact binds_named x fqn

theorem startsSolid_of_key {u : ClassUnit} (hu : u ∈ x.units) (hkey : u.key = declarationKey fqn)
    (hsolid : unrooted fqn ≠ "" → startsSolid (unrooted fqn) = true) : startsSolid u.fqn = true := by
  obtain ⟨-, hclass, hr⟩ := h.unit hu
  obtain ⟨-, hroot, hne⟩ := h.plain_resolvedName hf hnames hclass hr
  have hkey' : lower (unrooted u.fqn) = lower (unrooted fqn) := hkey
  rw [hroot] at hkey'
  rw [← startsSolid_lower, hkey', startsSolid_lower]
  refine hsolid fun hempty => hne ?_
  rw [hempty] at hkey'
  have hlist := congrArg String.toList hkey'
  rw [toList_lower] at hlist
  exact String.toList_eq_nil_iff.mp (map_eq_nil_iff.mp hlist)

theorem binds_namedType_of_clear (hclear : Clear fqn) : x.Binds (x.namedType fqn) := by
  refine h.binds_namedType hf hnames fun u hu hkey => ?_
  obtain hroot | hunbroken := hclear
  · exact .inr hroot
  · refine .inl (h.startsSolid_of_key hf hnames hu hkey fun hne => Unbroken.startsSolid (fun c hc => ?_) hne)
    exact hunbroken c (mem_of_mem_dropLeft hc)

theorem binds_enclosingType? {t : Ty} (ht : x.enclosingType? n = some t) : x.Binds t := by
  obtain ⟨c, hc, ht⟩ := Option.bind_eq_some_iff.mp ht
  refine h.binds_declaredType? hf hnames ?_ ht
  split at hc
  · next hclass => exact Option.some.inj hc ▸ hclass
  · have hclass := find?_some hc
    exact hclass

theorem binds_thisType? {t : Ty} (ht : x.thisType? n = some t) : x.Binds t := by
  unfold thisType? at ht
  split at ht
  · next d hd => exact h.binds_declaredType? hf hnames (h.isClassLike_of_declaration hf hd) ht
  · exact h.binds_enclosingType? hf hnames ht

/-! ### Documentation -/

omit hnames in
theorem clear_resolveClass {scope : NameScope} (hscope : x.forest.nameScopeFor? n = some scope)
    (htext : Unbroken text) : Clear (scope.resolveClass text) := by
  obtain ⟨a, -, ha⟩ := exists_of_findSome?_eq_some hscope
  have hmem : scope ∈ x.forest.nameScopes := mem_reverse.mp (mem_of_find?_eq_some ha)
  obtain hold | ⟨s, -, rfl⟩ := h.recorded scope hmem
  · rw [hf.nameScopes] at hold
    cases hold
  · have hmeans := x.forest.scopeWith_means x.forest.reached s
    refine NameScope.clear_resolveClass ?_ (fun key target htarget => ?_) htext
    · rw [hmeans.current]
      exact unrooted_namespaceOf _ s
    · exact unrooted_of_importedAs? ((hmeans.imports .classLike key).symm.trans htarget)

theorem binds_docNameType (htext : Unbroken text) :
    x.Binds (x.docNameType (x.forest.nameScopeFor? n) (x.enclosingType? n) text) := by
  unfold docNameType
  dsimp only
  split
  · cases ht : x.enclosingType? n with
    | none => exact binds_named x _
    | some t => exact h.binds_enclosingType? hf hnames ht
  split
  · exact binds_named x _
  · refine h.binds_namedType_of_clear hf hnames ?_
    split
    · next scope hscope => exact h.clear_resolveClass hf hscope htext
    · exact .inl (unrooted_unrooted text)

theorem bindsAll_docTypes {doc : DocType} (hdoc : doc.AllNames Unbroken) : x.BindsAll (x.docTypes n doc) :=
  bindsAll_types (fun _ hname => h.binds_docNameType hf hnames hname) hdoc

/-! ### Names -/

/-- A name that is not linked, though a class is known under it, denotes a native type or stands where no class is
looked up. -/
theorem binds_namedType_of_place (hk : x.forest.kind n = .name text role) (hrole : role.isClassLike = true)
    (hplace : role = .classRef → x.forest.IsClassPlace n) (hname : x.forest.nameOf? n = some fqn)
    (hlink : (x.forest.node n).declaration.bind x.declaredType? = none) : x.Binds (x.namedType fqn) := by
  refine h.binds_namedType hf hnames fun u hu hkey => .inl ?_
  refine h.startsSolid_of_key hf hnames hu hkey fun _ => Typing.startsSolid_of_isNative ?_
  by_contra hforeign
  rw [Bool.not_eq_true] at hforeign
  have hrefers : x.forest.RefersByName n fqn role := by
    cases role with
    | classRef => exact (hplace rfl).imp_left fun hp => ⟨hforeign, hp⟩
    | function | constant => cases hrole
    | _ => exact hforeign
  have hfound : (x.declaration? fqn).isSome = true := by
    rw [declaration?, Option.isSome_map, find?, find?_isSome]
    exact ⟨u, mem_reverse.mpr hu, by simpa using hkey⟩
  have hdeclaration := h.declaration_of_name hf hk hrole hname
  rw [if_pos hrefers] at hdeclaration
  have hsome : (x.forest.declaration n).isSome = true := by
    rw [hdeclaration, Option.isSome_or, hfound, Bool.or_true]
  obtain ⟨d, hd⟩ := Option.isSome_iff_exists.mp hsome
  obtain ⟨-, r, -, hr, -⟩ := h.key_of_declaration hf hk hd
  rw [show (x.forest.node n).declaration = some d from hd, Option.bind_some, declaredType?,
    show (x.forest.node d).resolvedName = some r from hr] at hlink
  cases hlink

variable (hplaces : (∀ u ∈ x.units, startsSolid u.fqn = true) ∨ ∀ id text, x.forest.kind id = .name text .classRef → x.forest.IsClassPlace id)
include hplaces

/-- The types of a name are bound if no class-like has a name with a blank in front, or if names of classes in
expressions stand only where they are looked up. -/
theorem bindsAll_nameTypes (hk : x.forest.kind n = .name text role) : x.BindsAll (x.nameTypes n text role) := by
  have hnamed (hrole : role.isClassLike = true) {name : String} (hname : x.forest.nameOf? n = some name)
      (hlink : (x.forest.node n).declaration.bind x.declaredType? = none) : x.Binds (x.namedType name) := by
    obtain hsolid | hplaces := hplaces
    · exact h.binds_namedType hf hnames fun u hu _ => .inl (hsolid u hu)
    · exact h.binds_namedType_of_place hf hnames hk hrole (fun hrole => hplaces n text (hrole ▸ hk)) hname hlink
  unfold nameTypes
  cases role
  case function => exact bindsAll_empty x
  case constant =>
    dsimp only
    split
    · exact bindsAll_ofName x _
    · exact bindsAll_ofName x _
    · exact bindsAll_ofName x _
    · exact bindsAll_empty x
  all_goals
    dsimp only
    split
    · next t ht =>
      obtain ⟨d, hd, ht⟩ := Option.bind_eq_some_iff.mp ht
      exact bindsAll_singleton (h.binds_declaredType? hf hnames (h.isClassLike_of_declaration hf hd) ht)
    · next hlink =>
      split
      · next name hname =>
        split
        · exact bindsAll_empty x
        · exact bindsAll_singleton (hnamed rfl hname hlink)
      · exact bindsAll_empty x

/-- A built index with plain names binds what the program says by itself. -/
theorem bindsGiven : x.BindsGiven where
  name _ _ _ hk := h.bindsAll_nameTypes hf hnames hplaces hk
  doc _ _ hdoc := h.bindsAll_docTypes hf hnames hdoc
  enclosing _ _ ht := h.binds_enclosingType? hf hnames ht
  this _ _ ht := h.binds_thisType? hf hnames ht

end Names

end Built

end Index

end EventAtlas
