import EventAtlas.Proofs.Component
import EventAtlas.Proofs.Index.DeclaredTypes
import EventAtlas.Proofs.Index.Units

/-!
# What an imported name stands for

A class is imported under an alias, and the alias is looked up whatever its case. But a written name is tested for a
native type before the imports are asked, and documentation has more native types than the language reserves words
for: an alias such as `Resource` or `Integer` is taken for the native type (`NameScope.documentedNatives`), though in
front of a separator it stands for what is imported. And a qualified name that has a character across its tenth byte is
refused. All other aliases stand for what is imported under them, whatever else is imported later
(`NameScope.imported_class_found`).
-/

namespace EventAtlas

open List Text Typing

/-! ## Segments of names -/

/-- A text that can stand between separators: it is not empty and has no blanks and no separators. -/
structure Text.Segment (s : String) : Prop where
  ne_empty : s ≠ ""
  unbroken : Unbroken s
  unseparated : ∀ c ∈ s.toList, isSeparator c = false

namespace Text

variable {s t rest : String}

theorem mem_lower_of_mem {c : Char} (h : c ∈ s.toList) : c.toLower ∈ (lower s).toList := by
  rw [lower, String.toList_ofList]
  exact mem_map_of_mem h

/-- A property of characters that case does not change goes over to a text with the same letters. -/
theorem forall_mem_of_lower_eq {p : Char → Prop} (hp : ∀ c : Char, p c.toLower ↔ p c) (h : lower s = lower t)
    (ht : ∀ c ∈ t.toList, p c) : ∀ c ∈ s.toList, p c := by
  intro c hc
  have hmem := mem_lower_of_mem hc
  rw [h, lower, String.toList_ofList] at hmem
  obtain ⟨d, hd, heq⟩ := mem_map.mp hmem
  rw [← hp c, ← heq, hp d]
  exact ht d hd

theorem isSeparator_toLower (c : Char) : isSeparator c.toLower = isSeparator c := by
  rw [Bool.eq_iff_iff, isSeparator, isSeparator, beq_iff_eq, beq_iff_eq, toLower_eq_iff rfl]

theorem isAscii_toLower (c : Char) : c.toLower.val ≤ 127 ↔ c.val ≤ 127 := by
  have hnat : ∀ d : Char, d.val ≤ 127 ↔ d.toNat ≤ 127 := fun d => by
    rw [UInt32.le_iff_toNat_le, Char.toNat]
    rfl
  rw [hnat, hnat, toNat_toLower]
  split <;> omega

theorem Segment.of_lower_eq (ht : Segment t) (h : lower s = lower t) : Segment s where
  ne_empty := by
    rintro rfl
    have hnil : t.toList.map Char.toLower = [] := by
      rw [← String.toList_ofList (l := t.toList.map Char.toLower), ← lower, ← h]
      rfl
    exact ht.ne_empty (String.toList_eq_nil_iff.mp (map_eq_nil_iff.mp hnil))
  unbroken := forall_mem_of_lower_eq (fun c => by rw [isBlank_toLower]) h ht.unbroken
  unseparated := forall_mem_of_lower_eq (fun c => by rw [isSeparator_toLower]) h ht.unseparated

/-- The ASCII characters of names are no blanks. -/
theorem isBlank_of_isNameChar {c : Char} (h : isNameChar c = true) (hascii : c.val ≤ 127) : isBlank c = false := by
  have hcodes : ∀ n ∈ blankCodes, n ≤ 127 → isNameChar (Char.ofNat n) = false := by decide
  by_contra hblank
  have hnot := hcodes c.toNat (toNat_mem_blankCodes (Bool.of_not_eq_false hblank)) (UInt32.le_iff_toNat_le.mp hascii)
  rw [Char.ofNat_toNat, h] at hnot
  cases hnot

theorem segment_of_isIdentifier (h : isIdentifier s.toList = true)
    (hascii : (s.toList.all fun c => c.val ≤ 127) = true) : Segment s where
  ne_empty := ne_empty_of_isIdentifier h
  unbroken c hc := isBlank_of_isNameChar (isNameChar_of_mem_identifier h c hc)
    (of_decide_eq_true (all_eq_true.mp hascii c hc))
  unseparated c hc := isSeparator_of_isNameChar (isNameChar_of_mem_identifier h c hc)

end Text

/-! ## Reading a written name -/

/-- A name is no native type exactly if it is none of their spellings. -/
theorem Typing.native?_eq_none_iff {name : String} :
    native? name = none ↔ lower (unrooted name) ∉ nativeNames ++ nativeAliases.map Prod.fst := by
  unfold native?
  dsimp only
  rw [mem_append, not_or]
  split
  · next hmem => exact iff_of_false nofun fun h => h.1 (contains_iff_mem.mp hmem)
  · next hmem =>
    rw [and_iff_right fun h => hmem (contains_iff_mem.mpr h), lookup_eq_none_iff]
    simp only [mem_map, not_exists, not_and, bne_iff_ne]
    exact forall₂_congr fun e _ => ne_comm

namespace NameScope

variable {s : NameScope} {name first rest : String}

theorem toList_qualified : (first ++ "\\" ++ rest).toList = first.toList ++ '\\' :: rest.toList := by
  rw [String.toList_append, String.toList_append, append_assoc]
  rfl

theorem qualified_ne_empty : first ++ "\\" ++ rest ≠ "" := by
  rw [← String.toList_inj.ne, toList_qualified]
  exact append_ne_nil_of_right_ne_nil _ (cons_ne_nil _ _)

/-- A name that is relative to the namespace starts with the keyword and a separator. -/
theorem exists_of_relative? (h : relative? name ≠ none) :
    ∃ more, name.toList.map Char.toLower = "namespace".toList ++ '\\' :: more := by
  unfold relative? at h
  split at h
  · next more hmore =>
    refine ⟨more ++ (name.toList.drop keywordBytes).map Char.toLower, ?_⟩
    rw [← take_append_drop keywordBytes name.toList, map_append, stripChars?_eq_some.mp hmore]
    simp
  · exact absurd rfl h

theorem strip?_of_unrooted (h : unrooted name = name) : strip? "\\" name = none := by
  by_contra hsome
  obtain ⟨rest, hrest⟩ := Option.ne_none_iff_exists'.mp hsome
  have hsep := unrooted_eq_self_iff.mp h '\\' (by rw [strip?_eq_some.mp hrest, String.toList_append]; rfl)
  cases hsep

/-- A name that is not empty and has no separator at its start is native, relative, imported or in the namespace. -/
theorem resolveClass_of_unrooted (htrim : trim name = name) (hne : name ≠ "") (hroot : unrooted name = name)
    (hrelative : relative? name = none) : s.resolveClass name =
    (native? name).getD (match splitFirst? isSeparator name with
      | some (first, rest) =>
        match s.classes.find? (lower first) with
        | some target => target ++ "\\" ++ rest
        | none => s.qualify name
      | none => (s.classes.find? (lower name)).getD (s.qualify name)) := by
  have hempty : name.isEmpty = false := by simpa using hne
  simp only [resolveClass, htrim, hempty, strip?_of_unrooted hroot, hrelative]
  cases native? name <;> rfl

theorem resolveClass?_of_divisible (htrim : trim name = name) (h : isDivisible name = true) :
    s.resolveClass? name = some (s.resolveClass name) := by
  rw [resolveClass?, refusesClass, htrim, h]
  simp

section Segment

variable (hfirst : Segment first)
include hfirst

theorem unrooted_segment : unrooted first = first :=
  unrooted_eq_self_iff.mpr fun c hc => hfirst.unseparated c (mem_of_mem_head? hc)

/-- A name in which a separator stands behind something else is no native type. -/
theorem native?_qualified : native? (first ++ "\\" ++ rest) = none := by
  have hspellings : ∀ n ∈ nativeNames ++ nativeAliases.map Prod.fst, '\\' ∉ n.toList := by decide
  rw [native?_eq_none_iff, String.append_assoc, unrooted_append (unrooted_segment hfirst) hfirst.ne_empty,
    ← String.append_assoc]
  intro hmem
  refine hspellings _ hmem (mem_lower_of_mem (c := '\\') ?_)
  rw [toList_qualified]
  exact mem_append_right _ mem_cons_self

theorem relative?_segment : relative? first = none := by
  by_contra h
  obtain ⟨more, hmore⟩ := exists_of_relative? h
  have hmem : '\\' ∈ first.toList.map Char.toLower := hmore ▸ mem_append_right _ mem_cons_self
  obtain ⟨c, hc, heq⟩ := mem_map.mp hmem
  rw [toLower_eq_iff rfl] at heq
  cases (hfirst.unseparated c hc).symm.trans (beq_iff_eq.mpr heq)

/-- The first segment of a name tells whether it is relative to the namespace. -/
theorem relative?_qualified (hkeyword : lower first ≠ "namespace") : relative? (first ++ "\\" ++ rest) = none := by
  by_contra h
  obtain ⟨more, hmore⟩ := exists_of_relative? h
  have hhead : ∀ c ∈ first.toList.map Char.toLower, (!isSeparator c) = true := by
    intro c hc
    obtain ⟨d, hd, rfl⟩ := mem_map.mp hc
    rw [isSeparator_toLower, hfirst.unseparated d hd]
    rfl
  have hword : ∀ c ∈ "namespace".toList, (!isSeparator c) = true := all_eq_true.mp rfl
  have htake := congrArg (List.takeWhile fun c => !isSeparator c) hmore
  rw [toList_qualified, map_append, map_cons, takeWhile_append_of_pos hhead,
    takeWhile_append_of_pos hword, takeWhile_cons_of_neg (by decide), takeWhile_cons_of_neg (by decide),
    append_nil, append_nil] at htake
  refine hkeyword ?_
  rw [lower, htake]
  rfl

theorem splitFirst?_segment : splitFirst? isSeparator first = none := by
  have hnil : first.toList.dropWhile (fun c => !isSeparator c) = [] :=
    dropWhile_eq_nil_iff.mpr fun c hc => by rw [hfirst.unseparated c hc]; rfl
  rw [splitFirst?, hnil]

theorem splitFirst?_qualified : splitFirst? isSeparator (first ++ "\\" ++ rest) = some (first, rest) := by
  have hhead : ∀ c ∈ first.toList, (!isSeparator c) = true := fun c hc => by rw [hfirst.unseparated c hc]; rfl
  rw [splitFirst?, toList_qualified, dropWhile_append_of_pos hhead, dropWhile_cons_of_neg (by decide),
    takeWhile_append_of_pos hhead, takeWhile_cons_of_neg (by decide), append_nil, String.ofList_toList]
  dsimp only
  rw [String.ofList_toList]

theorem trim_segment : trim first = first :=
  trim_of_isBlankless (all_eq_true.mpr fun c hc => by rw [hfirst.unbroken c hc]; rfl)

/-- A name of one segment is native, imported or in the namespace. -/
theorem resolveClass_segment : s.resolveClass first =
    (native? first).getD ((s.classes.find? (lower first)).getD (s.qualify first)) := by
  rw [resolveClass_of_unrooted (trim_segment hfirst) hfirst.ne_empty (unrooted_segment hfirst)
    (relative?_segment hfirst), splitFirst?_segment hfirst]

theorem trim_qualified (hrest : dropRight isBlank rest = rest) :
    trim (first ++ "\\" ++ rest) = first ++ "\\" ++ rest := by
  have hright : rest.toList.rdropWhile isBlank = rest.toList := by
    have hlist := congrArg String.toList hrest
    rwa [dropRight, String.toList_ofList] at hlist
  have hstart : startsSolid (first ++ "\\" ++ rest) = true := by
    obtain ⟨c, more, hc, hblank⟩ := startsSolid_iff.mp (hfirst.unbroken.startsSolid hfirst.ne_empty)
    exact startsSolid_iff.mpr ⟨c, more ++ '\\' :: rest.toList, by rw [toList_qualified, hc]; rfl, hblank⟩
  rw [← String.toList_inj, trim_of_startsSolid hstart, toList_qualified, rdropWhile_append_cons (by decide), hright]

theorem unrooted_qualified : unrooted (first ++ "\\" ++ rest) = first ++ "\\" ++ rest := by
  rw [String.append_assoc, unrooted_append (unrooted_segment hfirst) hfirst.ne_empty]

/-- The first segment of a qualified name is imported, or all of it is in the namespace. -/
theorem resolveClass_qualified (hkeyword : lower first ≠ "namespace")
    (hrest : dropRight isBlank rest = rest) : s.resolveClass (first ++ "\\" ++ rest) =
    match s.classes.find? (lower first) with
    | some target => target ++ "\\" ++ rest
    | none => s.qualify (first ++ "\\" ++ rest) := by
  rw [resolveClass_of_unrooted (trim_qualified hfirst hrest) qualified_ne_empty (unrooted_qualified hfirst)
    (relative?_qualified hfirst hkeyword), native?_qualified hfirst, splitFirst?_qualified hfirst]
  rfl

/-- A qualified name is refused exactly if a character lies across its tenth byte. -/
theorem resolveClass?_qualified (hrest : dropRight isBlank rest = rest) :
    s.resolveClass? (first ++ "\\" ++ rest) =
      if isDivisible (first ++ "\\" ++ rest) then some (s.resolveClass (first ++ "\\" ++ rest)) else none := by
  have hempty : (first ++ "\\" ++ rest).isEmpty = false := by simp
  have hstart : startsWith "\\" (first ++ "\\" ++ rest) = false := by
    have hroot : unrooted (first ++ "\\" ++ rest) = first ++ "\\" ++ rest := unrooted_qualified hfirst
    have hstrip := strip?_of_unrooted hroot
    rw [strip?, Option.map_eq_none_iff] at hstrip
    rw [startsWith, hstrip]
    rfl
  rw [resolveClass?, refusesClass, trim_qualified hfirst hrest, hempty, hstart, isNative,
    native?_qualified hfirst]
  cases isDivisible (first ++ "\\" ++ rest) <;> rfl

end Segment

/-! ## Imports -/

/-- The scope with further imports. -/
def addImports (s : NameScope) (imports : List Import) : NameScope :=
  imports.foldl (fun s i => s.addImport i.kind i.name i.short) s

/-- Imports under other aliases do not change what an alias of a class stands for. -/
theorem find?_classes_addImports {key : String} {imports : List Import}
    (h : ∀ i ∈ imports, i.kind = .classLike → lower i.short ≠ key) :
    (s.addImports imports).classes.find? key = s.classes.find? key := by
  refine List.foldlRecOn (motive := fun t : NameScope => t.classes.find? key = s.classes.find? key) _ _ rfl ?_
  intro t ht i hi
  cases hkind : i.kind with
  | classLike => exact (Sorted.find?_insert_of_ne _ _ (h i hi hkind).symm).trans ht
  | function => exact ht
  | constant => exact ht

/-- The words under which a class cannot be imported. -/
def reservedWords : List String :=
  ["array", "bool", "callable", "false", "float", "int", "iterable", "list", "mixed", "never", "null", "object",
    "string", "true", "void", "self", "static", "parent", "namespace"]

/-- The names of native types that are not reserved: documentation alone uses them. -/
def documentedNatives : List String :=
  ["resource", "integer", "boolean", "double", "real"]

/-- An alias is taken for a native type exactly if documentation uses it for one. -/
theorem native?_alias (hfirst : Segment first) (hreserved : lower first ∉ reservedWords) :
    native? first = none ↔ lower first ∉ documentedNatives := by
  have hspellings : ∀ n ∈ nativeNames ++ nativeAliases.map Prod.fst,
      n ∈ documentedNatives ∨ n ∈ reservedWords := by
    decide
  have hdocumented : ∀ n ∈ documentedNatives, n ∈ nativeNames ++ nativeAliases.map Prod.fst := by
    decide
  rw [native?_eq_none_iff, unrooted_segment hfirst]
  refine not_congr ⟨fun h => ?_, hdocumented _⟩
  exact (hspellings _ h).resolve_right hreserved

/-- What is imported under an alias is found by the alias in every case, unless the alias is a native type of
documentation, and as the first segment of a qualified name, unless a character lies across its tenth byte; imports
under other aliases do not matter. -/
theorem imported_class_found (s : NameScope) (name short written : String) (later : List Import)
    (hshort : isIdentifier short.toList = true) (hascii : (short.toList.all fun c => c.val ≤ 127) = true)
    (hreserved : lower short ∉ reservedWords)
    (hlater : ∀ i ∈ later, i.kind = .classLike → lower i.short ≠ lower short)
    (hwritten : lower written = lower short) :
    let t := (s.addImport .classLike name short).addImports later
    (lower short ∉ documentedNatives → t.resolveClass? written = some (unrooted name)) ∧
    (lower short ∈ documentedNatives → t.resolveClass? written = Typing.native? short ∧
      (Typing.native? short).isSome = true) ∧
    ∀ rest, dropRight isBlank rest = rest → t.resolveClass? (written ++ "\\" ++ rest) =
      if isDivisible (written ++ "\\" ++ rest) then some (unrooted name ++ "\\" ++ rest) else none := by
  intro t
  have hsegment : Segment short := segment_of_isIdentifier hshort hascii
  have hascii : ∀ c ∈ short.toList, c.val ≤ 127 := fun c hc => of_decide_eq_true (List.all_eq_true.mp hascii c hc)
  have hfirst : Segment written := hsegment.of_lower_eq hwritten
  have hfound : t.classes.find? (lower written) = some (unrooted name) := by
    rw [hwritten]
    exact (find?_classes_addImports hlater).trans (Sorted.find?_insert_self ..)
  have hnative : Typing.native? written = Typing.native? short := by
    apply Typing.native?_congr
    rw [unrooted_segment hfirst, unrooted_segment hsegment, hwritten]
  have halone : t.resolveClass? written = some ((Typing.native? short).getD (unrooted name)) := by
    have hcut : isDivisible written = true :=
      isDivisible_of_ascii (forall_mem_of_lower_eq isAscii_toLower hwritten hascii)
    rw [resolveClass?_of_divisible (trim_segment hfirst) hcut, resolveClass_segment hfirst, hnative, hfound]
    rfl
  refine ⟨fun hdocumented => ?_, fun hdocumented => ?_, fun rest hrest => ?_⟩
  · rw [halone, (native?_alias hsegment hreserved).mpr hdocumented]
    rfl
  · have hsome : Typing.native? short ≠ none := fun h => (native?_alias hsegment hreserved).mp h hdocumented
    obtain ⟨native, hnative⟩ := Option.ne_none_iff_exists'.mp hsome
    rw [halone, hnative]
    exact ⟨rfl, rfl⟩
  · have hkeyword : lower written ≠ "namespace" := by
      intro h
      rw [hwritten] at h
      exact hreserved (h ▸ by decide)
    rw [resolveClass?_qualified hfirst hrest, resolveClass_qualified hfirst hkeyword hrest, hfound]

/-- Other things that are imported after a class, a function under its alias among them. -/
def laterImports : List Import :=
  [⟨.classLike, "App\\Event", "Event"⟩, ⟨.function, "App\\log", "log"⟩]

theorem imported_class_found_log :
    let t := ((opened 0 "App").addImport .classLike "\\Psr\\Log" "Log").addImports laterImports
    t.resolveClass? "LOG" = some "Psr\\Log" ∧ t.resolveClass? "LOG\\Logger" = some "Psr\\Log\\Logger" := by
  have hfree : lower "Log" ∉ reservedWords ∧ lower "Log" ∉ documentedNatives := by decide
  have hlater : ∀ i ∈ laterImports, i.kind = .classLike → lower i.short ≠ lower "Log" := by decide
  obtain ⟨halone, -, hqualified⟩ :=
    imported_class_found (opened 0 "App") "\\Psr\\Log" "Log" "LOG" laterImports rfl rfl hfree.1 hlater rfl
  exact ⟨halone hfree.2, hqualified "Logger" rfl⟩

/-- An alias that is not reserved is taken for a native type, and a qualified name below an imported one is refused. -/
theorem imported_class_missed :
    isIdentifier "Resource".toList = true ∧ lower "Resource" ∉ reservedWords ∧
    ((opened 0 "App").addImport .classLike "Lib\\Resource" "Resource").resolveClass? "Resource" = some "resource" ∧
    ((opened 0 "App").addImport .classLike "Psr\\Log" "Log").resolveClass? "Log\\abcdeé" = none := by
  decide +kernel

end NameScope

end EventAtlas
