import EventAtlas.Proofs.Doc.Asked
import EventAtlas.Proofs.Link.Imported
import EventAtlas.Proofs.Link.TreeShape

/-!
# Names that break off naming

A name that is looked up as a class is cut after ten bytes, to compare what is before the cut with the keyword
`namespace` and a separator. A name that is longer and has a character across that place is torn (`NameScope.Torn`), and
looking it up is refused. No word that means something else is torn, native or not, for they are all ASCII.

Naming a forest is given up just if a name for a class in it is torn, wherever it stands; the names of functions,
constants, namespaces and imports do not matter (`Naming.walk?_eq`). The meaning of a documented type is given up just
if one of the names is torn that it asks for (`DocType.types_answerUnless`). Where nothing is torn, the answer is the one
that is given without any refusal (`Forest.resolveNames?_breaks_off`).
-/

namespace EventAtlas

open List Text

/-! ## Torn names -/

namespace NameScope

variable {text name : String}

theorem length_le_utf8Len (l : List Char) : l.length ≤ String.utf8Len l := by
  induction l with
  | nil => exact Nat.le_refl 0
  | cons c rest ih =>
    have hc := c.utf8Size_pos
    rw [String.utf8Len_cons, length_cons]
    omega

/-- A name can be cut after ten bytes if it ends there or before, or if a character ends there. -/
theorem isDivisible_iff : isDivisible name = true ↔
    name.utf8ByteSize ≤ keywordBytes ∨ (⟨keywordBytes⟩ : String.Pos.Raw).IsValid name := by
  rw [isDivisible, Bool.or_eq_true, decide_eq_true_eq, String.Pos.Raw.isValid_iff_exists_take_toList, any_eq_true]
  refine or_congr_right ⟨?_, ?_⟩
  · rintro ⟨n, -, hn⟩
    exact ⟨n, (beq_iff_eq.mp hn).symm⟩
  rintro ⟨i, hi⟩
  have hsize : (String.ofList (name.toList.take i)).utf8ByteSize = keywordBytes := hi.symm
  -- ten bytes hold ten characters at most
  have htake : name.toList.take (min i keywordBytes) = name.toList.take i := by
    have hlength := length_le_utf8Len (name.toList.take i)
    rw [← String.utf8ByteSize_ofList, hsize, length_take] at hlength
    obtain hlt | hle := Nat.lt_or_ge keywordBytes i
    · rw [Nat.min_eq_right hlt.le, take_of_length_le (by omega), take_of_length_le (by omega)]
    · rw [Nat.min_eq_left hle]
  refine ⟨min i keywordBytes, mem_range.mpr (by omega), ?_⟩
  rw [htake, hsize, beq_self_eq_true]

/-- A name without a separator at its start that is cut inside of a character when it is cut after ten bytes. -/
structure Torn (text : String) : Prop where
  unrooted : startsWith "\\" (trim text) = false
  long : keywordBytes < (trim text).utf8ByteSize
  inside : ¬ (⟨keywordBytes⟩ : String.Pos.Raw).IsValid (trim text)

theorem isDivisible_eq_false_iff : isDivisible name = false ↔
    keywordBytes < name.utf8ByteSize ∧ ¬ (⟨keywordBytes⟩ : String.Pos.Raw).IsValid name := by
  rw [← Bool.not_eq_true, isDivisible_iff, not_or, Nat.not_le]

theorem Torn.exists_not_ascii (h : Torn text) : ∃ c ∈ (trim text).toList, ¬ c.val ≤ 127 := by
  by_contra hnone
  have hascii : ∀ c ∈ (trim text).toList, c.val ≤ 127 :=
    fun c hc => Decidable.of_not_not fun hnot => hnone ⟨c, hc, hnot⟩
  have hdivisible := isDivisible_eq_false_iff.mpr ⟨h.long, h.inside⟩
  rw [isDivisible_of_ascii hascii] at hdivisible
  cases hdivisible

section NotAscii

variable {c : Char} (hmem : c ∈ name.toList) (hc : ¬ c.val ≤ 127)
include hmem hc

/-- A name with a character that is not ASCII is no spelling of an ASCII word. -/
theorem lower_ne {word : String} (hword : (word.toList.all fun c => c.val ≤ 127) = true) : lower name ≠ word := by
  rintro rfl
  have hlower := all_eq_true.mp hword _ (mem_lower_of_mem hmem)
  exact hc ((isAscii_toLower c).mp (of_decide_eq_true hlower))

theorem mem_unrooted_of_not_ascii : c ∈ (unrooted name).toList := by
  obtain ⟨n, hn⟩ := exists_replicate_append_unrooted name
  rw [hn] at hmem
  obtain hslash | hmem := mem_append.mp hmem
  · rw [eq_of_mem_replicate hslash] at hc
    exact absurd (by decide) hc
  · exact hmem

theorem native?_of_not_ascii : Typing.native? name = none := by
  have hwords : ∀ word ∈ Typing.nativeNames ++ Typing.nativeAliases.map Prod.fst,
      (word.toList.all fun c => c.val ≤ 127) = true := by decide
  rw [Typing.native?_eq_none_iff]
  exact fun hin => lower_ne (mem_unrooted_of_not_ascii hmem hc) hc (hwords _ hin) rfl

end NotAscii

/-- Looking up a class is refused just if its name is torn. -/
theorem refusesClass_iff : refusesClass text = true ↔ Torn text := by
  simp only [refusesClass, Bool.and_eq_true, Bool.not_eq_true', isDivisible_eq_false_iff]
  constructor
  · rintro ⟨⟨⟨-, hroot⟩, -⟩, hlong, hinside⟩
    exact ⟨hroot, hlong, hinside⟩
  · intro h
    obtain ⟨c, hmem, hc⟩ := h.exists_not_ascii
    refine ⟨⟨⟨?_, h.unrooted⟩, ?_⟩, h.long, h.inside⟩
    · refine Bool.eq_false_iff.mpr fun hempty => ?_
      rw [String.isEmpty_iff.mp hempty] at hmem
      cases hmem
    · rw [Typing.isNative, native?_of_not_ascii hmem hc]
      rfl

end NameScope

/-! ## The walk -/

/-- The node is a name for a class, and the name is torn. -/
def Forest.TornAt (f : Forest) (id : NodeId) : Prop :=
  ∃ text role, f.kind id = .name text role ∧ role.isClassLike = true ∧ NameScope.Torn text

namespace Naming

open Forest NameScope

variable {f : Forest} {id : NodeId}

/-- Looking up a name is refused just if it is one for a class and torn; the words for the classes around are not. -/
theorem refusesText_iff {text : String} {role : NameRole} :
    refusesText text role = true ↔ role.isClassLike = true ∧ Torn text := by
  have hwords (word : String) (hword : (word.toList.all fun c => c.val ≤ 127) = true) (heq : lower text = word) :
      ¬ Torn text := by
    intro h
    obtain ⟨c, hmem, hc⟩ := h.exists_not_ascii
    exact lower_ne (mem_of_mem_trim hmem) hc hword heq
  unfold refusesText
  rw [Bool.and_eq_true]
  refine and_congr_right fun _ => ?_
  split
  · next heq => exact iff_of_false Bool.false_ne_true (hwords _ rfl heq)
  · next heq => exact iff_of_false Bool.false_ne_true (hwords _ rfl heq)
  · next heq => exact iff_of_false Bool.false_ne_true (hwords _ rfl heq)
  · exact refusesClass_iff

theorem parentText?_eq_some {text : String} (h : parentText? f id = some text) :
    ∃ c ∈ f.children id, f.kind c = .name text .extends := by
  unfold parentText? at h
  split at h
  · obtain ⟨c, hhead, hname⟩ := Option.bind_eq_some_iff.mp h
    obtain ⟨hc, hkind⟩ := mem_filter.mp (mem_of_head? hhead)
    dsimp only at hkind
    split at hkind
    · next text' role heq =>
      rw [heq] at hname
      refine ⟨c, hc, ?_⟩
      rw [heq, ← Option.some.inj hname, beq_iff_eq.mp hkind]
    · cases hkind
  · cases h

/-- A node at which entering is refused is a torn name, or has one among its children. -/
theorem tornAt_of_refusesEnter (h : refusesEnter f id = true) : f.TornAt id ∨ ∃ c ∈ f.children id, f.TornAt c := by
  unfold refusesEnter at h
  split at h
  · obtain ⟨text, htext, hrefused⟩ := (Option.any_eq_true _ _).mp h
    obtain ⟨c, hc, hkind⟩ := parentText?_eq_some htext
    exact .inr ⟨c, hc, text, .extends, hkind, rfl, refusesClass_iff.mp hrefused⟩
  · next text role hkind =>
    obtain ⟨hrole, htorn⟩ := refusesText_iff.mp h
    exact .inl ⟨text, role, hkind, hrole, htorn⟩
  · cases h

theorem refusesEnter_of_tornAt (h : f.TornAt id) : refusesEnter f id = true := by
  obtain ⟨text, role, hkind, hrole, htorn⟩ := h
  unfold refusesEnter
  rw [hkind]
  exact refusesText_iff.mpr ⟨hrole, htorn⟩

theorem refusesEnter_congr {g : Forest} (h : SameTree f g) : refusesEnter g = refusesEnter f := by
  funext id
  simp only [refusesEnter, parentText?, namesWithRole, childrenWhere, h.kind, h.children]

theorem sameTree_walk (n : Nat) (p : Progress) (id : NodeId) : SameTree p.forest (walk n p id).forest := by
  refine walk_keeps (fun g id name h => h.trans ?_) (fun g s h => h.trans (.setNameScope ..)) n p id (.refl _)
  exact .modify _ id (fun _ => rfl) (fun _ => rfl) (fun _ => rfl)

/-- A walk is broken off just if a node is refused that it comes to. -/
theorem walk?_eq (n : Nat) (p : Progress) (id : NodeId) :
    walk? n p id = answerUnless ((p.forest.descend n id).any (refusesEnter p.forest)) (walk n p id) := by
  induction n generalizing p id with
  | zero => rfl
  | succ n ih =>
    have hchildren (l : List NodeId) (q : Progress) (hq : SameTree p.forest q.forest) : l.foldlM (walk? n) q =
        answerUnless ((l.flatMap (p.forest.descend n)).any (refusesEnter p.forest)) (l.foldl (walk n) q) := by
      induction l generalizing q with
      | nil => rfl
      | cons c rest ihl =>
        have hrest := ihl (walk n q c) (hq.trans (sameTree_walk n q c))
        rw [foldlM_cons, ih, hq.descend, refusesEnter_congr hq, flatMap_cons, any_append]
        exact answerUnless_bind hrest
    rw [walk?, walk, descend, any_cons]
    cases refusesEnter p.forest id with
    | true => rfl
    | false =>
      rw [hchildren _ _ (enter_keeps p id).1]
      exact answerUnless_bind_pure fun below => leave below id

theorem nameFile?_eq (f : Forest) (root : NodeId) :
    nameFile? f root = answerUnless ((f.descendants root).any (refusesEnter f)) (nameFile f root) := by
  rw [nameFile?, walk?_eq, Option.map_eq_bind]
  exact answerUnless_bind_pure Progress.forest

end Naming

namespace Forest

open NameScope

variable {f : Forest} {id c : NodeId}

/-- Naming a forest is broken off just if a node below a file is refused. -/
theorem resolveNames?_eq (f : Forest) :
    f.resolveNames? = answerUnless (f.reached.any (Naming.refusesEnter f)) f.resolveNames := by
  have hfiles (files : List SourceFile) (g : Forest) (hg : SameTree f g) :
      files.foldlM (fun g file => Naming.nameFile? g file.root) g =
        answerUnless (((files.map SourceFile.root).flatMap f.descendants).any (Naming.refusesEnter f))
          (files.foldl (fun g file => Naming.nameFile g file.root) g) := by
    induction files generalizing g with
    | nil => rfl
    | cons file rest ih =>
      have hrest := ih (Naming.nameFile g file.root) (hg.trans (Naming.sameTree_walk _ { forest := g } file.root))
      rw [foldlM_cons, Naming.nameFile?_eq, hg.descendants, Naming.refusesEnter_congr hg, map_cons,
        flatMap_cons, any_append]
      exact answerUnless_bind hrest
  exact hfiles f.files f (.refl f)

theorem Reachable.child (h : f.Reachable id) (hc : c ∈ f.children id) : f.Reachable c := by
  obtain ⟨i, way, hway⟩ := h
  obtain ⟨k, hk⟩ := mem_iff_getElem?.mp hc
  exact ⟨i, way ++ [k], arrive?_append hway (follow?_cons.mpr ⟨c, hk, rfl⟩)⟩

theorem TreeShaped.mem_reached (h : f.TreeShaped) (hid : f.Reachable id) : id ∈ f.reached := by
  refine mem_reached_of_reachable (fun root hroot => h.fits ?_) hid
  exact reachable_of_mem_reached (root_mem_reached hroot)

theorem exists_refusesEnter_iff (h : f.TreeShaped) :
    f.reached.any (Naming.refusesEnter f) = true ↔ ∃ n, f.Reachable n ∧ f.TornAt n := by
  rw [any_eq_true]
  constructor
  · rintro ⟨n, hn, hrefused⟩
    have hreach := reachable_of_mem_reached hn
    obtain htorn | ⟨c, hc, htorn⟩ := Naming.tornAt_of_refusesEnter hrefused
    · exact ⟨n, hreach, htorn⟩
    · exact ⟨c, hreach.child hc, htorn⟩
  · rintro ⟨n, hn, htorn⟩
    exact ⟨n, h.mem_reached hn, Naming.refusesEnter_of_tornAt htorn⟩

end Forest

/-! ## Documentation -/

namespace Index

open NameScope

theorem refusesDocName_iff {scope : Option NameScope} {name : String} :
    refusesDocName scope name = true ↔ scope.isSome = true ∧ Torn name := by
  simp only [refusesDocName, Bool.and_eq_true, refusesClass_iff]
  constructor
  · rintro ⟨⟨-, hscope⟩, htorn⟩
    exact ⟨hscope, htorn⟩
  · rintro ⟨hscope, htorn⟩
    obtain ⟨c, hmem, hc⟩ := htorn.exists_not_ascii
    have hbare := mem_unrooted_of_not_ascii (mem_of_mem_trim hmem) hc
    have hself : lower (unrooted name) ≠ "self" := lower_ne hbare hc rfl
    have hstatic : lower (unrooted name) ≠ "static" := lower_ne hbare hc rfl
    have hthis : lower (unrooted name) ≠ "$this" := lower_ne hbare hc rfl
    refine ⟨⟨⟨by simp [hself, hstatic, hthis], ?_⟩, hscope⟩, htorn⟩
    rw [Typing.isNative, native?_of_not_ascii hbare hc]
    rfl

theorem docTypes?_eq (x : Index) (node : NodeId) (doc : DocType) : x.docTypes? node doc =
    answerUnless (doc.asked.any (refusesDocName (x.forest.nameScopeFor? node))) (x.docTypes node doc) :=
  DocType.types_answerUnless ..

end Index

/-- Naming a forest of trees is broken off just if a name for a class in it is torn, and giving the meaning of a
documented type just if a name that it asks for is torn; otherwise the answer is the one that is never refused. -/
theorem Forest.resolveNames?_breaks_off {f : Forest} (h : f.TreeShaped) :
    (f.resolveNames? = none ↔ ∃ n, f.Reachable n ∧ f.TornAt n) ∧
    (∀ g, f.resolveNames? = some g → g = f.resolveNames) ∧
    ∀ (x : Index) (node : NodeId) (doc : DocType),
      (x.docTypes? node doc = none ↔
        (x.forest.nameScopeFor? node).isSome = true ∧ ∃ name ∈ doc.asked, NameScope.Torn name) ∧
      ∀ types, x.docTypes? node doc = some types → types = x.docTypes node doc := by
  refine ⟨?_, fun g hg => ?_, fun x node doc => ⟨?_, fun types htypes => ?_⟩⟩
  · rw [resolveNames?_eq, answerUnless_eq_none, exists_refusesEnter_iff h]
  · rw [resolveNames?_eq] at hg
    exact (answerUnless_eq_some.mp hg).2.symm
  · rw [Index.docTypes?_eq, answerUnless_eq_none, List.any_eq_true]
    simp only [Index.refusesDocName_iff]
    exact ⟨fun ⟨name, hname, hscope, htorn⟩ => ⟨hscope, name, hname, htorn⟩,
      fun ⟨hscope, name, hname, htorn⟩ => ⟨name, hname, hscope, htorn⟩⟩
  · rw [Index.docTypes?_eq] at htypes
    exact (answerUnless_eq_some.mp htypes).2.symm

/-- A class in a namespace that extends a class with a torn name: `namespace App; class A extends abcdefghié`. -/
def Forest.tornParent : Forest where
  nodes := #[{ kind := .name "abcdefghié" .extends }, { kind := .classDecl "A" {}, children := [0] },
    { kind := .namespaceDecl "App", children := [1] }, { kind := .file, children := [2] }]
  files := [{ path := "a", root := 3 }]

theorem Forest.resolveNames?_breaks_off_tornParent :
    tornParent.TreeShaped ∧ tornParent.resolveNames? = none := by
  have hshape : tornParent.TreeShaped := treeShaped_iff.mpr ⟨by decide, by decide⟩
  have hreach : tornParent.Reachable 0 := ⟨0, [0, 0, 0], rfl⟩
  have htorn : tornParent.TornAt 0 :=
    ⟨"abcdefghié", .extends, rfl, rfl, NameScope.refusesClass_iff.mp (by decide)⟩
  exact ⟨hshape, (resolveNames?_breaks_off hshape).1.mpr ⟨0, hreach, htorn⟩⟩

/-- A function whose result has a torn name: `function f(): abcdefghié`. -/
def Forest.tornHint : Forest where
  nodes := #[{ kind := .name "abcdefghié" .typeHint }, { kind := .function "f", children := [0] },
    { kind := .file, children := [1] }]
  files := [{ path := "a", root := 2 }]
  nameScopes := [.opened 2 ""]

/-- The name is refused where it is declared, and where it is documented. -/
theorem Forest.tornHint_breaks_off : tornHint.TreeShaped ∧ tornHint.resolveNames? = none ∧
    Index.docTypes? { forest := tornHint } 2 (.nullable (.named "abcdefghié")) = none :=
  ⟨treeShaped_iff.mpr ⟨by decide, by decide⟩, Option.isNone_iff_eq_none.mp (by decide +kernel),
    Option.isNone_iff_eq_none.mp (by decide +kernel)⟩

end EventAtlas
