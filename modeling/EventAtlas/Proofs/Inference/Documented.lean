import EventAtlas.Proofs.Index.References
import EventAtlas.Proofs.Inference.Fixed
import EventAtlas.Proofs.Typing.Names

/-!
# Documented and declared types agree

A class may be named in a declared type, which the linking passes resolve when the index is built, or in documentation,
which is resolved when it is asked for. Both give the same type with the same declaration
(`Index.answerAfter_agrees_docTypes`) under conditions that cannot be left out: every import counts for documentation,
wherever it stands; outside of classes `self` is looked up like any other name where a type is declared, but not where
it is documented; and a declared type needs a name, while an import may be empty (`Index.hint_disagrees`).
-/

namespace EventAtlas.Index

open Forest Text

variable {f : Forest} {x : Index} {id : NodeId} {text : String}

/-! ## Both sides -/

theorem namedType_eq (x : Index) (fqn : String) :
    x.namedType fqn = { Ty.named fqn with declaration := x.declaration? fqn } := by
  unfold namedType
  split
  · next hd => rw [hd, Ty.declared]
  · next hd => rw [hd, Ty.named]

theorem docTypes_named (h : DocType.nativeTypes? text = none) :
    x.docTypes id (.named text) =
      .singleton (x.docNameType (x.forest.nameScopeFor? id) (x.enclosingType? id) text) := by
  simp only [docTypes, DocType.types, DocType.nameTypes, h]
  rfl

theorem nameTypes_of_declaration {role : NameRole} {d : NodeId} {fqn : String} (hrole : role.isClassLike = true)
    (hd : x.forest.declaration id = some d) (hfqn : x.forest.resolvedName d = some fqn) :
    x.nameTypes id text role = .singleton (.declared fqn d) := by
  have htype : ((x.forest.node id).declaration.bind x.declaredType?) = some (.declared fqn d) := by
    rw [show (x.forest.node id).declaration = some d from hd, Option.bind_some, declaredType?,
      show (x.forest.node d).resolvedName = some fqn from hfqn, Option.map_some]
  cases role with
  | function | constant => cases hrole
  | _ => simp only [nameTypes, htype]

theorem nameTypes_of_none {fqn : String} (hk : x.forest.kind id = .name text .typeHint)
    (hd : x.forest.declaration id = none) (hfqn : x.forest.resolvedName id = some fqn) (hne : fqn ≠ "") :
    x.nameTypes id text .typeHint = .singleton (x.namedType fqn) := by
  have hname := nameOf?_of_resolvedName hk hfqn
  have htype : (x.forest.node id).declaration.bind x.declaredType? = none := by
    rw [show (x.forest.node id).declaration = none from hd, Option.bind_none]
  simp only [nameTypes, htype, hname, String.isEmpty_eq_false_iff.mpr hne, Bool.false_eq_true, if_false]

theorem docNameType_of_self (hself : lower text = "self" ∨ lower text = "static") (scope : Option NameScope)
    (around : Option Ty) : x.docNameType scope around text = around.getD (.named (unrooted text)) := by
  have hbare : lower (unrooted text) = lower text := by
    rw [← unrooted_lower]
    obtain hself | hself := hself <;> rw [hself] <;> decide
  unfold docNameType
  obtain hself | hself := hself <;> simp [hbare, hself]

theorem docNameType_of_class (hclass : isClassName text = true)
    (hself : lower text ∉ ["self", "static", "parent", "\\self", "\\static"]) (hnative : Typing.native? text = none)
    (s : NameScope) (around : Option Ty) :
    x.docNameType (some s) around text = x.namedType (s.resolveClass text) := by
  have hthis := lower_unrooted_ne_this hclass
  have hbare : lower (unrooted text) ≠ "self" ∧ lower (unrooted text) ≠ "static" := by
    constructor <;> intro hbare <;> obtain hlower | hlower := lower_eq_of_isClassName hclass <;>
      rw [hlower, hbare] at hself <;> exact hself (by decide)
  have hforeign : Typing.isNative (unrooted text) = false := by
    rw [Typing.isNative, Typing.native?_congr (congrArg lower (unrooted_unrooted text)), hnative]
    rfl
  simp [docNameType, hthis, hbare, hforeign]

/-! ## Agreement -/

/-- What the index finds under a qualified name has the same type by its own name. -/
theorem Built.declared_agrees (h : Built f x) {fqn : String} {d : NodeId} (hfqn : startsSolid (unrooted fqn) = true)
    (hd : x.declaration? fqn = some d) : ∃ own, x.forest.resolvedName d = some own ∧
      (TypeSet.singleton (.declared own d)).Agrees (.singleton (x.namedType fqn)) := by
  obtain ⟨u, hu, rfl, hkey⟩ := exists_unit_of_declaration? hd
  have hkey : lower (unrooted u.fqn) = lower (unrooted fqn) := hkey
  have hown : startsSolid (unrooted u.fqn) = true := by rw [← startsSolid_lower, hkey, startsSolid_lower, hfqn]
  refine ⟨u.fqn, (h.unit hu).2.2, ?_⟩
  rw [namedType_eq, hd]
  exact TypeSet.agrees_of_key hown hkey

theorem Built.declaration_of_typeHint (h : Built f x) (hf : f.Unlinked) {fqn : String}
    (hk : x.forest.kind id = .name text .typeHint) (hfqn : x.forest.resolvedName id = some fqn) :
    x.forest.declaration id =
      (if lower text = "self" ∨ lower text = "static" then x.forest.enclosingClass? id else none).or
        (if Typing.isNative fqn = false then x.declaration? fqn else none) := by
  have hself : (sameLetters text "self" || sameLetters text "static") = true ↔
      lower text = "self" ∨ lower text = "static" := by
    rw [sameLetters, sameLetters, Bool.or_eq_true, beq_iff_eq, beq_iff_eq, show lower "self" = "self" by decide,
      show lower "static" = "static" by decide]
  rw [h.declaration_of_name hf hk rfl (nameOf?_of_resolvedName hk hfqn)]
  simp only [hself, RefersByName]
  congr

theorem Built.resolvedName_of_class (h : Built f x) (hid : id ∈ x.forest.reached)
    (hk : x.forest.kind id = .name text .typeHint)
    (hself : lower text ∉ ["self", "static", "parent", "\\self", "\\static"]) :
    x.forest.resolvedName id = some ((x.forest.scopeAt id).resolveClass text) := by
  rw [h.resolvedName_of_name hid hk]
  simp only [Naming.qualified]
  split
  · next hlower => simp [hlower] at hself
  · next hlower => simp [hlower] at hself
  · next hlower => simp [hlower] at hself
  · rfl

/-- The name at a node has one type where it declares a type, and a type that agrees with it in documentation. -/
def MeansSame (x : Index) (id : NodeId) (text : String) : Prop :=
  ∃ t, x.nameTypes id text .typeHint = .singleton t ∧ (TypeSet.singleton t).Agrees
    (.singleton (x.docNameType (x.forest.nameScopeFor? id) (x.enclosingType? id) text))

/-- Both mean the class around a node, if there is one. -/
theorem Built.meansSame_of_self (h : Built f x) (hf : f.Unlinked) (hid : id ∈ x.forest.reached)
    (hk : x.forest.kind id = .name text .typeHint) (hself : lower text = "self" ∨ lower text = "static")
    (hname : ∀ fqn, x.forest.resolvedName id = some fqn → startsSolid (unrooted fqn) = true)
    (haround : (x.forest.enclosingClass? id).isSome = true ∨ x.declaration? text = none) : x.MeansSame id text := by
  have hfqn := h.resolvedName_of_self hid hk rfl hself
  have hdeclaration := h.declaration_of_typeHint hf hk hfqn
  have hsolid := hname _ hfqn
  have htype : x.enclosingType? id = (x.forest.enclosingClass? id).bind x.declaredType? := by
    rw [enclosingType?, hk]
    rfl
  rw [if_pos hself] at hdeclaration
  rw [MeansSame, docNameType_of_self hself, htype]
  cases hc : x.forest.enclosingClass? id with
  | some c =>
    obtain ⟨hreached, hclass⟩ := h.linked.enclosingClass?_reached hid hc
    have hown := h.resolvedName_of_isClassLike hreached hclass
    rw [hc, Option.bind_some, hown, Option.getD_some] at hsolid
    rw [hc] at hdeclaration
    refine ⟨_, nameTypes_of_declaration rfl hdeclaration hown, ?_⟩
    rw [Option.bind_some, declaredType?, show (x.forest.node c).resolvedName = _ from hown]
    exact TypeSet.agrees_of_key hsolid rfl
  | none =>
    have hunknown : x.declaration? text = none := by simpa [hc] using haround
    rw [hc, Option.bind_none, Option.getD_none] at hfqn hsolid hdeclaration
    rw [hunknown, ite_self] at hdeclaration
    refine ⟨_, nameTypes_of_none hk hdeclaration hfqn (ne_empty_of_startsSolid hsolid), ?_⟩
    have hbare : Ty.named (unrooted text) = { Ty.named (unrooted text) with declaration := none } := by
      simp only [Ty.named]
    rw [namedType_eq, hunknown, Option.bind_none, Option.getD_none, hbare]
    exact TypeSet.agrees_of_key hsolid (congrArg lower (unrooted_unrooted text)).symm

/-- Any other name means what its qualified name stands for, if the imports are the same. -/
theorem Built.meansSame_of_class (h : Built f x) (hf : f.Unlinked) (hid : id ∈ x.forest.reached)
    (hk : x.forest.kind id = .name text .typeHint) (hclass : isClassName text = true)
    (hself : lower text ∉ ["self", "static", "parent", "\\self", "\\static"]) (hnative : Typing.native? text = none)
    (hscope : x.forest.nameScopeFor? id = some (x.forest.scopeAt id))
    (hname : ∀ fqn, x.forest.resolvedName id = some fqn → startsSolid (unrooted fqn) = true) :
    x.MeansSame id text := by
  have hfqn := h.resolvedName_of_class hid hk hself
  have hsolid := hname _ hfqn
  have hdeclaration := h.declaration_of_typeHint hf hk hfqn
  have hother : ¬ (lower text = "self" ∨ lower text = "static") := by
    rintro (hlower | hlower) <;> simp [hlower] at hself
  rw [if_neg hother, Option.none_or] at hdeclaration
  rw [MeansSame, hscope, docNameType_of_class hclass hself hnative]
  generalize (x.forest.scopeAt id).resolveClass text = fqn at *
  cases hd : x.forest.declaration id with
  | some d =>
    rw [hd] at hdeclaration
    have hknown : x.declaration? fqn = some d := by
      split at hdeclaration
      · exact hdeclaration.symm
      · cases hdeclaration
    obtain ⟨own, hown, hagrees⟩ := h.declared_agrees hsolid hknown
    exact ⟨_, nameTypes_of_declaration rfl hd hown, hagrees⟩
  | none =>
    refine ⟨_, nameTypes_of_none hk hd hfqn (ne_empty_of_startsSolid hsolid), ?_⟩
    rw [namedType_eq]
    exact TypeSet.agrees_of_key hsolid rfl

theorem fixed_of_name {role : NameRole} (hk : x.forest.kind id = .name text role) :
    x.Fixed id (x.nameTypes id text role) := by
  constructor
  · simp only [Strategy.dispatch, hk]
    rfl
  · rw [hk]
    rfl

theorem native?_eq_none_of_nativeTypes? (h : DocType.nativeTypes? text = none) : Typing.native? text = none := by
  unfold DocType.nativeTypes? at h
  dsimp only at h
  split_ifs at h
  exact Option.map_eq_none_iff.mp h

/-- A type is declared by the name of a class, which may be looked up in documentation too, and all imports of the file
or namespace `s` around it stand before it. -/
@[mk_iff] structure HintsClass (x : Index) (id s : NodeId) (text : String) : Prop where
  reached : id ∈ x.forest.reached
  kind : x.forest.kind id = .name text .typeHint
  className : isClassName text = true
  opener : x.forest.opener? id = some s
  imports : ∀ u ∈ x.forest.reached, (x.forest.kind u).isImport = true → x.forest.opener? u = some s →
    u ∈ x.forest.before id
  bound : lower text ∉ ["parent", "\\self", "\\static"]
  foreign : DocType.nativeTypes? text = none

instance (x : Index) (id s : NodeId) (text : String) : Decidable (x.HintsClass id s text) :=
  decidable_of_iff _ (x.hintsClass_iff id s text).symm

/-- The types of a type that is declared by the name of a class are those that the name has in documentation at the same
place, whatever was resolved before, if the name is qualified to one with a solid start and, where it says `self` or
`static`, it stands in a class or nothing is declared under it. -/
theorem answerAfter_agrees_docTypes {forests : List Forest} (h : ofForests forests = .ok x)
    (hunlinked : ∀ f ∈ forests, f.Unlinked) {s : NodeId} (hhint : x.HintsClass id s text)
    (hname : ∀ fqn, x.forest.resolvedName id = some fqn → startsSolid (unrooted fqn) = true)
    (haround : lower text = "self" ∨ lower text = "static" →
      (x.forest.enclosingClass? id).isSome = true ∨ x.declaration? text = none)
    (limit : Nat) (before : List NodeId) :
    (∀ types, x.answerAfter limit before id = .ok types → types.Agrees (x.docTypes id (.named text))) ∧
      (0 < limit → ∃ types, x.answerAfter limit before id = .ok types) := by
  obtain ⟨hid, hk, hclass, hs, himports, hbound, hforeign⟩ := hhint
  have hbuilt := ofForests_built h
  have hunlinked := joined_unlinked hunlinked
  have hfixed := fixed_of_name hk
  refine ⟨fun types htypes => ?_, fun hlimit => exists_answerAfter_of_fixed hfixed hlimit before⟩
  have hscope : x.forest.nameScopeFor? id = some (x.forest.scopeAt id) := by
    rw [hbuilt.nameScopeFor?_eq hunlinked.nameScopes hid (by rw [hk]; rfl), hs, Option.map_some,
      scopeAt_eq_scopeWith_reached hbuilt.linked hs himports]
  have hsame : x.MeansSame id text := by
    by_cases hself : lower text = "self" ∨ lower text = "static"
    · exact hbuilt.meansSame_of_self hunlinked hid hk hself hname (haround hself)
    · have hother : lower text ∉ ["self", "static", "parent", "\\self", "\\static"] := by
        simp only [List.mem_cons, not_or] at hself hbound ⊢
        exact ⟨hself.1, hself.2, hbound⟩
      have hnative := native?_eq_none_of_nativeTypes? hforeign
      exact hbuilt.meansSame_of_class hunlinked hid hk hclass hother hnative hscope hname
  obtain ⟨t, ht, hagrees⟩ := hsame
  rw [answerAfter_of_fixed hfixed htypes, ht, docTypes_named hforeign]
  exact hagrees

/-- A type that is declared by the alias of a class of another file, written in other letters. -/
def namedHints : List (String × String) :=
  [("a.php", "<?php\nuse Lib\\base as B;\nfunction f(): b \x7b\x7d\n"),
    ("b.php", "<?php\nnamespace Lib;\nclass Base \x7b\x7d\n")]

theorem answerAfter_agrees_namedHints : let x := ofPrograms namedHints
    x.HintsClass 1 4 "b" ∧ (x.docTypes 1 (.named "b")).toList.map Ty.declaration = [some 5] ∧
      ∃ types, x.answerAfter 1 [] 1 = .ok types ∧ types.Agrees (x.docTypes 1 (.named "b")) := by
  have hfacts : let x := ofPrograms namedHints
      x.HintsClass 1 4 "b" ∧ (x.docTypes 1 (.named "b")).toList.map Ty.declaration = [some 5] ∧
        x.forest.resolvedName 1 = some "Lib\\base" := by
    decide +kernel
  obtain ⟨hhint, hdeclared, hname⟩ := hfacts
  obtain ⟨hagrees, hexists⟩ := answerAfter_agrees_docTypes (ofForests_ofPrograms namedHints) unlinked_of_mem_forestsOf
    hhint (fun fqn hfqn => by obtain rfl := Option.some.inj (hname.symm.trans hfqn); decide) (by decide) 1 []
  obtain ⟨types, htypes⟩ := hexists Nat.one_pos
  exact ⟨hhint, hdeclared, types, htypes, hagrees types htypes⟩

/-! ## Where they do not agree -/

/-- A type that is declared by the name of a class has other types than the name has in documentation. -/
def Disagrees (x : Index) (id s : NodeId) (text : String) : Prop :=
  x.HintsClass id s text ∧
    ∃ types, x.answerAfter 1 [] id = .ok types ∧ ¬ types.Agrees (x.docTypes id (.named text))

theorem disagrees_of_nameTypes {s : NodeId} (h : x.HintsClass id s text ∧
    ¬ (Inquiry.orUnknown (x.forest.kind id) (x.nameTypes id text .typeHint)).Agrees (x.docTypes id (.named text))) :
    x.Disagrees id s text := by
  obtain ⟨hhint, hdisagree⟩ := h
  have hfixed := fixed_of_name hhint.kind
  obtain ⟨types, htypes⟩ := exists_answerAfter_of_fixed hfixed Nat.one_pos []
  refine ⟨hhint, types, htypes, ?_⟩
  rwa [answerAfter_of_fixed hfixed htypes]

/-- A class that is called like the class around, and a function outside of classes. -/
def selfOutside : List (String × String) :=
  [("a.php", "<?php\nclass Self \x7b\x7d\n"), ("b.php", "<?php\nfunction f(): Self \x7b\x7d\n")]

/-- An import whose text holds a comment, which is read as if it were a clause without a name. -/
def emptyImport : List (String × String) :=
  [("a.php", "<?php\nuse A /*, \\ as B ,*/;\nfunction f(): B \x7b\x7d\n")]

/-- A namespace that starts with blanks outside of ASCII, which may be part of names. -/
def blankNamespace : List (String × String) :=
  [("a.php", "<?php\nnamespace \u3000\\\u3000\\A;\nfunction f(): X \x7b\x7d\n")]

/-- Outside of classes `self` finds a declaration only where a type is declared; a name that is imported from nothing
has a type only in documentation; and a type that is kept under a name that is not its own normal form agrees with
nothing. -/
theorem hint_disagrees :
    (ofPrograms selfOutside).Disagrees 2 5 "Self" ∧ (ofPrograms emptyImport).Disagrees 2 5 "B" ∧
      (ofPrograms blankNamespace).Disagrees 0 3 "X" :=
  ⟨disagrees_of_nameTypes (by decide +kernel), disagrees_of_nameTypes (by decide +kernel),
    disagrees_of_nameTypes (by decide +kernel)⟩

end EventAtlas.Index
