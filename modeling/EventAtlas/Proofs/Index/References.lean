import EventAtlas.Proofs.Index.Places

/-!
# References agree with the index

The four rounds of the reference pass write the same field and use a table made in the middle of building. What comes
out is simple: a name that means the class around refers to it; any other name that stands where classes are looked up
refers to what the finished index knows under its qualified name; and no other name refers to anything.
-/

namespace EventAtlas

/-- A new object or an access to something static: what has the name of a class first. -/
def NodeKind.namesClassFirst : NodeKind → Bool
  | new | staticCall _ | classConstantFetch _ | staticPropertyFetch _ => true
  | _ => false

namespace Forest

variable {f : Forest} {id : NodeId}

/-- The name stands where a class is looked up under its qualified name `fqn`. -/
def RefersByName (f : Forest) (id : NodeId) (fqn : String) : NameRole → Prop
  | .typeHint | .extends | .implements | .traitUse => Typing.isNative fqn = false
  | .classRef =>
    (Typing.isNative fqn = false ∧ ∃ p, f.parent id = some p ∧ f.kind p = .instanceof) ∨
      ∃ site, (f.kind site).namesClassFirst = true ∧ f.firstChild? site = some id
  | .function | .constant => False

theorem nameOf?_of_resolvedName {text fqn : String} {role : NameRole} (hk : f.kind id = .name text role)
    (hfqn : f.resolvedName id = some fqn) : f.nameOf? id = some fqn := by
  rw [nameOf?, hk, show (f.node id).resolvedName = some fqn from hfqn]
  rfl

theorem className?_eq_some_iff {site : NodeId} : Reference.className? f site = some id ↔
    f.firstChild? site = some id ∧ ∃ text, f.kind id = .name text .classRef := by
  rw [Reference.className?, Option.filter_eq_some_iff]
  refine and_congr_right fun _ => ?_
  constructor
  · intro h
    split at h
    · next text hk => exact ⟨text, hk⟩
    · cases h
  · rintro ⟨text, hk⟩
    rw [hk]

/-- The rounds for static accesses and new objects look up the first children of those. -/
theorem isNamedAt_iff :
    Reference.IsNamedAt f Reference.isStaticAccess id ∨ Reference.IsNamedAt f (· == .new) id ↔
      (∃ text, f.kind id = .name text .classRef) ∧
        ∃ site, (f.kind site).namesClassFirst = true ∧ f.firstChild? site = some id := by
  have hkinds (k : NodeKind) : k.namesClassFirst = true ↔ Reference.isStaticAccess k = true ∨ (k == .new) = true := by
    cases k <;> simp [NodeKind.namesClassFirst, Reference.isStaticAccess]
  simp only [Reference.IsNamedAt, className?_eq_some_iff, hkinds]
  constructor
  · rintro (⟨site, hk, hfirst, hname⟩ | ⟨site, hk, hfirst, hname⟩)
    · exact ⟨hname, site, .inl hk, hfirst⟩
    · exact ⟨hname, site, .inr hk, hfirst⟩
  · rintro ⟨hname, site, hk | hk, hfirst⟩
    · exact .inl ⟨site, hk, hfirst, hname⟩
    · exact .inr ⟨site, hk, hfirst, hname⟩

theorem isLookedUp_iff {text fqn : String} {role : NameRole} (hk : f.kind id = .name text role)
    (hname : f.nameOf? id = some fqn) : f.IsLookedUp id ↔ f.RefersByName id fqn role := by
  have hforeign : Reference.IsForeignType f id ↔ Reference.isTypeName f id = true ∧ Typing.isNative fqn = false := by
    simp only [Reference.IsForeignType, hname, Option.some.injEq, exists_eq_left']
  rw [IsLookedUp, ← or_assoc, isNamedAt_iff, hforeign]
  unfold Reference.isTypeName
  cases role with
  | classRef =>
    simp only [hk, RefersByName, Option.any_eq_true, beq_iff_eq]
    constructor
    · rintro (⟨-, hsite⟩ | ⟨hparent, hnative⟩)
      · exact .inr hsite
      · exact .inl ⟨hnative, hparent⟩
    · rintro (⟨hnative, hparent⟩ | hsite)
      · exact .inr ⟨hparent, hnative⟩
      · exact .inl ⟨⟨text, rfl⟩, hsite⟩
  | _ => simp [hk, RefersByName]

end Forest

namespace Index

open Forest

variable {x : Index}

open Classical in
/-- The declaration of a name that stands for a class: the class around if that is meant and there is one, else what the
index has under the qualified name, if the name stands where classes are looked up. -/
theorem Built.declaration_of_name {f : Forest} (h : Built f x) (hf : f.Unlinked) {id : NodeId} {text fqn : String}
    {role : NameRole} (hk : x.forest.kind id = .name text role) (hrole : role.isClassLike = true)
    (hname : x.forest.nameOf? id = some fqn) :
    x.forest.declaration id =
      (if (Text.sameLetters text "self" || Text.sameLetters text "static") = true then x.forest.enclosingClass? id
        else none).or (if x.forest.RefersByName id fqn role then x.declaration? fqn else none) := by
  obtain ⟨linked, named, hlinked, hnamed, hsame, hrefs⟩ := h.exists_passes
  have hk' : named.kind id = .name text role := by rw [← hk, hsame.tree.kind]
  rw [hsame.nameOf?] at hname
  have hfresh : named.declaration id = none := by
    rw [hnamed.declaration, hlinked.same.declaration]
    exact hf.declaration id
  have hlookedUp : named.IsLookedUp id ↔ x.forest.RefersByName id fqn role := by
    rw [isLookedUp_iff hk' hname]
    unfold RefersByName firstChild?
    rw [hsame.parent, hsame.tree.kind, hsame.tree.children]
  rw [hrefs, declaration_linkReferences hk', ← hrefs, hfresh, Option.or_none, hsame.enclosingClass?]
  simp only [hlookedUp, Reference.target?, hname, Option.bind_some, hk', Reference.meansSelf, hrole, Bool.true_and]

/-- A name that stands for a class refers to the class around if it says `self` or `static` and there is one; else it
refers to the declaration that the index has under its qualified name, if it stands where classes are looked up; else to
nothing. -/
theorem declaration_eq_of_classLike {forests : List Forest} (h : ofForests forests = .ok x)
    (hunlinked : ∀ f ∈ forests, f.Unlinked) {id : NodeId} {text : String} {role : NameRole}
    (hid : id ∈ x.forest.reached) (hk : x.forest.kind id = .name text role) (hrole : role.isClassLike = true) :
    ∃ fqn, x.forest.resolvedName id = some fqn ∧
      ((Text.sameLetters text "self" || Text.sameLetters text "static") = true →
        ∀ c, x.forest.enclosingClass? id = some c → x.forest.declaration id = some c) ∧
      ((Text.sameLetters text "self" || Text.sameLetters text "static") = false ∨ x.forest.enclosingClass? id = none →
        (x.forest.RefersByName id fqn role → x.forest.declaration id = x.declaration? fqn) ∧
        (¬ x.forest.RefersByName id fqn role → x.forest.declaration id = none)) := by
  have hbuilt := ofForests_built h
  have hfqn := hbuilt.resolvedName_of_name hid hk
  have hdeclaration :=
    hbuilt.declaration_of_name (joined_unlinked hunlinked) hk hrole (nameOf?_of_resolvedName hk hfqn)
  refine ⟨_, hfqn, fun hself c hc => ?_, fun hother => ⟨fun hby => ?_, fun hby => ?_⟩⟩
  · rw [hdeclaration, if_pos hself, hc]
    rfl
  · rw [hdeclaration, if_pos hby]
    obtain hself | hnone := hother
    · rw [hself]
      rfl
    · rw [hnone, ite_self]
      rfl
  · rw [hdeclaration, if_neg hby, Option.or_none]
    obtain hself | hnone := hother
    · rw [hself]
      rfl
    · rw [hnone, ite_self]

/-- A class that makes an object of itself. -/
def selfMaker : List (String × String) :=
  [("a.php", "<?php\nclass A \x7b function f(self $x): B \x7b new A; \x7d \x7d\n")]

theorem declaration_selfMaker : ∃ fqn, (ofPrograms selfMaker).forest.resolvedName 3 = some fqn ∧
    (ofPrograms selfMaker).declaration? fqn = some 8 ∧
      (ofPrograms selfMaker).forest.declaration 3 = (ofPrograms selfMaker).declaration? fqn := by
  have hfacts : let x := ofPrograms selfMaker
      3 ∈ x.forest.reached ∧ x.forest.kind 3 = .name "A" .classRef ∧ x.forest.resolvedName 3 = some "A" ∧
        (x.forest.kind 4).namesClassFirst = true ∧ x.forest.firstChild? 4 = some 3 ∧ x.declaration? "A" = some 8 := by
    decide +kernel
  obtain ⟨hid, hk, hname, hsite, hfirst, hknown⟩ := hfacts
  obtain ⟨fqn, hfqn, -, hother⟩ := declaration_eq_of_classLike (ofForests_ofPrograms selfMaker)
    unlinked_of_mem_forestsOf hid hk rfl
  obtain rfl := Option.some.inj (hfqn.symm.trans hname)
  exact ⟨_, hname, hknown, (hother (.inl (by decide))).1 (.inr ⟨4, hsite, hfirst⟩)⟩

end Index

end EventAtlas
