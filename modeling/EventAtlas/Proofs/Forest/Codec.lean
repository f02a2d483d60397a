import EventAtlas.Forest.Codec
import EventAtlas.Proofs.Json.Record
import Mathlib.Tactic.MkIffOfInductiveProp

/-!
# Forests survive JSON

What is written of a forest is read back unchanged, part by part: places, modifiers, the kinds of nodes, nodes, scopes
and files. Reading takes numbers below 2 ^ 32 and maps in the order of their keys, so a forest has to hold no
others (`Storable`).
-/

namespace EventAtlas

open Json

/-! ## Places and modifiers -/

/-- The place is given by words. -/
@[mk_iff] structure Span.Storable (s : Span) : Prop where
  start : s.start < 2 ^ 32
  stop : s.stop < 2 ^ 32
  line : s.line < 2 ^ 32

instance (s : Span) : Decidable s.Storable :=
  decidable_of_iff _ s.storable_iff.symm

theorem Span.ofJson?_toJson {s : Span} (h : s.Storable) : ofJson? s.toJson = some s := by
  rw [ofJson?, toJson]
  refine Record.bind_of?_obj (by simp) fun r _ hfield => ?_
  have hstart : r.required "start" asWord? = some s.start :=
    Record.required_of_lookup (hfield _ rfl) (asWord?_nat h.start)
  have hstop : r.required "end" asWord? = some s.stop :=
    Record.required_of_lookup (hfield _ rfl) (asWord?_nat h.stop)
  have hline : r.required "line" asWord? = some s.line :=
    Record.required_of_lookup (hfield _ rfl) (asWord?_nat h.line)
  simp [hstart, hstop, hline]

/-- All values of the flags are read back by computation. -/
theorem Modifiers.ofJson?_toJson (m : Modifiers) : ofJson? m.toJson = some m := by
  obtain ⟨visibility, isStatic, isAbstract, isFinal, isReadonly⟩ := m
  revert isStatic isAbstract isFinal isReadonly
  cases visibility <;> decide +kernel

/-! ## Kinds of nodes -/

namespace NodeKind

theorem withModifiers?_obj (n : String) (m : Modifiers) (make : String → Modifiers → NodeKind) :
    withModifiers? make (.obj [("name", .str n), ("modifiers", m.toJson)]) = some (make n m) := by
  rw [withModifiers?]
  refine Record.bind_of?_obj (by simp) fun r _ hfield => ?_
  have hname : r.required "name" asStr? = some n := Record.required_of_lookup (hfield _ rfl) rfl
  have hmodifiers : r.required "modifiers" Modifiers.ofJson? = some m :=
    Record.required_of_lookup (hfield _ rfl) (Modifiers.ofJson?_toJson _)
  simp [hname, hmodifiers]

theorem parameterOf?_obj (n : String) (variadic byRef : Bool) (promoted : Option Modifiers) :
    parameterOf? (.obj [("name", .str n), ("variadic", .bool variadic), ("by_ref", .bool byRef),
      ("promoted", .ofOption (promoted.map Modifiers.toJson))]) = some (parameter n variadic byRef promoted) := by
  rw [parameterOf?]
  refine Record.bind_of?_obj (by simp) fun r _ hfield => ?_
  have hname : r.required "name" asStr? = some n := Record.required_of_lookup (hfield _ rfl) rfl
  have hvariadic : r.required "variadic" asBool? = some variadic := Record.required_of_lookup (hfield _ rfl) rfl
  have hbyRef : r.required "by_ref" asBool? = some byRef := Record.required_of_lookup (hfield _ rfl) rfl
  have hpromoted : r.optional "promoted" Modifiers.ofJson? = some promoted :=
    Record.optional_of_lookup Modifiers.toJson (hfield _ rfl) fun m _ => ⟨nofun, m.ofJson?_toJson⟩
  simp [hname, hvariadic, hbyRef, hpromoted]

/-- A kind is read back by computation, modifiers and words apart. -/
theorem decoded?_encoded (k : NodeKind) : decoded? k.encoded.1 (.obj k.encoded.2) = some k := by
  cases k with
  | classDecl n m => exact withModifiers?_obj n m classDecl
  | method n m => exact withModifiers?_obj n m method
  | property n m => exact withModifiers?_obj n m property
  | parameter n variadic byRef promoted => exact parameterOf?_obj n variadic byRef promoted
  | importDecl kind n localName => cases kind <;> rfl
  | name text role => cases role <;> rfl
  | argument n unpack => cases n <;> rfl
  | literal kind => cases kind <;> rfl
  | _ => rfl

/-- No field of a kind stands in the way of the field that names the kind. -/
theorem type_not_mem_encoded (k : NodeKind) : ∀ f ∈ k.encoded.2, f.1 ≠ "type" := by
  cases k <;> simp [encoded]

theorem ofJson?_toJson (k : NodeKind) : ofJson? k.toJson = some k := by
  simp only [ofJson?, toJson, tagged?_obj k.type_not_mem_encoded, Option.bind_eq_bind, Option.bind_some,
    decoded?_encoded]

end NodeKind

/-! ## Nodes, scopes and files -/

/-- The place and the links of the node are given by words. -/
@[mk_iff] structure Node.Storable (n : Node) : Prop where
  span : n.span.Storable
  children : ∀ c ∈ n.children, c < 2 ^ 32
  parent : ∀ p ∈ n.parent, p < 2 ^ 32
  declaration : ∀ d ∈ n.declaration, d < 2 ^ 32

instance (n : Node) : Decidable n.Storable :=
  decidable_of_iff _ n.storable_iff.symm

namespace Node

theorem children_eq_optionalField (children : List NodeId) :
    (if children.isEmpty then [] else [("children", Json.arr (children.map .nat))]) =
      optionalField "children" (if children.isEmpty then none else some (.arr (children.map .nat))) := by
  cases children <;> rfl

theorem ofJson?_toJson {n : Node} (h : n.Storable) : ofJson? n.toJson = some n := by
  simp only [ofJson?, toJson, children_eq_optionalField]
  refine Record.bind_of?_obj ?_ fun r _ hfield => ?_
  · have hknown : ["kind", "span", "children", "parent", "resolved_name", "declaration"].Nodup := by simp
    refine hknown.sublist ?_
    simp only [List.map_append]
    exact ((((List.Sublist.refl ["kind", "span"]).append (keys_optionalField_sublist ..)).append
      (keys_optionalField_sublist ..)).append (keys_optionalField_sublist ..)).append (keys_optionalField_sublist ..)
  · simp only [List.lookup_append, lookup_optionalField] at hfield
    have hkind : r.required "kind" NodeKind.ofJson? = some n.kind :=
      Record.required_of_lookup (hfield _ rfl) (NodeKind.ofJson?_toJson _)
    have hspan : r.required "span" Span.ofJson? = some n.span :=
      Record.required_of_lookup (hfield _ rfl) (Span.ofJson?_toJson h.span)
    have hchildren : r.defaulted "children" [] (asList? asWord?) = some n.children := by
      have hlookup : r.fields.lookup "children" =
          if n.children.isEmpty then none else some (.arr (n.children.map .nat)) :=
        (hfield _ rfl).trans (by simp [List.lookup_cons])
      have hwords := h.children
      generalize n.children = children at hlookup hwords
      cases children with
      | nil => simp [Record.defaulted, hlookup]
      | cons c rest => exact Record.defaulted_of_lookup hlookup (asList?_nats hwords)
    have hparent : r.optionalDefault "parent" asWord? = some n.parent :=
      Record.optionalDefault_of_lookup .nat ((hfield _ rfl).trans (by simp [List.lookup_cons]))
        fun p hp => ⟨by rintro ⟨⟩, asWord?_nat (h.parent p hp)⟩
    have hname : r.optionalDefault "resolved_name" asStr? = some n.resolvedName :=
      Record.optionalDefault_of_lookup .str ((hfield _ rfl).trans (by simp [List.lookup_cons]))
        fun _ _ => ⟨by rintro ⟨⟩, rfl⟩
    have hdeclaration : r.optionalDefault "declaration" asWord? = some n.declaration :=
      Record.optionalDefault_of_lookup .nat ((hfield _ rfl).trans (by simp [List.lookup_cons]))
        fun d hd => ⟨by rintro ⟨⟩, asWord?_nat (h.declaration d hd)⟩
    simp [hkind, hspan, hchildren, hparent, hname, hdeclaration]

end Node

/-- The tables of the scope are in order. -/
@[mk_iff] structure NameScope.Ordered (s : NameScope) : Prop where
  classes : s.classes.Ordered
  functions : s.functions.Ordered
  constants : s.constants.Ordered

instance (s : NameScope) : Decidable s.Ordered :=
  decidable_of_iff _ s.ordered_iff.symm

namespace NameScope

theorem asMap?_tableJson {m : Sorted String String} (h : m.Ordered) : asMap? asStr? (tableJson m) = some m :=
  asMap?_entries h fun _ _ => rfl

theorem ofJson?_toJson {s : NameScope} (hs : s.node < 2 ^ 32) (h : s.Ordered) : ofJson? s.toJson = some s := by
  rw [ofJson?, toJson]
  refine Record.bind_of?_obj (by simp) fun r _ hfield => ?_
  have hnode : r.required "node" asWord? = some s.node :=
    Record.required_of_lookup (hfield _ rfl) (asWord?_nat hs)
  have hcurrent : r.required "namespace" asStr? = some s.current := Record.required_of_lookup (hfield _ rfl) rfl
  have hclasses : r.defaulted "classes" {} (asMap? asStr?) = some s.classes :=
    Record.defaulted_of_lookup (hfield _ rfl) (asMap?_tableJson h.classes)
  have hfunctions : r.defaulted "functions" {} (asMap? asStr?) = some s.functions :=
    Record.defaulted_of_lookup (hfield _ rfl) (asMap?_tableJson h.functions)
  have hconstants : r.defaulted "constants" {} (asMap? asStr?) = some s.constants :=
    Record.defaulted_of_lookup (hfield _ rfl) (asMap?_tableJson h.constants)
  simp [hnode, hcurrent, hclasses, hfunctions, hconstants]

end NameScope

theorem SourceFile.ofJson?_toJson {f : SourceFile} (h : f.root < 2 ^ 32) : ofJson? f.toJson = some f := by
  rw [ofJson?, toJson]
  refine Record.bind_of?_obj (by simp) fun r _ hfield => ?_
  have hpath : r.required "path" asStr? = some f.path := Record.required_of_lookup (hfield _ rfl) rfl
  have hhash : r.required "content_hash" asStr? = some f.contentHash := Record.required_of_lookup (hfield _ rfl) rfl
  have hroot : r.required "root" asWord? = some f.root :=
    Record.required_of_lookup (hfield _ rfl) (asWord?_nat h)
  simp [hpath, hhash, hroot]

/-- Every part of the forest is given by words and maps. -/
@[mk_iff] structure Forest.Storable (f : Forest) : Prop where
  node : ∀ n ∈ f.nodes, n.Storable
  root : ∀ file ∈ f.files, file.root < 2 ^ 32
  scope : ∀ s ∈ f.nameScopes, s.node < 2 ^ 32 ∧ s.Ordered

instance (f : Forest) : Decidable f.Storable :=
  decidable_of_iff _ f.storable_iff.symm

theorem Forest.ofJson?_toJson {f : Forest} (h : f.Storable) : ofJson? f.toJson = some f := by
  rw [ofJson?, toJson]
  refine Record.bind_of?_obj (by simp) fun r _ hfield => ?_
  have hnodes : r.required "nodes" (asList? Node.ofJson?) = some f.nodes.toList :=
    Record.required_of_lookup (hfield _ rfl)
      (asList?_map fun n hn => Node.ofJson?_toJson (h.node n (Array.mem_toList_iff.mp hn)))
  have hfiles : r.required "files" (asList? SourceFile.ofJson?) = some f.files :=
    Record.required_of_lookup (hfield _ rfl)
      (asList?_map fun file hfile => SourceFile.ofJson?_toJson (h.root file hfile))
  have hscopes : r.required "name_scopes" (asList? NameScope.ofJson?) = some f.nameScopes :=
    Record.required_of_lookup (hfield _ rfl)
      (asList?_map fun s hs => NameScope.ofJson?_toJson (h.scope s hs).1 (h.scope s hs).2)
  simp [hnodes, hfiles, hscopes]

end EventAtlas
