import EventAtlas.Proofs.Hierarchy.Closure
import Mathlib.Data.List.Perm.Basic

/-!
# The orders of a hierarchy

Members are looked up and properties are gathered along two lists of owners. Both name every owner once, and both name
the same classes and traits: they differ in their order, and in the interfaces, which have no properties. Together with
what the walks meet (`prefix_parentChain_iff`, `mem_traitClosure_iff`, `mem_interfaceClosure_iff`) this says exactly what
the orders hold, for links of any kind (`hierarchy_exact`).
-/

namespace EventAtlas.Forest

open List Relation

variable {f : Forest} {c d : NodeId}

theorem nodup_eraseDups : ∀ l : List NodeId, l.eraseDups.Nodup
  | [] => nodup_nil
  | a :: rest => by
    rw [eraseDups_cons]
    refine nodup_cons.mpr ⟨fun hmem => ?_, nodup_eraseDups (rest.filter fun b => !b == a)⟩
    have hne := (mem_filter.mp (mem_eraseDups.mp hmem)).2
    simp at hne
termination_by l => l.length
decreasing_by exact Nat.lt_succ_of_le (length_filter_le _ _)

/-- An owner of members other than an interface: the declaration, one of its parents, or a trait of one of these. -/
def IsOwner (f : Forest) (c d : NodeId) : Prop :=
  ∃ p ∈ c :: f.parentChain c, d = p ∨ d ∈ f.traitClosure p

instance (f : Forest) (c d : NodeId) : Decidable (f.IsOwner c d) :=
  inferInstanceAs (Decidable (∃ p ∈ c :: f.parentChain c, d = p ∨ d ∈ f.traitClosure p))

theorem mem_classesAndTraits_iff : d ∈ f.classesAndTraits c ↔ f.IsOwner c d := by
  simp only [classesAndTraits, mem_eraseDups, mem_flatMap, mem_cons, IsOwner]

theorem mem_lookupOrder_iff : d ∈ f.lookupOrder c ↔ f.IsOwner c d ∨ d ∈ f.interfaceClosure c := by
  rw [lookupOrder, mem_eraseDups, mem_append, mem_classesAndTraits_iff]

theorem head?_lookupOrder (f : Forest) (c : NodeId) : (f.lookupOrder c).head? = some c := by
  simp only [lookupOrder, classesAndTraits, flatMap_cons, cons_append, eraseDups_cons, head?_cons]

theorem mem_propertyOrder_iff : d ∈ f.propertyOrder c ↔ f.IsOwner c d := by
  simp only [propertyOrder, mem_eraseDups, mem_append, mem_flatMap, mem_reverse, mem_cons,
    not_mem_nil, or_false, IsOwner]
  constructor
  · rintro ((⟨p, hp, hd⟩ | hd) | rfl)
    · exact ⟨p, .inr hp, hd⟩
    · exact ⟨c, .inl rfl, .inr hd⟩
    · exact ⟨d, .inl rfl, .inl rfl⟩
  · rintro ⟨p, rfl | hp, hd⟩
    · rcases hd with rfl | hd
      · exact .inr rfl
      · exact .inl (.inr hd)
    · exact .inl (.inl ⟨p, hp, hd⟩)

/-- Properties are gathered from the owners of the order of lookup, without those that are interfaces only. -/
theorem propertyOrder_perm (f : Forest) (c : NodeId) :
    (f.propertyOrder c).Perm ((f.lookupOrder c).filter fun d => f.IsOwner c d) := by
  have hproperties : (f.propertyOrder c).Nodup := nodup_eraseDups _
  have hlookup : (f.lookupOrder c).Nodup := nodup_eraseDups _
  apply (perm_ext_iff_of_nodup hproperties (hlookup.filter _)).mpr
  intro d
  rw [mem_propertyOrder_iff, mem_filter, mem_lookupOrder_iff, decide_eq_true_eq]
  exact ⟨fun h => ⟨.inl h, h⟩, fun h => h.2⟩

/-- What the walks and the orders of a hierarchy hold, for any links, circular ones too. The parents of `c` are the
longest ascent from `c` that repeats nothing: the ascents that repeat nothing are its beginnings. The traits and the
interfaces of `c` are what can be reached by links of their kind, each once. The order of lookup starts with `c` and has
every owner and every interface once, and the order of properties has the same owners without those that are interfaces
only. -/
theorem hierarchy_exact (f : Forest) (c : NodeId) :
    (∀ l, l <+: f.parentChain c ↔ f.Ascends (c :: l) ∧ (c :: l).Nodup) ∧
    ((f.traitClosure c).Nodup ∧ ∀ d, d ∈ f.traitClosure c ↔ d ≠ c ∧ TransGen (Link f.traits) c d) ∧
    ((f.interfaceClosure c).Nodup ∧ ∀ d, d ∈ f.interfaceClosure c ↔
      d ≠ c ∧ ∃ p ∈ c :: f.parentChain c, TransGen (Link f.interfaces) p d) ∧
    ((f.lookupOrder c).head? = some c ∧ (f.lookupOrder c).Nodup ∧
      ∀ d, d ∈ f.lookupOrder c ↔ f.IsOwner c d ∨ d ∈ f.interfaceClosure c) ∧
    (f.propertyOrder c).Perm ((f.lookupOrder c).filter fun d => f.IsOwner c d) := by
  have htraits : (f.traitClosure c).Nodup :=
    (List.nodup_cons.mp (nodup_closureFrom (fun q => traits_eq_nil_of_size_le) c (f.traits c))).2
  have hinterfaces : (f.interfaceClosure c).Nodup :=
    (List.nodup_cons.mp (nodup_closureFrom (fun q => interfaces_eq_nil_of_size_le) c _)).2
  refine ⟨fun l => prefix_parentChain_iff, ⟨htraits, fun d => mem_traitClosure_iff⟩,
    ⟨hinterfaces, fun d => mem_interfaceClosure_iff⟩, ?_, propertyOrder_perm f c⟩
  exact ⟨head?_lookupOrder f c, nodup_eraseDups _, fun d => mem_lookupOrder_iff⟩

end EventAtlas.Forest
