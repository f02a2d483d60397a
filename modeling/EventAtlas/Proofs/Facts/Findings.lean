import EventAtlas.Facts.Fact
import EventAtlas.Proofs.Sorted

/-!
# What findings leave in a set of facts

Extraction adds facts and diagnostics to a set, one after the other. A fact that cannot be told from one that is there
is passed over: so every fact of the set was found, and for every fact that was found the set has one with its key. No
diagnostic is passed over.
-/

namespace EventAtlas

/-! ## Keys -/

instance : Std.LawfulEqOrd FactKind where
  compare_self {a} := by cases a <;> rfl
  eq_of_compare {a b} h := by cases a <;> cases b <;> first | rfl | cases h

instance : Std.TransOrd FactKind where
  eq_swap {a b} := by cases a <;> cases b <;> rfl
  isLE_trans {a b c} := by cases a <;> cases b <;> cases c <;> decide

theorem FactKey.compare_eq (a b : FactKey) : compare a b = ((compare a.kind b.kind).then
    ((compare a.fqn b.fqn).then ((compare a.method b.method).then ((compare a.event b.event).then .eq)))) := rfl

instance : Std.LawfulEqOrd FactKey where
  compare_self := by simp [FactKey.compare_eq]
  eq_of_compare {a b} h := by
    simp only [FactKey.compare_eq, Ordering.then_eq_eq, Std.LawfulEqCmp.compare_eq_iff_eq] at h
    obtain ⟨hkind, hfqn, hmethod, hevent, -⟩ := h
    cases a
    cases b
    simp_all

theorem FactKey.compare_eq_compareLex : (compare : FactKey → FactKey → Ordering) = compareLex (compareOn kind)
    (compareLex (compareOn fqn) (compareLex (compareOn method) (compareOn event))) := by
  funext a b
  simp only [compare_eq, compareLex, compareOn, Ordering.then_eq]

instance : Std.TransOrd FactKey := by
  unfold Std.TransOrd
  rw [FactKey.compare_eq_compareLex]
  infer_instance

namespace FactSet

variable {s : FactSet} {f g : Fact} {d : Diagnostic}

/-- Every fact stands under its own key. -/
def Keyed (s : FactSet) : Prop :=
  ∀ e ∈ s.facts.entries, e.2.key = e.1

theorem keyed_empty : empty.Keyed := by
  intro e he
  exact absurd he List.not_mem_nil

theorem Keyed.insert (h : s.Keyed) (f : Fact) : (s.insert f).Keyed := by
  unfold FactSet.insert
  split
  · exact h
  · intro e he
    obtain rfl | he := Sorted.mem_insertEntry he
    · rfl
    · exact h e he

theorem Keyed.exists_of_has (h : s.Keyed) (hf : s.has f = true) : ∃ fact ∈ s.toList, fact.key = f.key := by
  obtain ⟨e, he, hkey⟩ := List.any_eq_true.mp hf
  exact ⟨e.2, List.mem_map_of_mem he, (h e he).trans (beq_iff_eq.mp hkey)⟩

theorem has_insert_self (s : FactSet) (f : Fact) : (s.insert f).has f = true := by
  unfold FactSet.insert
  split
  · assumption
  · rw [has, Sorted.contains_eq_isSome_find?, Sorted.find?_insert_self]
    rfl

theorem has_insert (f : Fact) (hg : s.has g = true) : (s.insert f).has g = true := by
  by_cases hkey : g.key = f.key
  · have hself := s.has_insert_self f
    rwa [has, hkey]
  · unfold FactSet.insert
    split
    · exact hg
    · rw [has, Sorted.contains_eq_isSome_find?] at hg ⊢
      rwa [Sorted.find?_insert_of_ne _ _ hkey]

theorem mem_toList_insert (h : g ∈ (s.insert f).toList) : g = f ∨ g ∈ s.toList := by
  unfold FactSet.insert at h
  split at h
  · exact .inr h
  · obtain ⟨e, he, rfl⟩ := List.mem_map.mp h
    obtain rfl | he := Sorted.mem_insertEntry he
    · exact .inl rfl
    · exact .inr (List.mem_map_of_mem he)

theorem diagnostics_insert (s : FactSet) (f : Fact) : (s.insert f).diagnostics = s.diagnostics := by
  unfold FactSet.insert
  split <;> rfl

end FactSet

/-! ## Findings -/

/-- What can be added to a set of facts. -/
inductive Finding where
  | fact (f : Fact)
  | diagnostic (d : Diagnostic)

namespace FactSet

variable {s : FactSet} {f g : Fact} {d : Diagnostic} {l : List Finding}

/-- The set with a finding. -/
def add (s : FactSet) : Finding → FactSet
  | .fact f => s.insert f
  | .diagnostic d => s.report d

/-- The set with findings, one after the other. -/
def addAll (s : FactSet) (l : List Finding) : FactSet :=
  l.foldl add s

theorem addAll_append (s : FactSet) (l l' : List Finding) : s.addAll (l ++ l') = (s.addAll l).addAll l' :=
  List.foldl_append

theorem Keyed.addAll (h : s.Keyed) (l : List Finding) : (s.addAll l).Keyed := by
  induction l generalizing s with
  | nil => exact h
  | cons found rest ih =>
    cases found with
    | fact f => exact ih (h.insert f)
    | diagnostic d => exact ih h

theorem has_addAll (l : List Finding) (hg : s.has g = true) : (s.addAll l).has g = true := by
  induction l generalizing s with
  | nil => exact hg
  | cons found rest ih =>
    cases found with
    | fact f => exact ih (has_insert f hg)
    | diagnostic d => exact ih hg

/-- For a fact that was found there is one with its key. -/
theorem has_addAll_of_mem (h : .fact f ∈ l) : (s.addAll l).has f = true := by
  induction l generalizing s with
  | nil => cases h
  | cons found rest ih =>
    obtain rfl | h := List.mem_cons.mp h
    · exact has_addAll rest (s.has_insert_self f)
    · exact ih h

/-- Every fact was there or was found. -/
theorem mem_toList_addAll (h : f ∈ (s.addAll l).toList) : f ∈ s.toList ∨ .fact f ∈ l := by
  induction l generalizing s with
  | nil => exact .inl h
  | cons found rest ih =>
    obtain hs | hrest := ih h
    · cases found with
      | fact g =>
        obtain rfl | hs := mem_toList_insert hs
        · exact .inr List.mem_cons_self
        · exact .inl hs
      | diagnostic d => exact .inl hs
    · exact .inr (List.mem_cons_of_mem _ hrest)

/-- The diagnostics are those that were there and those that were found. -/
theorem mem_diagnostics_addAll : d ∈ (s.addAll l).diagnostics ↔ d ∈ s.diagnostics ∨ .diagnostic d ∈ l := by
  induction l generalizing s with
  | nil => simp [addAll]
  | cons found rest ih =>
    change d ∈ ((s.add found).addAll rest).diagnostics ↔ _
    rw [ih]
    cases found with
    | fact g => simp [add, diagnostics_insert]
    | diagnostic e => simp [add, report, or_assoc]

end FactSet

end EventAtlas
