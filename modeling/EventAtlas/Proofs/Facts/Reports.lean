import EventAtlas.Proofs.Facts.Findings
import EventAtlas.Report
import Mathlib.Data.List.Nodup

/-!
# Reports conserve facts

Facts and diagnostics come to a set one by one, or from another set that is merged into it. `FactSet.Given` keeps the
account of all that was given; the set keeps the first fact of each key and every diagnostic (`Given.find?_facts`,
`Given.diagnostics_eq`). A report puts the facts of a set into groups. After some of them the group of a component holds
those that belong to it, in the order in which they came (`Grouping.Holds`), and one more fact keeps it so
(`Holds.add`). From this follows what the report lists: nothing is lost, nothing is listed twice, and what is counted is
what is listed.
-/

namespace EventAtlas

open List

namespace FactSet

/-! ## What a set keeps -/

/-- The set is what arises when these facts and these diagnostics are given in this order, one by one or together with
another set. -/
inductive Given : FactSet → List Fact → List Diagnostic → Prop
  | empty : Given empty [] []
  | insert {s given said} (h : Given s given said) (f : Fact) : Given (s.insert f) (given ++ [f]) said
  | report {s given said} (h : Given s given said) (d : Diagnostic) : Given (s.report d) given (said ++ [d])
  | merge {s t given given' said said'} (h : Given s given said) (h' : Given t given' said') :
    Given (s.merge t) (given ++ given') (said ++ said')

variable {s t : FactSet} {f : Fact} {given given' : List Fact} {said said' : List Diagnostic}

/-- A fact comes in under its key unless another one is there. -/
theorem find?_insert (s : FactSet) (f : Fact) (k : FactKey) :
    (s.insert f).facts.find? k = (s.facts.find? k).or ([f].find? fun g => g.key == k) := by
  have hhas : s.has f = (s.facts.find? f.key).isSome := s.facts.contains_eq_isSome_find? f.key
  unfold FactSet.insert
  by_cases hk : f.key = k
  · subst hk
    cases hfind : s.facts.find? f.key with
    | some g => simp [hhas, hfind]
    | none => simp [hhas, hfind, Sorted.find?_insert_self]
  · have hne : k ≠ f.key := fun h => hk h.symm
    split
    · simp [hk]
    · simp [hk, Sorted.find?_insert_of_ne s.facts f hne]

theorem find?_foldl_insert (l : List Fact) (s : FactSet) (k : FactKey) :
    (l.foldl FactSet.insert s).facts.find? k = (s.facts.find? k).or (l.find? fun g => g.key == k) := by
  induction l generalizing s with
  | nil => exact Option.or_none.symm
  | cons f rest ih =>
    rw [foldl_cons, ih, find?_insert, Option.or_assoc, ← find?_append, singleton_append]

theorem ordered_insert (h : s.facts.Ordered) (f : Fact) : (s.insert f).facts.Ordered := by
  unfold FactSet.insert
  split
  · exact h
  · exact h.insert f.key f

theorem Keyed.foldl_insert (h : s.Keyed) (l : List Fact) : (l.foldl FactSet.insert s).Keyed :=
  List.foldlRecOn l _ h fun _ hs f _ => hs.insert f

theorem ordered_foldl_insert (h : s.facts.Ordered) (l : List Fact) : (l.foldl FactSet.insert s).facts.Ordered :=
  List.foldlRecOn (motive := fun s : FactSet => s.facts.Ordered) l _ h fun _ hs f _ => ordered_insert hs f

/-- Where facts stand under their keys, the one of a key is the first in the list with this key. -/
theorem Keyed.find?_toList (h : s.Keyed) (k : FactKey) : (s.toList.find? fun f => f.key == k) = s.facts.find? k := by
  obtain ⟨⟨entries⟩, said⟩ := s
  simp only [Keyed, toList, Sorted.values, Sorted.find?] at h ⊢
  induction entries with
  | nil => rfl
  | cons e rest ih =>
    obtain ⟨he, hrest⟩ := forall_mem_cons.mp h
    rw [map_cons, find?_cons, find?_cons, he]
    cases e.1 == k with
    | true => rfl
    | false => exact ih hrest

theorem Keyed.merge (hs : s.Keyed) (t : FactSet) : (s.merge t).Keyed :=
  hs.foldl_insert t.toList

/-- Of two facts with one key, the first set's is kept. -/
theorem Keyed.find?_merge (s : FactSet) (h : t.Keyed) (k : FactKey) :
    (s.merge t).facts.find? k = (s.facts.find? k).or (t.facts.find? k) := by
  rw [← h.find?_toList]
  exact find?_foldl_insert t.toList s k

namespace Given

variable (h : Given s given said)
include h

theorem keyed : s.Keyed := by
  induction h with
  | empty => exact keyed_empty
  | insert _ f ih => exact ih.insert f
  | report _ _ ih => exact ih
  | merge _ _ ih _ => exact ih.merge _

theorem ordered : s.facts.Ordered := by
  induction h with
  | empty => exact Sorted.ordered_empty
  | insert _ f ih => exact ordered_insert ih f
  | report _ _ ih => exact ih
  | merge _ _ ih _ => exact ordered_foldl_insert ih _

/-- Under a key stands the first fact with this key that was given. -/
theorem find?_facts (k : FactKey) : s.facts.find? k = given.find? fun f => f.key == k := by
  induction h with
  | empty => rfl
  | insert _ f ih => rw [find?_insert, ih, find?_append]
  | report _ _ ih => exact ih
  | merge _ h' ih ih' => rw [h'.keyed.find?_merge, ih, ih', find?_append]

theorem diagnostics_eq : s.diagnostics = said := by
  induction h with
  | empty => rfl
  | insert _ f ih => rw [diagnostics_insert, ih]
  | report _ d ih => rw [FactSet.report, ih]
  | merge _ _ ih ih' => rw [FactSet.merge, ih, ih']

/-- The facts of a set stand in the order of their keys. -/
theorem pairwise_toList : s.toList.Pairwise fun f g => compare f.key g.key = .lt := by
  rw [toList, Sorted.values, pairwise_map]
  refine List.Pairwise.imp_of_mem ?_ h.ordered
  intro d e hd he hlt
  rwa [h.keyed d hd, h.keyed e he]

theorem nodup_toList : s.toList.Nodup := by
  refine List.Pairwise.imp ?_ h.pairwise_toList
  rintro f _ hlt rfl
  simp [Std.ReflCmp.compare_self] at hlt

/-- A fact is in the set if it was the first with its key to be given. -/
theorem mem_toList_iff : f ∈ s.toList ↔ given.find? (fun g => g.key == f.key) = some f := by
  rw [← h.find?_facts, h.ordered.find?_eq_some_iff, toList, Sorted.values, mem_map]
  constructor
  · rintro ⟨e, he, rfl⟩
    rwa [h.keyed e he]
  · intro hmem
    exact ⟨_, hmem, rfl⟩

end Given

end FactSet

/-! ## Groups -/

namespace Report

variable {component : Fact → Option String} {g : Grouping} {l : List Fact} {name : String}

/-- The grouping holds the facts of the list: a component has those that belong to it, if there are any, and the rest
belongs to none. Every group keeps the order of the list. -/
structure Grouping.Holds (component : Fact → Option String) (l : List Fact) (g : Grouping) : Prop where
  ordered : g.groups.Ordered
  group : ∀ name fs, g.groups.find? name = some fs ↔ fs = l.filter (component · = some name) ∧ fs ≠ []
  unassigned : g.unassigned = l.filter (component · = none)

namespace Grouping.Holds

variable (h : g.Holds component l)
include h

theorem getD_find? (name : String) : (g.groups.find? name).getD [] = l.filter (component · = some name) := by
  cases hfind : g.groups.find? name with
  | some fs => exact ((h.group name fs).mp hfind).1
  | none =>
    by_contra hne
    have hsome := (h.group name _).mpr ⟨rfl, fun hnil => hne hnil.symm⟩
    cases hfind.symm.trans hsome

omit h in
theorem empty (component : Fact → Option String) : ({} : Grouping).Holds component [] where
  ordered := Sorted.ordered_empty
  group _ _ := iff_of_false nofun fun h => h.2 h.1
  unassigned := rfl

/-- One more fact goes to the end of its group. -/
theorem add (f : Fact) : (g.add component f).Holds component (l ++ [f]) := by
  unfold Grouping.add
  cases hf : component f with
  | none =>
    refine ⟨h.ordered, fun name fs => ?_, ?_⟩
    · simpa [hf] using h.group name fs
    · simp [h.unassigned, hf]
  | some name =>
    refine ⟨h.ordered.insert name _, fun other fs => ?_, ?_⟩
    · by_cases hother : other = name
      · subst hother
        rw [Sorted.find?_insert_self, h.getD_find?, Option.some.injEq]
        constructor
        · rintro rfl
          simp [hf]
        · rintro ⟨rfl, -⟩
          simp [hf]
      · have hne : name ≠ other := fun heq => hother heq.symm
        rw [Sorted.find?_insert_of_ne _ _ hother, h.group]
        simp [hf, hne]
    · simp [h.unassigned, hf]

theorem foldl_add (l' : List Fact) : (l'.foldl (Grouping.add component) g).Holds component (l ++ l') := by
  induction l' generalizing g l with
  | nil => simpa using h
  | cons f rest ih => simpa using ih (h.add f)

theorem mem_entries_iff {fs : List Fact} :
    (name, fs) ∈ g.groups.entries ↔ fs = l.filter (component · = some name) ∧ fs ≠ [] := by
  rw [← h.ordered.find?_eq_some_iff, h.group]

/-- The facts in all groups are those of a component. -/
theorem mem_flatMap_iff {f : Fact} : f ∈ g.groups.entries.flatMap Prod.snd ↔ f ∈ l ∧ component f ≠ none := by
  rw [mem_flatMap]
  constructor
  · rintro ⟨⟨name, fs⟩, hmem, hf⟩
    obtain ⟨rfl, -⟩ := h.mem_entries_iff.mp hmem
    obtain ⟨hf, hname⟩ := mem_filter.mp hf
    exact ⟨hf, by simp [of_decide_eq_true hname]⟩
  · rintro ⟨hf, hsome⟩
    obtain ⟨name, hname⟩ := Option.ne_none_iff_exists'.mp hsome
    have hin : f ∈ l.filter (component · = some name) := mem_filter.mpr ⟨hf, by simp [hname]⟩
    exact ⟨(name, _), h.mem_entries_iff.mpr ⟨rfl, ne_nil_of_mem hin⟩, hin⟩

/-- No fact is in two groups, or twice in one. -/
theorem nodup_flatMap (hl : l.Nodup) : (g.groups.entries.flatMap Prod.snd).Nodup := by
  rw [List.nodup_flatMap]
  constructor
  · rintro ⟨name, fs⟩ hmem
    obtain ⟨rfl, -⟩ := h.mem_entries_iff.mp hmem
    exact hl.filter _
  · refine List.Pairwise.imp_of_mem ?_ (pairwise_map.mp h.ordered.nodup_keys)
    rintro ⟨name, fs⟩ ⟨name', fs'⟩ hmem hmem' hne f hf hf'
    obtain ⟨rfl, -⟩ := h.mem_entries_iff.mp hmem
    obtain ⟨rfl, -⟩ := h.mem_entries_iff.mp hmem'
    have hname := of_decide_eq_true (mem_filter.mp hf).2
    have hname' := of_decide_eq_true (mem_filter.mp hf').2
    exact hne (Option.some.inj (hname.symm.trans hname'))

theorem listed_perm (hl : l.Nodup) : (g.groups.entries.flatMap Prod.snd ++ g.unassigned).Perm l := by
  have hrest {f : Fact} : f ∈ g.unassigned ↔ f ∈ l ∧ component f = none := by
    rw [h.unassigned, mem_filter, decide_eq_true_eq]
  have hnodup : (g.groups.entries.flatMap Prod.snd ++ g.unassigned).Nodup := by
    rw [nodup_append']
    refine ⟨h.nodup_flatMap hl, h.unassigned ▸ hl.filter _, ?_⟩
    intro f hf hf'
    exact (h.mem_flatMap_iff.mp hf).2 (hrest.mp hf').2
  rw [perm_ext_iff_of_nodup hnodup hl]
  intro f
  rw [mem_append, h.mem_flatMap_iff, hrest, ← and_or_left, or_comm]
  exact and_iff_left (Classical.em _)

end Grouping.Holds

/-! ## What a report lists -/

/-- What is listed in groups and apart from them, and how it is counted, is a listing of the facts `l`. -/
structure Lists (component : Fact → Option String) (l : List Fact) (groups : List (String × List Fact))
    (unassigned : List Fact) (summary : Summary) : Prop where
  /-- Each fact is listed, and none more often than it is there. -/
  once : (groups.flatMap Prod.snd ++ unassigned).Perm l
  /-- A fact is listed under its component. -/
  placed : ∀ group ∈ groups, ∀ f ∈ group.2, component f = some group.1
  /-- Facts that are listed apart have no component. -/
  apart : ∀ f ∈ unassigned, component f = none
  names : groups.Pairwise fun a b => a.1 < b.1
  nonempty : ∀ group ∈ groups, group.2 ≠ []
  sorted : ∀ group ∈ groups, group.2.Pairwise fun f g => compare f.key g.key = .lt
  sortedApart : unassigned.Pairwise fun f g => compare f.key g.key = .lt
  useCases : summary.useCases = (groups.flatMap Prod.snd ++ unassigned).countP (·.kind = .useCase)
  listeners : summary.listeners = (groups.flatMap Prod.snd ++ unassigned).countP (·.kind = .listener)
  subscribers : summary.subscribers = (groups.flatMap Prod.snd ++ unassigned).countP (·.kind = .subscriber)
  dispatches : summary.dispatches = (groups.flatMap Prod.snd ++ unassigned).countP (·.kind = .dispatch)

theorem lists_grouping {s : FactSet} {given : List Fact} {said : List Diagnostic} (h : s.Given given said)
    (component : Fact → Option String) : Lists component s.toList (Grouping.of component s).groups.entries
      (Grouping.of component s).unassigned (Summary.of s) := by
  have hholds : (Grouping.of component s).Holds component s.toList := (Grouping.Holds.empty component).foldl_add s.toList
  have honce := hholds.listed_perm h.nodup_toList
  have hcount (k : FactKind) : (s.ofKind k).length =
      ((Grouping.of component s).groups.entries.flatMap Prod.snd ++ (Grouping.of component s).unassigned).countP
        (·.kind = k) := by
    rw [honce.countP_eq, countP_eq_length_filter, FactSet.ofKind]
  refine ⟨honce, ?_, ?_, ?_, ?_, ?_, ?_, hcount .useCase, hcount .listener, hcount .subscriber, hcount .dispatch⟩
  · rintro ⟨name, fs⟩ hmem f hf
    obtain ⟨rfl, -⟩ := hholds.mem_entries_iff.mp hmem
    exact of_decide_eq_true (mem_filter.mp hf).2
  · intro f hf
    rw [hholds.unassigned] at hf
    exact of_decide_eq_true (mem_filter.mp hf).2
  · exact hholds.ordered.imp fun hlt => compareOfLessAndEq_eq_lt.mp hlt
  · rintro ⟨name, fs⟩ hmem
    exact (hholds.mem_entries_iff.mp hmem).2
  · rintro ⟨name, fs⟩ hmem
    obtain ⟨rfl, -⟩ := hholds.mem_entries_iff.mp hmem
    exact h.pairwise_toList.filter _
  · rw [hholds.unassigned]
    exact h.pairwise_toList.filter _

/-- Whatever was given to a set, and whatever the components, the report lists the facts of the set, each once and in its
place, in groups that are not empty and stand in the order of their names; it lists the diagnostics in the order in
which they were given, and counts what it lists. The facts of the set are the first of each key that were given, and a
set that is merged into it adds the facts whose keys are new. -/
theorem facts_conserved {s : FactSet} {given : List Fact} {said : List Diagnostic} (h : s.Given given said)
    (component : Fact → Option String) :
    (∃ groups unassigned summary, facts component s = envelope "ok"
        [("components", .arr (groups.map fun (name, fs) => .obj [("name", .str name), ("facts", .arr (fs.map fact))])),
          ("unassigned", .arr (unassigned.map fact)), ("diagnostics", .arr (said.map diagnostic)),
          ("summary", Summary.toJson summary)] ∧
      Lists component s.toList groups unassigned summary ∧ summary.skipped = said.length) ∧
    (s.toList.map Fact.key).Nodup ∧
    (∀ f, f ∈ s.toList ↔ given.find? (fun g => g.key == f.key) = some f) ∧
    ∀ t given' said', FactSet.Given t given' said' → ∀ k,
      (s.merge t).facts.find? k = (s.facts.find? k).or (t.facts.find? k) := by
  refine ⟨⟨_, _, Summary.of s, ?_, lists_grouping h component, ?_⟩, ?_, fun _ => h.mem_toList_iff, ?_⟩
  · rw [facts, h.diagnostics_eq]
  · rw [Summary.of, h.diagnostics_eq]
  · rw [List.Nodup, List.pairwise_map]
    refine h.pairwise_toList.imp ?_
    intro f g hlt heq
    simp [heq, Std.ReflCmp.compare_self] at hlt
  · intro t given' said' h' k
    exact h'.keyed.find?_merge s k

/-- A listener, a use case and a diagnostic. -/
def ledger : FactSet :=
  ((FactSet.empty.insert (.listener "App\\Mailer" "on" "App\\Paid" none)).insert (.useCase "App\\Pay" none)).report
    ⟨.dispatch, "App\\Pay", none, "event is unknown", none⟩

/-- The same listener with another event, and a dispatch. -/
def appendix : FactSet :=
  (FactSet.empty.insert (.listener "App\\Mailer" "on" "App\\Sold" none)).insert
    (.dispatch "App\\Pay" "run" "App\\Paid" none)

/-- Mailers are a component of their own. -/
def mailing (f : Fact) : Option String :=
  if f.fqn = "App\\Mailer" then some "Mail" else none

theorem facts_conserved_ledger :
    (ledger.merge appendix).Given [.listener "App\\Mailer" "on" "App\\Paid" none, .useCase "App\\Pay" none,
        .listener "App\\Mailer" "on" "App\\Sold" none, .dispatch "App\\Pay" "run" "App\\Paid" none]
      [⟨.dispatch, "App\\Pay", none, "event is unknown", none⟩] ∧
    (ledger.merge appendix).toList = [.useCase "App\\Pay" none, .listener "App\\Mailer" "on" "App\\Paid" none,
      .dispatch "App\\Pay" "run" "App\\Paid" none] ∧
    ∃ groups unassigned summary, Lists mailing (ledger.merge appendix).toList groups unassigned summary ∧
      summary.listeners = 1 ∧ summary.skipped = 1 := by
  have hledger := ((FactSet.Given.empty.insert (.listener "App\\Mailer" "on" "App\\Paid" none)).insert
    (.useCase "App\\Pay" none)).report ⟨.dispatch, "App\\Pay", none, "event is unknown", none⟩
  have happendix := (FactSet.Given.empty.insert (.listener "App\\Mailer" "on" "App\\Sold" none)).insert
    (.dispatch "App\\Pay" "run" "App\\Paid" none)
  have hlist : (ledger.merge appendix).toList = [.useCase "App\\Pay" none,
      .listener "App\\Mailer" "on" "App\\Paid" none, .dispatch "App\\Pay" "run" "App\\Paid" none] := by
    decide +kernel
  obtain ⟨⟨groups, unassigned, summary, -, hlists, hskipped⟩, -⟩ :=
    facts_conserved (hledger.merge happendix) mailing
  refine ⟨hledger.merge happendix, hlist, groups, unassigned, summary, hlists, ?_, hskipped⟩
  rw [hlists.listeners, hlists.once.countP_eq]
  exact congrArg (List.countP _) hlist

end Report

end EventAtlas
