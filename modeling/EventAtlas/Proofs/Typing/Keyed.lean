import EventAtlas.Proofs.Sorted
import EventAtlas.Proofs.Typing.Constructed
import Mathlib.Data.List.Nodup

/-!
# One entry for each name

The entries of a set stand in the order of their spellings, and the order tells two spellings of one name apart. What a
set is asked for is a name up to ASCII case. `Keyed` is what makes the two fit together: each type stands under its own
name, and no two names are the same up to ASCII case. Every operation keeps a set keyed, whatever the types are, so all
sets that are `Made` are keyed; and in a keyed set it does not matter by which spelling an entry is found, changed or
removed.
-/

namespace EventAtlas

open List Sorted

namespace TypeSet

open Text

variable {s s' : TypeSet} {t e : Ty} {name key : String}

/-- The names in small letters. -/
def letters (s : TypeSet) : List String :=
  s.names.map lower

/-- Each type stands under its own name, the names ascend, and no two are the same up to ASCII case. -/
structure Keyed (s : TypeSet) : Prop where
  name : ∀ e ∈ s.types.entries, e.1 = e.2.name
  ordered : s.types.Ordered
  apart : s.letters.Nodup

/-! ## The name of an entry -/

theorem keyOf?_eq_some (h : s.keyOf? name = some key) : key ∈ s.names ∧ lower key = lower name := by
  unfold keyOf? at h
  split at h
  · next hthere =>
    obtain rfl := Option.some.inj h
    obtain ⟨e, he, hname⟩ := any_eq_true.mp hthere
    rw [← beq_iff_eq.mp hname]
    exact ⟨mem_map_of_mem he, rfl⟩
  · have hsame := find?_some h
    rw [sameLetters, beq_iff_eq] at hsame
    exact ⟨mem_of_find?_eq_some h, hsame⟩

theorem keyOf?_eq_none_iff : s.keyOf? name = none ↔ lower name ∉ s.letters := by
  constructor
  · intro hnone hmem
    obtain ⟨key, hkey, hlower⟩ := mem_map.mp hmem
    unfold keyOf? at hnone
    split at hnone
    · cases hnone
    · have hother := find?_eq_none.mp hnone key hkey
      rw [sameLetters, beq_iff_eq] at hother
      exact hother hlower
  · intro hnot
    by_contra hsome
    obtain ⟨key, hkey⟩ := Option.ne_none_iff_exists'.mp hsome
    obtain ⟨hmem, hlower⟩ := keyOf?_eq_some hkey
    exact hnot (hlower ▸ mem_map_of_mem hmem)

theorem lacks_iff : s.lacks t = true ↔ lower t.name ∉ s.letters := by
  rw [lacks, Option.isNone_iff_eq_none, keyOf?_eq_none_iff]

/-- The set has no entry for a name exactly if no name in it is the same up to ASCII case. -/
theorem not_mem_letters_iff : lower name ∉ s.letters ↔ ∀ n ∈ s.names, sameLetters n name = false := by
  rw [letters, mem_map]
  simp [sameLetters]

theorem size_eq_length_names (s : TypeSet) : s.size = s.names.length := by
  rw [size, Sorted.size, names, Sorted.keys, length_map]

namespace Keyed

variable (h : s.Keyed)
include h

theorem names_eq : s.names = s.toList.map Ty.name := by
  rw [names, Sorted.keys, toList, Sorted.values, map_map]
  exact map_congr_left h.name

theorem letters_eq : s.letters = s.toList.map fun t => lower t.name := by
  rw [letters, h.names_eq, map_map]
  rfl

/-- Types of the set with the same letters are one entry. -/
theorem eq_of_lower_eq (ht : t ∈ s.toList) (he : e ∈ s.toList) (hlower : lower t.name = lower e.name) : t = e :=
  inj_on_of_nodup_map (h.letters_eq ▸ h.apart) ht he hlower

theorem keyOf?_eq_some_iff : s.keyOf? name = some key ↔ key ∈ s.names ∧ lower key = lower name := by
  refine ⟨keyOf?_eq_some, fun ⟨hmem, hlower⟩ => ?_⟩
  have hsome : s.keyOf? name ≠ none :=
    fun hnone => keyOf?_eq_none_iff.mp hnone (hlower ▸ mem_map_of_mem hmem)
  obtain ⟨other, hother⟩ := Option.ne_none_iff_exists'.mp hsome
  obtain ⟨hthere, hsame⟩ := keyOf?_eq_some hother
  rw [hother, inj_on_of_nodup_map h.apart hthere hmem (hsame.trans hlower.symm)]

/-- The key of a name is the name of just those entries that have the same letters. -/
theorem beq_keyOf? (hkey : s.keyOf? name = some key) {d : String × Ty} (hd : d ∈ s.types.entries) :
    (d.1 == key) = sameLetters d.2.name name := by
  obtain ⟨hmem, hlower⟩ := keyOf?_eq_some hkey
  rw [Bool.eq_iff_iff, beq_iff_eq, sameLetters, beq_iff_eq, ← h.name d hd]
  constructor
  · rintro rfl
    exact hlower
  · intro hsame
    exact inj_on_of_nodup_map h.apart (mem_map_of_mem hd) hmem (hsame.trans hlower.symm)

end Keyed

/-! ## Adding a type -/

theorem bindDeclaration_eq (t e : Ty) :
    bindDeclaration t e = { e with declaration := e.declaration.or t.declaration } := by
  unfold bindDeclaration
  obtain ⟨name, declaration, key, element, origin⟩ := e
  cases declaration <;> rfl

theorem add_eq_insert (h : s.keyOf? t.name = none) : s.add t = ⟨s.types.insert t.name t⟩ := by
  rw [add, h]

theorem add_eq_adjust (h : s.keyOf? t.name = some key) : s.add t = ⟨s.types.adjust key (bindDeclaration t)⟩ := by
  rw [add, h]

theorem perm_entries_add (h : s.lacks t = true) : (s.add t).types.entries.Perm ((t.name, t) :: s.types.entries) := by
  have hfresh : ∀ e ∈ s.types.entries, e.1 ≠ t.name := by
    intro e he heq
    exact lacks_iff.mp h (heq ▸ mem_map_of_mem (mem_map_of_mem he))
  rw [lacks, Option.isNone_iff_eq_none] at h
  rw [add_eq_insert h]
  exact perm_insertEntry hfresh

theorem exists_keyOf?_of_lacks (h : s.lacks t = false) : ∃ key, s.keyOf? t.name = some key := by
  rwa [lacks, Option.isNone_eq_false_iff, Option.isSome_iff_exists] at h

theorem names_add (h : s.lacks t = false) : (s.add t).names = s.names := by
  obtain ⟨key, hkey⟩ := exists_keyOf?_of_lacks h
  rw [add_eq_adjust hkey]
  exact keys_adjust ..

theorem perm_names_add (h : s.lacks t = true) : (s.add t).names.Perm (t.name :: s.names) :=
  (perm_entries_add h).map Prod.fst

theorem perm_toList_add (h : s.lacks t = true) : (s.add t).toList.Perm (t :: s.toList) :=
  (perm_entries_add h).map Prod.snd

theorem size_add (s : TypeSet) (t : Ty) : (s.add t).size = s.size + (s.lacks t).toNat := by
  rw [size_eq_length_names, size_eq_length_names]
  cases h : s.lacks t with
  | true => exact (perm_names_add h).length_eq
  | false => exact congrArg List.length (names_add h)

namespace Keyed

/-- A type whose name is there changes one entry, which may take over its declaration. -/
theorem toList_add (h : s.Keyed) (hthere : s.lacks t = false) : (s.add t).toList = s.toList.map fun e =>
    if sameLetters e.name t.name then { e with declaration := e.declaration.or t.declaration } else e := by
  obtain ⟨key, hkey⟩ := exists_keyOf?_of_lacks hthere
  rw [add_eq_adjust hkey, toList, values, adjust, map_map, toList, values, map_map]
  apply map_congr_left
  intro d hd
  rw [Function.comp_apply, Function.comp_apply, h.beq_keyOf? hkey hd, ← bindDeclaration_eq]
  split <;> rfl

theorem add (h : s.Keyed) (t : Ty) : (s.add t).Keyed := by
  cases hlacks : s.lacks t with
  | true =>
    have hperm := perm_entries_add hlacks
    refine ⟨fun e he => ?_, ?_, ?_⟩
    · rcases mem_cons.mp (hperm.mem_iff.mp he) with rfl | he
      · rfl
      · exact h.name e he
    · rw [lacks, Option.isNone_iff_eq_none] at hlacks
      rw [add_eq_insert hlacks]
      exact h.ordered.insert t.name t
    · have hletters : (s.add t).letters.Perm (lower t.name :: s.letters) := (perm_names_add hlacks).map lower
      exact hletters.nodup_iff.mpr (nodup_cons.mpr ⟨lacks_iff.mp hlacks, h.apart⟩)
  | false =>
    obtain ⟨key, hkey⟩ := exists_keyOf?_of_lacks hlacks
    refine ⟨fun e he => ?_, ?_, ?_⟩
    · rw [add_eq_adjust hkey] at he
      obtain ⟨d, hd, rfl⟩ := mem_map.mp he
      split
      · rw [bindDeclaration_eq]
        exact h.name d hd
      · exact h.name d hd
    · rw [add_eq_adjust hkey]
      exact h.ordered.adjust key _
    · rw [letters, names_add hlacks]
      exact h.apart

theorem empty : TypeSet.empty.Keyed :=
  ⟨nofun, ordered_empty, nodup_nil⟩

/-- Adding types one after another keeps a set keyed. -/
theorem foldl_add (h : s.Keyed) (ts : List Ty) : (ts.foldl TypeSet.add s).Keyed :=
  List.foldlRecOn (motive := Keyed) ts TypeSet.add h fun _ hs t _ => hs.add t

theorem ofList (ts : List Ty) : (TypeSet.ofList ts).Keyed :=
  empty.foldl_add ts

/-! ## Finding and removing an entry -/

/-- The entry of a name is the one with the letters of its normal form. -/
theorem get?_eq_some_iff (h : s.Keyed) :
    s.get? name = some e ↔ e ∈ s.toList ∧ lower e.name = lower (Typing.normalize name) := by
  have hfound : ∀ {key e}, s.types.find? key = some e → e ∈ s.toList ∧ e.name = key := by
    intro key e hfind
    obtain ⟨d, hd, rfl⟩ := Option.map_eq_some_iff.mp hfind
    have hmem := mem_of_find?_eq_some hd
    have hkey : d.1 = key := by simpa using find?_some hd
    exact ⟨mem_map_of_mem hmem, (h.name d hmem).symm.trans hkey⟩
  rw [get?, Option.bind_eq_some_iff]
  constructor
  · rintro ⟨key, hkey, hfind⟩
    obtain ⟨hmem, rfl⟩ := hfound hfind
    exact ⟨hmem, (keyOf?_eq_some hkey).2⟩
  · rintro ⟨hmem, hlower⟩
    have hname : e.name ∈ s.names := h.names_eq ▸ mem_map_of_mem hmem
    refine ⟨e.name, h.keyOf?_eq_some_iff.mpr ⟨hname, hlower⟩, ?_⟩
    have hthere : s.types.contains e.name = true := by
      obtain ⟨d, hd, hd'⟩ := mem_map.mp hname
      exact any_eq_true.mpr ⟨d, hd, beq_iff_eq.mpr hd'⟩
    rw [contains_eq_isSome_find?, Option.isSome_iff_exists] at hthere
    obtain ⟨other, hother⟩ := hthere
    obtain ⟨hmem', hname'⟩ := hfound hother
    rw [hother, h.eq_of_lower_eq hmem' hmem (congrArg lower hname')]

theorem isSome_get? (h : s.Keyed) (name : String) : (s.get? name).isSome = s.contains name := by
  rw [Bool.eq_iff_iff, contains, Option.isSome_iff_exists, Option.isSome_iff_exists]
  constructor
  · rintro ⟨e, he⟩
    obtain ⟨key, hkey, -⟩ := Option.bind_eq_some_iff.mp he
    exact ⟨key, hkey⟩
  · rintro ⟨key, hkey⟩
    obtain ⟨hmem, hlower⟩ := keyOf?_eq_some hkey
    rw [h.names_eq] at hmem
    obtain ⟨e, he, rfl⟩ := mem_map.mp hmem
    exact ⟨e, h.get?_eq_some_iff.mpr ⟨he, hlower⟩⟩

/-- Removing a name takes away what has its letters and nothing else. -/
theorem toList_remove (h : s.Keyed) (name : String) :
    (s.remove name).2.toList = s.toList.filter fun e => !sameLetters e.name (Typing.normalize name) := by
  rw [toList, toList, values, values, filter_map, remove]
  cases hkey : s.keyOf? (Typing.normalize name) with
  | some key =>
    refine congrArg _ (filter_congr fun d hd => ?_)
    rw [Function.comp_apply, h.beq_keyOf? hkey hd]
  | none =>
    refine congrArg _ (filter_eq_self.mpr fun d hd => ?_).symm
    have hother := not_mem_letters_iff.mp (keyOf?_eq_none_iff.mp hkey) d.1 (mem_map_of_mem hd)
    rw [Function.comp_apply, ← h.name d hd, hother]
    rfl

theorem remove (h : s.Keyed) (name : String) : (s.remove name).2.Keyed := by
  rw [TypeSet.remove]
  cases s.keyOf? (Typing.normalize name) with
  | none => exact h
  | some key =>
    have hsub : (s.types.erase key).entries.Sublist s.types.entries := filter_sublist
    exact ⟨fun e he => h.name e (hsub.subset he), h.ordered.erase key, ((hsub.map Prod.fst).map lower).nodup h.apart⟩

end Keyed

theorem remove_fst (s : TypeSet) (name : String) : (s.remove name).1 = s.get? name := by
  rw [remove, get?]
  cases s.keyOf? (Typing.normalize name) <;> rfl

theorem contains_eq_true_iff : s.contains name = true ↔ lower (Typing.normalize name) ∈ s.letters := by
  rw [contains, ← Bool.not_eq_false, Option.isSome_eq_false_iff, Option.isNone_iff_eq_none, keyOf?_eq_none_iff,
    Classical.not_not]

/-! ## Sets that the operations make -/

/-- The operations on sets make the set from types with the property. -/
inductive Made (p : Ty → Prop) : TypeSet → Prop
  | empty : Made p empty
  | singleton {t : Ty} : p t → Made p (singleton t)
  | ofList {ts : List Ty} : (∀ t ∈ ts, p t) → Made p (ofList ts)
  | add {s : TypeSet} {t : Ty} : Made p s → p t → Made p (s.add t)
  | union {s s' : TypeSet} : Made p s → Made p s' → Made p (s.union s')
  | remove {s : TypeSet} (name : String) : Made p s → Made p (s.remove name).2
  | known {s : TypeSet} : Made p s → Made p s.known
  | withoutNull {s : TypeSet} : Made p s → Made p s.withoutNull
  | elements {s : TypeSet} : Made p s → Made p s.elements
  | keys {s : TypeSet} : Made p s → Made p s.keys

namespace Made

variable {p : Ty → Prop}

theorem keyed (h : Made p s) : s.Keyed := by
  induction h with
  | empty => exact .empty
  | singleton => exact Keyed.empty.add _
  | ofList | known | withoutNull | elements | keys => exact .ofList _
  | add _ _ ih => exact ih.add _
  | union _ _ ih _ => exact ih.foldl_add _
  | remove name _ ih => exact ih.remove name

end Made

/-- A property that survives a change of the declaration holds of all types of a set if it holds of those added. -/
theorem forall_mem_foldl_add {p : Ty → Prop} (hbind : ∀ t e, p t → p e → p (bindDeclaration t e)) {ts : List Ty}
    (hs : ∀ e ∈ s.toList, p e) (hts : ∀ t ∈ ts, p t) : ∀ e ∈ (ts.foldl add s).toList, p e := by
  refine List.foldlRecOn (motive := fun s : TypeSet => ∀ e ∈ s.toList, p e) ts add hs ?_
  intro s hs t ht e he
  cases hlacks : s.lacks t with
  | true =>
    rcases mem_cons.mp ((perm_toList_add hlacks).mem_iff.mp he) with rfl | he
    · exact hts e ht
    · exact hs e he
  | false =>
    obtain ⟨key, hkey⟩ := exists_keyOf?_of_lacks hlacks
    rw [add_eq_adjust hkey, toList, values, adjust, map_map] at he
    obtain ⟨d, hd, rfl⟩ := mem_map.mp he
    have hold := hs d.2 (mem_map_of_mem hd)
    rw [Function.comp_apply]
    split
    · exact hbind t d.2 (hts t ht) hold
    · exact hold

/-- Taking over a declaration keeps a type plain. -/
theorem plain_bindDeclaration (t e : Ty) (he : e.Plain) : (bindDeclaration t e).Plain := by
  rw [bindDeclaration_eq]
  obtain ⟨name, declaration, key, element, origin⟩ := e
  cases declaration with
  | some d => exact he
  | none =>
    cases t.declaration with
    | none => exact he
    | some d => exact ⟨he.constructed.withDeclaration d, he.blankless⟩

/-- A set that is made from plain types holds plain types. -/
theorem Made.plain (h : Made Ty.Plain s) : ∀ t ∈ s.toList, t.Plain := by
  have hadd : ∀ {s : TypeSet} {ts : List Ty}, (∀ e ∈ s.toList, e.Plain) → (∀ t ∈ ts, t.Plain) →
      ∀ e ∈ (ts.foldl TypeSet.add s).toList, e.Plain :=
    forall_mem_foldl_add fun t e _ he => plain_bindDeclaration t e he
  induction h with
  | empty => exact nofun
  | @singleton t ht =>
    show ∀ e ∈ ([t].foldl TypeSet.add TypeSet.empty).toList, e.Plain
    exact hadd nofun (forall_mem_singleton.mpr ht)
  | ofList hts => exact hadd nofun hts
  | @add s t _ ht ih =>
    show ∀ e ∈ ([t].foldl TypeSet.add s).toList, e.Plain
    exact hadd ih (forall_mem_singleton.mpr ht)
  | union _ _ ih ih' => exact hadd ih ih'
  | @remove s name hs ih =>
    intro t ht
    rw [hs.keyed.toList_remove] at ht
    exact ih t (mem_filter.mp ht).1
  | known _ ih | withoutNull _ ih => exact hadd nofun fun t ht => ih t (mem_filter.mp ht).1
  | elements _ ih =>
    refine hadd nofun fun e he => ?_
    obtain ⟨t, ht, he⟩ := mem_filterMap.mp he
    exact (ih t ht).element he
  | keys _ ih =>
    refine hadd nofun fun k hk => ?_
    obtain ⟨t, ht, hk⟩ := mem_filterMap.mp hk
    exact (ih t ht).key hk

/-- What adding `t` answers and changes: there is a new entry exactly if no name is the same up to ASCII case; else the
entries stay as they are, but for a declaration where there was none. -/
structure Adds (s : TypeSet) (t : Ty) : Prop where
  answer : s.lacks t = true ↔ ∀ n ∈ s.names, sameLetters n t.name = false
  size : (s.add t).size = s.size + (s.lacks t).toNat
  added : s.lacks t = true → (s.add t).toList.Perm (t :: s.toList)
  bound : s.lacks t = false → (s.add t).toList = s.toList.map fun e =>
    if sameLetters e.name t.name then { e with declaration := e.declaration.or t.declaration } else e

/-- What removing a name answers and changes: the entry that is found under the name goes, and nothing else does. -/
structure Removes (s : TypeSet) (name : String) : Prop where
  answer : (s.remove name).1 = s.get? name
  found : (s.get? name).isSome = s.contains name
  rest : (s.remove name).2.toList = s.toList.filter fun e => !sameLetters e.name (Typing.normalize name)
  gone : (s.remove name).2.contains name = false

theorem Keyed.removes (h : s.Keyed) (name : String) : s.Removes name := by
  refine ⟨remove_fst s name, h.isSome_get? name, h.toList_remove name, ?_⟩
  rw [← Bool.not_eq_true, contains_eq_true_iff, (h.remove name).letters_eq, h.toList_remove]
  intro hmem
  obtain ⟨e, he, hlower⟩ := mem_map.mp hmem
  simp [sameLetters, hlower] at he

/-- **One entry for each name**: whatever types a set is made from, each stands under its own name and no two names are
the same up to ASCII case; adding a type makes an entry exactly if there is none for its name; finding, asking for and
removing a name agree, and what is removed is all that the name means. If the types are plain, a name means the entry
whose name has the same normal form up to ASCII case. -/
theorem Made.one_entry_each (h : Made (fun _ => True) s) : s.Keyed ∧ (∀ t, s.Adds t) ∧ (∀ name, s.Removes name) ∧
    (Made Ty.Plain s → ∀ e ∈ s.toList, ∀ name,
      s.get? name = some e ↔ sameLetters (Typing.normalize e.name) (Typing.normalize name) = true) := by
  have hkeyed := h.keyed
  refine ⟨hkeyed, fun t => ?_, hkeyed.removes, fun hplain e he name => ?_⟩
  · exact ⟨lacks_iff.trans not_mem_letters_iff, size_add s t, perm_toList_add, hkeyed.toList_add⟩
  · rw [hkeyed.get?_eq_some_iff, (hplain.plain e he).normalize_name, sameLetters, beq_iff_eq]
    exact and_iff_right he

/-- One class in two spellings, the second with its declaration. -/
def spelledTwice : TypeSet :=
  (singleton (.named "App\\Foo")).add (.declared "app\\FOO" 2)

theorem Made.one_entry_each_spelledTwice : Made (fun _ => True) spelledTwice ∧ Made Ty.Plain spelledTwice ∧
    spelledTwice.toList = [.declared "App\\Foo" 2] ∧
      spelledTwice.get? " \\APP\\foo" = some (.declared "App\\Foo" 2) ∧
        (spelledTwice.remove "\\APP\\foo").2.toList = [] := by
  have hmade : Made (fun _ => True) spelledTwice := (Made.singleton trivial).add trivial
  have hplain : Made Ty.Plain spelledTwice :=
    (Made.singleton (Ty.plain_named (by decide))).add (Ty.plain_declared (by decide) 2)
  have hfirst : (TypeSet.singleton (.named "App\\Foo")).Keyed := Keyed.empty.add _
  have hlist : spelledTwice.toList = [.declared "App\\Foo" 2] := by
    rw [spelledTwice, hfirst.toList_add (by decide +kernel), toList_singleton, List.map_singleton,
      if_pos (by decide +kernel)]
    rfl
  obtain ⟨-, -, hremoves, hfound⟩ := hmade.one_entry_each
  refine ⟨hmade, hplain, hlist, ?_, ?_⟩
  · exact (hfound hplain _ (hlist ▸ List.mem_singleton_self _) _).mpr (by decide +kernel)
  · rw [(hremoves _).rest, hlist]
    exact List.filter_cons_of_neg (by decide +kernel)

end TypeSet

end EventAtlas
