import EventAtlas.Proofs.Typing.Keyed
import Mathlib.Data.List.Perm.Subperm

/-!
# The algebra of sets of types

A keyed set is determined by what it has for each name up to ASCII case (`Keyed.ext`). For a union this is what the two
sets have for the name, put together by `joined`: the first set decides on spelling and contents, and the declaration
is the first that is found. So the laws of unions are those of `joined`, although the two sides of such a law add their
types in different orders.

Equality compares sizes and asks for the names of one set in the other. Between sets of plain types it says that both
have the same names up to ASCII case, since no name of the first can be missed and none counts twice.
-/

namespace EventAtlas

open List

namespace TypeSet

open Text

variable {s s' a b c : TypeSet} {t e : Ty} {k : String}

theorem mem_letters_add : k ∈ (s.add t).letters ↔ k = lower t.name ∨ k ∈ s.letters := by
  cases h : s.lacks t with
  | true =>
    rw [letters, ((perm_names_add h).map lower).mem_iff, map_cons, mem_cons]
    rfl
  | false =>
    rw [letters, names_add h]
    refine ⟨.inr, ?_⟩
    rintro (rfl | hk)
    · by_contra hnot
      rw [lacks_iff.mpr hnot] at h
      cases h
    · exact hk

theorem mem_letters_foldl_add {ts : List Ty} :
    k ∈ (ts.foldl add s).letters ↔ k ∈ s.letters ∨ k ∈ ts.map fun t => lower t.name := by
  induction ts generalizing s with
  | nil => simp
  | cons t rest ih =>
    rw [foldl_cons, ih, mem_letters_add, map_cons, mem_cons, or_assoc, or_left_comm]

/-- The set of a list has the names of the list up to ASCII case. -/
theorem mem_letters_ofList {ts : List Ty} : k ∈ (ofList ts).letters ↔ k ∈ ts.map fun t => lower t.name :=
  mem_letters_foldl_add.trans (or_iff_right not_mem_nil)

/-! ## Entries by their letters -/

/-- The type whose name has these small letters. -/
def held? (s : TypeSet) (k : String) : Option Ty :=
  s.toList.find? fun t => lower t.name == k

/-- What two sets have for one name, put together. -/
def joined : Option Ty → Option Ty → Option Ty
  | some e, some t => some { e with declaration := e.declaration.or t.declaration }
  | some e, none => some e
  | none, found => found

theorem joined_assoc (x y z : Option Ty) : joined (joined x y) z = joined x (joined y z) := by
  cases x with
  | none => rfl
  | some e =>
    cases y with
    | none => rfl
    | some t =>
      cases z with
      | none => rfl
      | some u => simp only [joined, Option.or_assoc]

theorem joined_self (x : Option Ty) : joined x x = x := by
  cases x with
  | none => rfl
  | some e =>
    obtain ⟨name, declaration, key, element, origin⟩ := e
    simp only [joined, Option.or_self]

namespace Keyed

section

variable (h : s.Keyed)
include h

theorem held?_eq_some_iff : s.held? k = some e ↔ e ∈ s.toList ∧ lower e.name = k := by
  constructor
  · intro hfind
    exact ⟨mem_of_find?_eq_some hfind, by simpa using find?_some hfind⟩
  · rintro ⟨he, rfl⟩
    have hsome : (s.held? (lower e.name)).isSome = true := find?_isSome.mpr ⟨e, he, beq_self_eq_true _⟩
    obtain ⟨d, hd⟩ := Option.isSome_iff_exists.mp hsome
    have hlower : lower d.name = lower e.name := by simpa using find?_some hd
    rw [hd, h.eq_of_lower_eq (mem_of_find?_eq_some hd) he hlower]

theorem held?_eq_none_iff : s.held? k = none ↔ k ∉ s.letters := by
  rw [held?, find?_eq_none, h.letters_eq, mem_map]
  simp

/-- Sets that have the same for each name are the same. -/
theorem ext (h' : s'.Keyed) (heq : ∀ k, s.held? k = s'.held? k) : s = s' := by
  have hlist : ∀ t, t ∈ s.toList ↔ t ∈ s'.toList := by
    intro t
    have hfound := heq (lower t.name)
    constructor
    · intro ht
      rw [h.held?_eq_some_iff.mpr ⟨ht, rfl⟩] at hfound
      exact (h'.held?_eq_some_iff.mp hfound.symm).1
    · intro ht
      rw [h'.held?_eq_some_iff.mpr ⟨ht, rfl⟩] at hfound
      exact (h.held?_eq_some_iff.mp hfound).1
  have hentry : ∀ {s : TypeSet}, s.Keyed → ∀ d, d ∈ s.types.entries ↔ d.1 = d.2.name ∧ d.2 ∈ s.toList := by
    intro s h d
    refine ⟨fun hd => ⟨h.name d hd, mem_map_of_mem hd⟩, fun ⟨hname, hmem⟩ => ?_⟩
    obtain ⟨d', hd', heq⟩ := mem_map.mp hmem
    have hsame : d' = d := Prod.ext (by rw [h.name d' hd', heq, hname]) heq
    exact hsame ▸ hd'
  have htypes : s.types = s'.types := by
    refine h.ordered.eq_of_mem_iff h'.ordered fun d => ?_
    rw [hentry h, hentry h', hlist]
  obtain ⟨types⟩ := s
  exact congrArg TypeSet.mk htypes

/-- Adding a type changes what the set has for its name. -/
theorem held?_add (t : Ty) (k : String) :
    (s.add t).held? k = if lower t.name = k then joined (s.held? k) (some t) else s.held? k := by
  cases hlacks : s.lacks t with
  | true =>
    have hmem : ∀ e, e ∈ (s.add t).toList ↔ e = t ∨ e ∈ s.toList := by
      intro e
      rw [(perm_toList_add hlacks).mem_iff, mem_cons]
    ext e
    rw [(h.add t).held?_eq_some_iff, hmem]
    by_cases hk : lower t.name = k
    · subst hk
      have hnone := h.held?_eq_none_iff.mpr (lacks_iff.mp hlacks)
      rw [if_pos rfl, hnone, joined, Option.some.injEq]
      constructor
      · rintro ⟨rfl | he, hlower⟩
        · rfl
        · rw [h.held?_eq_some_iff.mpr ⟨he, hlower⟩] at hnone
          cases hnone
      · rintro rfl
        exact ⟨.inl rfl, rfl⟩
    · rw [if_neg hk, h.held?_eq_some_iff]
      constructor
      · rintro ⟨rfl | he, hlower⟩
        · exact absurd hlower hk
        · exact ⟨he, hlower⟩
      · rintro ⟨he, hlower⟩
        exact ⟨.inr he, hlower⟩
  | false =>
    rw [held?, h.toList_add hlacks, find?_map]
    -- a change of the declaration is not seen by the search
    have hsearch : ((fun e : Ty => lower e.name == k) ∘ fun e : Ty => if sameLetters e.name t.name then
        { e with declaration := e.declaration.or t.declaration } else e) = fun e => lower e.name == k := by
      funext e
      rw [Function.comp_apply]
      split <;> rfl
    rw [hsearch]
    change Option.map _ (s.held? k) = _
    cases hfind : s.held? k with
    | none =>
      have hne : lower t.name ≠ k := by
        rintro rfl
        have hthere := lacks_iff.mpr (h.held?_eq_none_iff.mp hfind)
        rw [hlacks] at hthere
        cases hthere
      rw [if_neg hne, Option.map_none]
    | some e =>
      obtain ⟨-, rfl⟩ := h.held?_eq_some_iff.mp hfind
      rw [Option.map_some, sameLetters]
      by_cases hk : lower t.name = lower e.name
      · rw [if_pos (beq_iff_eq.mpr hk.symm), if_pos hk, joined]
      · rw [if_neg (by simpa using Ne.symm hk), if_neg hk]

/-- Types with different letters can be added one after another in any order. -/
theorem held?_foldl_add {ts : List Ty} (hts : (ts.map fun t => lower t.name).Nodup) (k : String) :
    (ts.foldl TypeSet.add s).held? k = joined (s.held? k) (ts.find? fun t => lower t.name == k) := by
  induction ts generalizing s with
  | nil =>
    rw [foldl_nil, find?_nil]
    cases s.held? k <;> rfl
  | cons t rest ih =>
    rw [map_cons, nodup_cons] at hts
    rw [foldl_cons, ih (h.add t) hts.2, h.held?_add, find?_cons]
    by_cases hk : lower t.name = k
    · have hrest : (rest.find? fun t => lower t.name == k) = none := by
        rw [find?_eq_none]
        intro u hu heq
        exact hts.1 (mem_map.mpr ⟨u, hu, (beq_iff_eq.mp heq).trans hk.symm⟩)
      rw [if_pos hk, hrest, joined_assoc, hk, beq_self_eq_true]
      rfl
    · rw [if_neg hk, beq_false_of_ne hk]

theorem union (s' : TypeSet) : (s.union s').Keyed :=
  h.foldl_add s'.toList

theorem held?_union (h' : s'.Keyed) (k : String) : (s.union s').held? k = joined (s.held? k) (s'.held? k) :=
  h.held?_foldl_add (h'.letters_eq ▸ h'.apart) k

end

/-! ## Unions -/

theorem union_assoc (ha : a.Keyed) (hb : b.Keyed) (hc : c.Keyed) : (a.union b).union c = a.union (b.union c) := by
  refine ((ha.union b).union c).ext (ha.union _) fun k => ?_
  rw [(ha.union b).held?_union hc, ha.held?_union hb, ha.held?_union (hb.union c), hb.held?_union hc, joined_assoc]

theorem union_self (ha : a.Keyed) : a.union a = a := by
  refine (ha.union a).ext ha fun k => ?_
  rw [ha.held?_union ha, joined_self]

theorem mem_letters_union (hb : b.Keyed) : k ∈ (a.union b).letters ↔ k ∈ a.letters ∨ k ∈ b.letters := by
  rw [TypeSet.union, mem_letters_foldl_add, hb.letters_eq]

end Keyed

/-- `u` has the names of `a` and of `b` up to ASCII case. A type of `a` keeps its spelling and contents, and where it is
declared nowhere it is declared where `b` has it declared; a type of `b` alone stays as it is. -/
structure Joins (a b u : TypeSet) : Prop where
  letters : ∀ k, k ∈ u.letters ↔ k ∈ a.letters ∨ k ∈ b.letters
  both : ∀ x ∈ a.toList, ∀ y ∈ b.toList, sameLetters x.name y.name = true →
    { x with declaration := x.declaration.or y.declaration } ∈ u.toList
  left : ∀ x ∈ a.toList, lower x.name ∉ b.letters → x ∈ u.toList
  right : ∀ y ∈ b.toList, lower y.name ∉ a.letters → y ∈ u.toList

theorem Keyed.joins_union (ha : a.Keyed) (hb : b.Keyed) : Joins a b (a.union b) := by
  have hmem : ∀ {k : String} {u : Ty}, joined (a.held? k) (b.held? k) = some u → u ∈ (a.union b).toList := by
    intro k u hu
    rw [← ha.held?_union hb] at hu
    exact ((ha.union b).held?_eq_some_iff.mp hu).1
  refine ⟨fun k => hb.mem_letters_union, fun x hx y hy hsame => ?_, fun x hx hother => ?_, fun y hy hother => ?_⟩
  · apply hmem (k := lower x.name)
    rw [ha.held?_eq_some_iff.mpr ⟨hx, rfl⟩, hb.held?_eq_some_iff.mpr ⟨hy, (beq_iff_eq.mp hsame).symm⟩, joined]
  · apply hmem (k := lower x.name)
    rw [ha.held?_eq_some_iff.mpr ⟨hx, rfl⟩, hb.held?_eq_none_iff.mpr hother, joined]
  · apply hmem (k := lower y.name)
    rw [ha.held?_eq_none_iff.mpr hother, hb.held?_eq_some_iff.mpr ⟨hy, rfl⟩, joined]

/-- **The laws of unions**: of sets that are made from whatever types, unions are associative and idempotent to the
letter, they have the names of both sets and favour the first one, and either order gives the same names up to ASCII
case. -/
theorem Made.union_laws (ha : Made (fun _ => True) a) (hb : Made (fun _ => True) b) (hc : Made (fun _ => True) c) :
    (a.union b).union c = a.union (b.union c) ∧ a.union a = a ∧ Joins a b (a.union b) ∧
      ∀ k, k ∈ (a.union b).letters ↔ k ∈ (b.union a).letters := by
  have hka := ha.keyed
  have hkb := hb.keyed
  refine ⟨hka.union_assoc hkb hc.keyed, hka.union_self, hka.joins_union hkb, fun k => ?_⟩
  rw [hkb.mem_letters_union, hka.mem_letters_union, or_comm]

/-- The class that the first set names is declared by the second set, in another spelling. -/
theorem union_laws_twoSpellings :
    Made (fun _ => True) (singleton (.named "App\\Foo")) ∧
      Made (fun _ => True) (singleton (.declared "app\\FOO" 2)) ∧ Made (fun _ => True) (unknown "Variable") ∧
        .declared "App\\Foo" 2 ∈ ((singleton (.named "App\\Foo")).union (singleton (.declared "app\\FOO" 2))).toList := by
  have hfirst : Made (fun _ => True) (singleton (.named "App\\Foo")) := .singleton trivial
  have hsecond : Made (fun _ => True) (singleton (.declared "app\\FOO" 2)) := .singleton trivial
  have hthird : Made (fun _ => True) (unknown "Variable") := .singleton trivial
  obtain ⟨-, -, hjoins, -⟩ := hfirst.union_laws hsecond hthird
  refine ⟨hfirst, hsecond, hthird, ?_⟩
  exact hjoins.both _ (List.mem_singleton_self _) _ (List.mem_singleton_self _) (by decide +kernel)

/-! ## Equality -/

theorem size_eq_length_letters (s : TypeSet) : s.size = s.letters.length := by
  rw [size_eq_length_names, letters, length_map]

/-- Plain types are asked for by the names under which they stand. -/
theorem all_contains_iff (h : s.Keyed) (hplain : ∀ t ∈ s.toList, t.Plain) :
    s.names.all s'.contains = true ↔ s.letters ⊆ s'.letters := by
  rw [all_eq_true, h.names_eq, h.letters_eq]
  constructor
  · intro hall k hk
    obtain ⟨t, ht, rfl⟩ := mem_map.mp hk
    have hthere := contains_eq_true_iff.mp (hall t.name (mem_map_of_mem ht))
    rwa [(hplain t ht).normalize_name] at hthere
  · intro hsub name hname
    obtain ⟨t, ht, rfl⟩ := mem_map.mp hname
    rw [contains_eq_true_iff, (hplain t ht).normalize_name]
    exact hsub (mem_map_of_mem ht)

/-- The names of one set cannot be missing in the other if the sets have the same size: no name counts twice. -/
theorem same_iff_letters (ha : a.Keyed) (hb : b.Keyed) (hplain : ∀ t ∈ a.toList, t.Plain) :
    a.same b = true ↔ ∀ k, k ∈ a.letters ↔ k ∈ b.letters := by
  rw [same, Bool.and_eq_true, beq_iff_eq, all_contains_iff ha hplain, size_eq_length_letters, size_eq_length_letters]
  constructor
  · rintro ⟨hsize, hsub⟩ k
    have hperm := (subperm_of_subset ha.apart hsub).perm_of_length_le hsize.ge
    exact hperm.mem_iff
  · intro hmem
    have hperm := (perm_ext_iff_of_nodup ha.apart hb.apart).mpr hmem
    exact ⟨hperm.length_eq, hperm.subset⟩

/-- **Equality is an equivalence**: sets that are made from plain types are equal exactly if they have the same names up
to ASCII case. -/
theorem Made.same_equivalence (ha : Made Ty.Plain a) (hb : Made Ty.Plain b) (hc : Made Ty.Plain c) :
    (a.same b = true ↔ ∀ k, k ∈ a.letters ↔ k ∈ b.letters) ∧ a.same a = true ∧
      (a.same b = true → b.same a = true) ∧ (a.same b = true → b.same c = true → a.same c = true) := by
  have hiff : ∀ {a b : TypeSet}, Made Ty.Plain a → Made Ty.Plain b →
      (a.same b = true ↔ ∀ k, k ∈ a.letters ↔ k ∈ b.letters) :=
    fun ha hb => same_iff_letters ha.keyed hb.keyed ha.plain
  refine ⟨hiff ha hb, (hiff ha ha).mpr fun _ => Iff.rfl, ?_, ?_⟩
  · intro hab
    exact (hiff hb ha).mpr fun k => ((hiff ha hb).mp hab k).symm
  · intro hab hbc
    exact (hiff ha hc).mpr fun k => ((hiff ha hb).mp hab k).trans ((hiff hb hc).mp hbc k)

/-- Lists of a class, a native type and an unknown type. -/
def someTypes : TypeSet :=
  ofList [.arrayOf (.named "\\App\\Foo"), .named "Boolean", .unknown "New"]

/-- The same types in another order and in other spellings. -/
def otherSpellings : TypeSet :=
  ofList [.unknown "new", .declared "BOOL" 1, .arrayOf (.named "app\\foo")]

theorem same_equivalence_spellings : Made Ty.Plain someTypes ∧ Made Ty.Plain otherSpellings ∧
    someTypes.same otherSpellings = true ∧ otherSpellings.same someTypes = true := by
  have hsome : Made Ty.Plain someTypes := by
    refine .ofList fun t ht => ?_
    simp only [List.mem_cons, List.not_mem_nil, or_false] at ht
    rcases ht with rfl | rfl | rfl
    · exact ⟨.arrayOf (.named _), by decide +kernel⟩
    · exact Ty.plain_named (by decide)
    · exact ⟨.unknown _, by decide +kernel⟩
  have hother : Made Ty.Plain otherSpellings := by
    refine .ofList fun t ht => ?_
    simp only [List.mem_cons, List.not_mem_nil, or_false] at ht
    rcases ht with rfl | rfl | rfl
    · exact ⟨.unknown _, by decide +kernel⟩
    · exact Ty.plain_declared (by decide) 1
    · exact ⟨.arrayOf (.named _), by decide +kernel⟩
  obtain ⟨hiff, -, hsymm, -⟩ := hsome.same_equivalence hother hsome
  have hsame : someTypes.same otherSpellings = true := by
    rw [hiff]
    intro k
    rw [someTypes, mem_letters_ofList, otherSpellings, mem_letters_ofList]
    apply List.Perm.mem_iff
    decide +kernel
  exact ⟨hsome, hother, hsame, hsymm hsame⟩

end TypeSet

end EventAtlas
