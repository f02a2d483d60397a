import EventAtlas.Json.Record
import EventAtlas.Proofs.Sorted
import Mathlib.Algebra.Group.Nat.Defs
import Mathlib.Data.List.Nodup

/-!
# Reading what was written

A record whose fields are written once each is read field by field: what is found under a name is what was written
there.
Lists and optional values are read back item by item, and numbers below 2 ^ 32 as they are.
-/

namespace EventAtlas.Json

open List

variable {α : Type}

/-! ## Records -/

namespace Record

variable {known : List String} {fields : List (String × Json)} {name : String} {r : Record} {read : Json → Option α}

theorem hasRepeat_of_nodup {names : List String} (h : names.Nodup) : hasRepeat names = false := by
  induction names with
  | nil => rfl
  | cons n rest ih =>
    obtain ⟨hn, hrest⟩ := nodup_cons.mp h
    simp [hasRepeat, ih hrest, hn]

/-- An object with different fields is read as a record of those that are known. -/
theorem of?_obj (known : List String) (h : (fields.map Prod.fst).Nodup) :
    of? known false (.obj fields) = some ⟨false, fields.filter fun f => known.contains f.1⟩ := by
  have hsub : ((fields.filter fun f => known.contains f.1).map Prod.fst).Nodup :=
    h.sublist (filter_sublist.map _)
  simp only [of?, hasRepeat_of_nodup hsub, Bool.false_eq_true, if_false, Bool.false_and]

theorem lookup_filter (h : known.contains name = true) :
    (fields.filter fun f => known.contains f.1).lookup name = fields.lookup name := by
  induction fields with
  | nil => rfl
  | cons f rest ih =>
    obtain ⟨k, v⟩ := f
    rw [filter_cons]
    by_cases hk : name = k
    · subst hk
      rw [if_pos h, lookup_cons_self, lookup_cons_self]
    · have hne : (name == k) = false := beq_false_of_ne hk
      split <;> simp only [lookup_cons, hne, ih]

/-- Whatever is made of an object with different fields is made of a record in which each known field has the value
that was written. -/
theorem bind_of?_obj (h : (fields.map Prod.fst).Nodup) {make : Record → Option α} {a : α}
    (hmake : ∀ r : Record, r.positional = false →
      (∀ name, known.contains name = true → r.fields.lookup name = fields.lookup name) → make r = some a) :
    (of? known false (.obj fields) >>= make) = some a := by
  rw [of?_obj known h, Option.bind_eq_bind, Option.bind_some]
  exact hmake _ rfl fun _ hname => lookup_filter hname

theorem required_of_lookup {j : Json} {a : α}
    (h : r.fields.lookup name = some j) (hread : read j = some a) : r.required name read = some a := by
  rw [required, h, Option.bind_some, hread]

theorem defaulted_of_lookup {default a : α} {j : Json}
    (h : r.fields.lookup name = some j) (hread : read j = some a) : r.defaulted name default read = some a := by
  simp only [defaulted, h, hread]

/-- A field that is left out if there is no value. -/
theorem optionalDefault_of_lookup (write : α → Json) {o : Option α} (h : r.fields.lookup name = o.map write)
    (hread : ∀ a ∈ o, write a ≠ .null ∧ read (write a) = some a) : r.optionalDefault name read = some o := by
  rw [optionalDefault, h]
  cases o with
  | none => rfl
  | some a =>
    obtain ⟨hne, ha⟩ := hread a rfl
    rw [Option.map_some]
    generalize write a = j at hne ha
    cases j <;> simp_all

/-- A field that is null if there is no value. -/
theorem optional_of_lookup (write : α → Json) {o : Option α} (h : r.fields.lookup name = some (.ofOption (o.map write)))
    (hread : ∀ a ∈ o, write a ≠ .null ∧ read (write a) = some a) : r.optional name read = some o := by
  rw [optional, h]
  cases o with
  | none => rfl
  | some a =>
    obtain ⟨hne, ha⟩ := hread a rfl
    rw [Option.map_some, ofOption, Option.getD_some]
    generalize write a = j at hne ha
    cases j <;> simp_all

end Record

/-- A field that may be missing. -/
theorem lookup_optionalField (name key : String) (j : Option Json) :
    (optionalField name j).lookup key = if key == name then j else none := by
  cases j with
  | none => simp [optionalField]
  | some v =>
    simp only [optionalField, Option.map_some, Option.toList_some, lookup_cons, lookup_nil]
    cases key == name <;> rfl

theorem keys_optionalField_sublist (name : String) (j : Option Json) :
    ((optionalField name j).map Prod.fst).Sublist [name] := by
  cases j with
  | none => exact nil_sublist _
  | some v => exact List.Sublist.refl _

/-! ## Values -/

@[simp] theorem asStr?_str (s : String) : asStr? (.str s) = some s := rfl

theorem asWord?_nat {n : Nat} (h : n < 2 ^ 32) : asWord? (.nat n) = some n := by
  have hn : (n : Int) < 4294967296 := by omega
  simp [asWord?, nat, hn]

theorem mapM_map_eq_some {β : Type} {read : β → Option α} {write : α → β} {l : List α}
    (h : ∀ a ∈ l, read (write a) = some a) : (l.map write).mapM read = some l := by
  induction l with
  | nil => rfl
  | cons a rest ih =>
    obtain ⟨ha, hrest⟩ := forall_mem_cons.mp h
    rw [map_cons, mapM_cons, ha, ih hrest]
    rfl

/-- A list is read back if its items are. -/
theorem asList?_map {read : Json → Option α} {write : α → Json} {l : List α} (h : ∀ a ∈ l, read (write a) = some a) :
    asList? read (.arr (l.map write)) = some l :=
  mapM_map_eq_some h

theorem asList?_strs (l : List String) : asList? asStr? (.strs l) = some l :=
  asList?_map fun s _ => asStr?_str s

theorem asList?_nats {l : List Nat} (h : ∀ n ∈ l, n < 2 ^ 32) : asList? asWord? (.arr (l.map .nat)) = some l :=
  asList?_map fun n hn => asWord?_nat (h n hn)

/-- A map in the order of its keys is read back if its values are. -/
theorem asMap?_entries {read : Json → Option α} {write : α → Json} {m : Sorted String α} (hm : m.Ordered)
    (h : ∀ e ∈ m.entries, read (write e.2) = some e.2) :
    asMap? read (.obj (m.entries.map fun e => (e.1, write e.2))) = some m := by
  have hread : (m.entries.map fun e => (e.1, write e.2)).mapM
      (fun f => (read f.2).map fun v => (f.1, v)) = some m.entries :=
    mapM_map_eq_some fun e he => by rw [h e he, Option.map_some]
  rw [asMap?, hread, Option.map_some, hm.ofList_entries]

/-- The alternative that a tagged object names, if the tag is no field of its own. -/
theorem tagged?_obj {tag name : String} {fields : List (String × Json)} (h : ∀ f ∈ fields, f.1 ≠ tag) :
    tagged? tag (.obj ((tag, .str name) :: fields)) = some (name, .obj fields) := by
  have hnone : (fields.filter fun f => f.1 == tag) = [] :=
    filter_eq_nil_iff.mpr fun f hf => by simpa using h f hf
  have hall : (fields.filter fun f => f.1 != tag) = fields :=
    filter_eq_self.mpr fun f hf => by simpa using h f hf
  simp [tagged?, hnone, hall]

end EventAtlas.Json
