import EventAtlas.Proofs.Facts.Accounts

/-!
# What an event is

A fact that names an event owes it to one type: the only one that the node which carries the event may have, about
which something is known, and which is not native (`Index.extract_event_known`). A container is such a type, whatever it
holds, because only types without elements are native. So the event is a class name unless the type is a container, and
then it is the spelling of that container (`Index.extract_names_list`).
-/

namespace EventAtlas

open Extract

/-! ## One type -/

/-- The type stands alone, is known and is not native. -/
structure TypeSet.Singles (types : TypeSet) (t : Ty) : Prop where
  only : types.toList = [t]
  known : t.isUnknown = false
  foreign : t.isNative = false

namespace TypeSet

variable {types : TypeSet} {t : Ty}

theorem isEmpty_eq_isEmpty_toList (types : TypeSet) : types.isEmpty = types.toList.isEmpty :=
  List.isEmpty_map.symm

theorem unique?_eq_ok : types.unique? = .ok t ↔ types.toList = [t] := by
  unfold unique?
  split
  · next u h => rw [h, Except.ok.injEq, List.cons.injEq, and_iff_left rfl]
  · next h => exact iff_of_false nofun (h t)

end TypeSet

namespace Extract

variable {types : TypeSet} {event : String}

/-- Types name an event if and only if there is one of them, known and not native, of that name. -/
theorem eventAmong_eq_ok : eventAmong types = .ok event ↔ ∃ t, types.Singles t ∧ t.name = event := by
  constructor
  · intro h
    unfold eventAmong at h
    split at h
    · cases h
    · split at h
      · cases h
      · next hknown =>
        split at h
        · next t ht =>
          have honly := TypeSet.unique?_eq_ok.mp ht
          split at h
          · cases h
          · next hforeign =>
            refine ⟨t, ⟨honly, ?_, Bool.eq_false_iff.mpr hforeign⟩, Except.ok.inj h⟩
            simpa [honly] using hknown
        · cases h
  · rintro ⟨t, ⟨honly, hknown, hforeign⟩, rfl⟩
    have hunique : types.unique? = .ok t := TypeSet.unique?_eq_ok.mpr honly
    simp [eventAmong, TypeSet.isEmpty_eq_isEmpty_toList, TypeSet.isUnknown, honly, hknown, hforeign, hunique]

theorem event?_factOf (k : Candidate) (event : String) (o : Origin) : (factOf k event o).event? = some event := by
  unfold factOf
  split <;> rfl

end Extract

namespace Candidate

variable {k : Candidate} {x : Index} {limit : Nat} {s : Session}

/-- In the session, `t` is the one type of the node that carries the event, known and not native. Null does not count
for a parameter that declares it. -/
def HasEventType (k : Candidate) (x : Index) (limit : Nat) (s : Session) (t : Ty) : Prop :=
  ∃ node types, k.event = some node ∧ x.answerIn limit s node = .ok types ∧
    (if declaredNullable x.forest node then types.withoutNull else types).Singles t

theorem names_iff {event : String} : k.Names x limit s event ↔ ∃ t, k.HasEventType x limit s t ∧ t.name = event := by
  simp only [Names, HasEventType, eventAmong_eq_ok]
  constructor
  · rintro ⟨node, types, hnode, htypes, t, hsingle, hname⟩
    exact ⟨t, ⟨node, types, hnode, htypes, hsingle⟩, hname⟩
  · rintro ⟨t, ⟨node, types, hnode, htypes, hsingle⟩, hname⟩
    exact ⟨node, types, hnode, htypes, t, hsingle, hname⟩

/-- A type without elements names no native type. -/
theorem HasEventType.isNative_name {t : Ty} (h : k.HasEventType x limit s t) (helement : t.element = none) :
    Typing.isNative t.name = false := by
  obtain ⟨_, _, _, _, hsingle⟩ := h
  have hforeign := hsingle.foreign
  simp only [Ty.isNative, helement, hsingle.known, Option.isNone_none, Bool.not_false, Bool.true_and] at hforeign
  exact hforeign

end Candidate

/-! ## Events of facts -/

namespace Index

variable {x : Index} {limit : Nat} {policy : EventPolicy} {collectors : CollectorSet} {facts : FactSet}

/-- Every fact but a use case names an event: the name of the one type, known and not native, that the event of its
candidate has. Unless that type is a container, the event is not the name of a native type. -/
theorem extract_event_known (h : x.extract limit policy collectors = .ok facts) {fact : Fact}
    (hfact : fact ∈ facts.toList) (hkind : fact.kind ≠ .useCase) :
    ∃ k t, k.Follows x policy ∧ k.HasEventType x limit (x.sessionAfter limit policy collectors) t ∧
      fact = factOf k t.name (origin x.forest k.node) ∧ fact.event? = some t.name ∧
      (t.element = none → Typing.isNative t.name = false) := by
  obtain ⟨l, rfl, hexplained⟩ := extract_explained h
  obtain ⟨c, -, k, hfollows, -, event, hnames, rfl⟩ := hexplained.exists_of_mem_toList hfact hkind
  obtain ⟨t, htype, rfl⟩ := Candidate.names_iff.mp hnames
  exact ⟨k, t, hfollows, htype, rfl, event?_factOf .., htype.isNative_name⟩

theorem extract_event_known_shop : ∃ facts fact k t,
    (ofPrograms shop).extract 512 .firstPositional shopCollectors = .ok facts ∧ fact ∈ facts.toList ∧
      fact.kind = .dispatch ∧ t.name = "Sold" ∧ k.Follows (ofPrograms shop) .firstPositional ∧
      k.HasEventType (ofPrograms shop) 512 ((ofPrograms shop).sessionAfter 512 .firstPositional shopCollectors) t ∧
      fact = factOf k t.name (origin (ofPrograms shop).forest k.node) ∧
      (t.element = none → Typing.isNative t.name = false) := by
  obtain ⟨facts, hok, -, hlist⟩ := extract_shop
  have hsold : (FactKind.dispatch, some "Sold") ∈ facts.toList.map fun fact => (fact.kind, fact.event?) := by
    rw [hlist]
    exact List.mem_cons_of_mem _ List.mem_cons_self
  obtain ⟨fact, hfact, hpair⟩ := List.mem_map.mp hsold
  obtain ⟨hkind, hevent⟩ := Prod.mk.inj hpair
  obtain ⟨k, t, hfollows, htype, hfactOf, hname, hplain⟩ := extract_event_known hok hfact (hkind ▸ nofun)
  have hsoldName := Option.some.inj (hname.symm.trans hevent)
  exact ⟨facts, fact, k, t, hok, hfact, hkind, hsoldName, hfollows, htype, hfactOf, hplain⟩

/-- A method that takes any number of events. -/
def spread : List (String × String) :=
  [("a.php", "<?php\nclass L \x7b public function on(Ev ...$events) \x7b\x7d \x7d\n")]

/-- The collector of what that method listens to. -/
def spreadCollectors : CollectorSet :=
  ⟨[(.listener, wordCollector .listener "L" "on")]⟩

/-- The event of a fact in an index of programs is the spelling of a list, and so is the one type of the parameter. -/
theorem extract_names_list : ofForests (forestsOf (sourcesOf spread)) = .ok (ofPrograms spread) ∧
    ((ofPrograms spread).extract 512 .firstPositional spreadCollectors).toOption.map
      (fun facts => facts.toList.map fun fact => (fact.kind, fact.event?)) = some [(.listener, some "Ev[]")] ∧
    ((ofPrograms spread).answerIn 512 ((ofPrograms spread).sessionAfter 512 .firstPositional spreadCollectors)
      1).toOption.map (fun types => types.toList.map fun t => (t.name, t.element.map Ty.name)) =
        some [("Ev[]", some "Ev")] := by
  refine ⟨ofForests_ofPrograms spread, ?_⟩
  decide +kernel

end Index

end EventAtlas
