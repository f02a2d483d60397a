import EventAtlas.Facts.Collector
import EventAtlas.Proofs.Facts.Findings
import Mathlib.Data.List.Forall2

/-!
# What becomes of the criteria of a definition

A definition of collectors lists criteria under names. Checking it accepts the lists one by one and keeps a collector
for each kind of fact. A kind has two spellings at most, and a collector takes the place of an earlier one for its kind:
of the lists under names for one kind the last one counts (`CollectorSet.check_collects`), and the criteria of the
others are in no collector, though they were found to be right. Where each kind is named once, nothing is lost.
-/

namespace EventAtlas

open List

/-! ## What is accepted -/

/-- The criterion is the one that is written: its kind in one of the spellings, and the pattern of its text. -/
structure Criterion.Reads (raw : RawCriterion) (c : Criterion) : Prop where
  kind : raw.kind.bind CriterionKind.ofName? = some c.kind
  text : raw.pattern = some c.pattern.source
  solid : Text.trim c.pattern.source ≠ ""
  pattern : Pattern.parse? c.pattern.source = some c.pattern

/-- The collector is the one that is written under a name: for the kind that the name stands for, with all criteria of
the list in their order. -/
structure Collector.Reads (written : String × List RawCriterion) (c : Collector) : Prop where
  kind : FactKind.ofName? written.1 = some c.kind
  nonempty : written.2 ≠ []
  criteria : Forall₂ Criterion.Reads written.2 c.criteria

theorem Pattern.source_of_parse? {source : String} {p : Pattern} (h : parse? source = some p) : p.source = source := by
  unfold parse? at h
  split at h
  · split at h
    · exact congrArg Pattern.source (Option.some.inj h).symm
    · cases h
  · cases h

theorem Criterion.check_eq_ok {collector : String} {index : Nat} {raw : RawCriterion} {c : Criterion} :
    check collector index raw = .ok c ↔ Reads raw c := by
  unfold check
  constructor
  · intro h
    split at h
    · cases h
    · next name hname =>
      split at h
      · cases h
      · next kind hkind =>
        split at h
        · cases h
        · next source hsource =>
          split at h
          · cases h
          · next pattern hpattern =>
            cases h
            obtain ⟨htext, hsolid⟩ := Option.filter_eq_some_iff.mp hsource
            have hsame := Pattern.source_of_parse? hpattern
            refine ⟨?_, ?_, ?_, ?_⟩
            · rw [hname]
              exact hkind
            · rw [htext, hsame]
            · rw [hsame]
              simpa using hsolid
            · rw [hsame]
              exact hpattern
  · intro h
    obtain ⟨name, hname, hkind⟩ := Option.bind_eq_some_iff.mp h.kind
    have hfilter : raw.pattern.filter (fun p => !(Text.trim p).isEmpty) = some c.pattern.source :=
      Option.filter_eq_some_iff.mpr ⟨h.text, by simpa using h.solid⟩
    simp only [hname, hkind, hfilter, h.pattern]

/-- A computation goes right just when both of its parts do. -/
theorem bind_eq_ok {ε α β : Type} {x : Except ε α} {f : α → Except ε β} {b : β} :
    x >>= f = .ok b ↔ ∃ a, x = .ok a ∧ f a = .ok b := by
  cases x with
  | error e => exact iff_of_false nofun nofun
  | ok a => exact ⟨fun h => ⟨a, rfl, h⟩, fun ⟨_, ha, h⟩ => Except.ok.inj ha ▸ h⟩

theorem Collector.checkCriteria_eq_ok {collector : String} {index : Nat} {raw : List RawCriterion}
    {criteria : List Criterion} :
    checkCriteria collector index raw = .ok criteria ↔ Forall₂ Criterion.Reads raw criteria := by
  induction raw generalizing index criteria with
  | nil => rw [checkCriteria, forall₂_nil_left_iff, Except.ok.injEq, eq_comm]
  | cons first rest ih =>
    simp only [checkCriteria, bind_eq_ok, Criterion.check_eq_ok, ih, forall₂_cons_left_iff]
    refine exists_congr fun c => ⟨?_, ?_⟩
    · rintro ⟨hc, more, hmore, heq⟩
      exact ⟨more, hc, hmore, (Except.ok.inj heq).symm⟩
    · rintro ⟨more, hc, hmore, rfl⟩
      exact ⟨hc, more, hmore, rfl⟩

theorem Collector.check_eq_ok {name : String} {raw : List RawCriterion} {c : Collector} :
    check name raw = .ok c ↔ Reads (name, raw) c := by
  unfold check
  constructor
  · intro h
    split at h
    · cases h
    · next kind hkind =>
      split at h
      · cases h
      · next hraw =>
        obtain ⟨criteria, hcriteria, heq⟩ := bind_eq_ok.mp h
        cases heq
        exact ⟨hkind, by simpa using hraw, checkCriteria_eq_ok.mp hcriteria⟩
  · intro h
    obtain ⟨kind, criteria⟩ := c
    have hempty : raw.isEmpty = false := isEmpty_eq_false_iff.mpr h.nonempty
    simp only [h.kind, hempty]
    exact bind_eq_ok.mpr ⟨criteria, checkCriteria_eq_ok.mpr h.criteria, rfl⟩

namespace CollectorSet

variable {raw : RawCollectors} {set : CollectorSet} {kind : FactKind} {c : Collector}

theorem checkAll_eq_ok {entries : List (String × List RawCriterion)} {start : CollectorSet} :
    checkAll entries start = .ok set ↔
      ∃ collectors, Forall₂ Collector.Reads entries collectors ∧
        (collectors.map fun c => (c.kind, c)).foldl (fun m e => m.insert e.1 e.2) start = set := by
  induction entries generalizing start with
  | nil => simp [checkAll]
  | cons entry rest ih =>
    simp only [checkAll, bind_eq_ok, Collector.check_eq_ok, ih, forall₂_cons_left_iff]
    constructor
    · rintro ⟨c, hc, collectors, hrest, hset⟩
      exact ⟨c :: collectors, ⟨c, collectors, hc, hrest, rfl⟩, hset⟩
    · rintro ⟨_, ⟨c, collectors, hc, hrest, rfl⟩, hset⟩
      exact ⟨c, hc, collectors, hrest, hset⟩

/-- A definition is accepted just when each of its lists can be read. -/
theorem check_eq_ok : check raw = .ok set ↔ ∃ collectors, Forall₂ Collector.Reads raw.entries collectors ∧
      Sorted.ofList (collectors.map fun c => (c.kind, c)) = set :=
  checkAll_eq_ok

theorem ordered_of_check (h : check raw = .ok set) : Sorted.Ordered set := by
  obtain ⟨collectors, -, rfl⟩ := check_eq_ok.mp h
  exact List.foldlRecOn (motive := Sorted.Ordered) _ _ Sorted.ordered_empty fun _ hm e _ => hm.insert e.1 e.2

end CollectorSet

/-! ## What is kept -/

theorem Criterion.Reads.unique {raw : RawCriterion} {c d : Criterion} (hc : Reads raw c) (hd : Reads raw d) :
    c = d := by
  obtain ⟨kind, pattern⟩ := c
  obtain ⟨kind', pattern'⟩ := d
  obtain rfl : kind = kind' := Option.some.inj (hc.kind.symm.trans hd.kind)
  have hsource : pattern.source = pattern'.source := Option.some.inj (hc.text.symm.trans hd.text)
  obtain rfl : pattern = pattern' := Option.some.inj (hc.pattern.symm.trans (hsource ▸ hd.pattern))
  rfl

/-- There is one way to read a list. -/
theorem Collector.Reads.unique {written : String × List RawCriterion} {c d : Collector} (hc : Reads written c)
    (hd : Reads written d) : c = d := by
  obtain ⟨kind, criteria⟩ := c
  obtain ⟨kind', criteria'⟩ := d
  obtain rfl : kind = kind' := Option.some.inj (hc.kind.symm.trans hd.kind)
  have hunique : Relator.RightUnique Criterion.Reads := fun _ _ _ => Criterion.Reads.unique
  obtain rfl : criteria = criteria' := right_unique_forall₂' hunique hc.criteria hd.criteria
  rfl

/-- The kinds and texts of the criteria are those that are written, in the same order. -/
theorem Criterion.map_reads {written : List RawCriterion} {criteria : List Criterion}
    (h : Forall₂ Reads written criteria) :
    criteria.map (fun k => (some k.kind, some k.pattern.source)) =
      written.map fun raw => (raw.kind.bind CriterionKind.ofName?, raw.pattern) := by
  induction h with
  | nil => rfl
  | cons hread _ ih => rw [map_cons, map_cons, hread.kind, hread.text, ih]

/-- The last of the names in a definition that stand for a kind, with its list. -/
def RawCollectors.last? (raw : RawCollectors) (kind : FactKind) : Option (String × List RawCriterion) :=
  raw.entries.reverse.find? fun entry => FactKind.ofName? entry.1 == some kind

theorem RawCollectors.of_last?_eq_some {raw : RawCollectors} {kind : FactKind} {entry : String × List RawCriterion}
    (h : raw.last? kind = some entry) : entry ∈ raw.entries ∧ FactKind.ofName? entry.1 = some kind :=
  ⟨mem_reverse.mp (mem_of_find?_eq_some h), by simpa using find?_some h⟩

/-- No two names of the definition stand for one kind. -/
def RawCollectors.NamesOnce (raw : RawCollectors) : Prop :=
  raw.entries.Pairwise fun a b => FactKind.ofName? a.1 ≠ FactKind.ofName? b.1

theorem RawCollectors.NamesOnce.last?_eq {raw : RawCollectors} (h : raw.NamesOnce) {kind : FactKind}
    {entry : String × List RawCriterion} (hmem : entry ∈ raw.entries) (hkind : FactKind.ofName? entry.1 = some kind) :
    raw.last? kind = some entry := by
  obtain ⟨before, after, hsplit⟩ := append_of_mem hmem
  unfold NamesOnce at h
  rw [hsplit, pairwise_append, pairwise_cons] at h
  have hafter : (after.reverse.find? fun e => FactKind.ofName? e.1 == some kind) = none := by
    rw [find?_eq_none]
    intro e he heq
    refine h.2.1.1 e (mem_reverse.mp he) ?_
    rw [hkind, beq_iff_eq.mp heq]
  rw [last?, hsplit, reverse_append, reverse_cons, append_assoc, find?_append, hafter]
  simp [hkind]

theorem rel_find? {α β : Type} {R : α → β → Prop} {p : α → Bool} {q : β → Bool} (hpq : ∀ a b, R a b → p a = q b)
    {as : List α} {bs : List β} (h : Forall₂ R as bs) : Option.Rel R (as.find? p) (bs.find? q) := by
  induction h with
  | nil => exact .none
  | @cons a b as bs hab _ ih =>
    rw [find?_cons, find?_cons, ← hpq a b hab]
    cases p a with
    | true => exact .some hab
    | false => exact ih

namespace CollectorSet

variable {raw : RawCollectors} {set : CollectorSet} {kind : FactKind} {c : Collector}

/-- The collector for a kind is read from the last list for it, and there is none if there is no list. -/
theorem rel_last?_find? (h : check raw = .ok set) (kind : FactKind) :
    Option.Rel Collector.Reads (raw.last? kind) (set.find? kind) := by
  obtain ⟨collectors, hreads, rfl⟩ := check_eq_ok.mp h
  have hfound : (Sorted.ofList (collectors.map fun c => (c.kind, c))).find? kind =
      collectors.reverse.find? fun c => c.kind == kind := by
    rw [Sorted.find?_ofList, ← map_reverse, find?_map, Option.map_map]
    exact congrFun Option.map_id _
  rw [hfound]
  refine rel_find? (fun entry c hc => ?_) (forall₂_reverse_iff.mpr hreads)
  rw [hc.kind]
  rfl

/-- Of the criteria in a definition that is accepted, those in the last list for their kind are collected, all of them
and in their order, and no others. Where each kind is named once, these are the criteria of every list. -/
theorem check_collects (h : check raw = .ok set) :
    Sorted.Ordered set ∧
    (∀ entry ∈ raw.entries, ∃ c, Collector.Reads entry c ∧
      (raw.last? c.kind = some entry → (c.kind, c) ∈ set.entries)) ∧
    (∀ kind c, (kind, c) ∈ set.entries → c.kind = kind ∧
      ∃ entry ∈ raw.entries, raw.last? kind = some entry ∧ Collector.Reads entry c) ∧
    (raw.NamesOnce → ∀ entry ∈ raw.entries, ∃ c, Collector.Reads entry c ∧ (c.kind, c) ∈ set.entries) := by
  have hordered := ordered_of_check h
  have hread : ∀ entry ∈ raw.entries, ∃ c, Collector.Reads entry c := by
    obtain ⟨collectors, hreads, -⟩ := check_eq_ok.mp h
    intro entry hentry
    obtain ⟨i, hi, rfl⟩ := List.getElem_of_mem hentry
    exact ⟨_, hreads.get hi (hreads.length_eq ▸ hi)⟩
  have hkept : ∀ entry c, Collector.Reads entry c → raw.last? c.kind = some entry → (c.kind, c) ∈ set.entries := by
    intro entry c hc hlast
    have hrel := rel_last?_find? h c.kind
    rw [hlast] at hrel
    generalize hfind : set.find? c.kind = found at hrel
    cases hrel with
    | some hd => exact hordered.find?_eq_some_iff.mp (hc.unique hd ▸ hfind)
  refine ⟨hordered, fun entry hentry => ?_, fun kind c hc => ?_, fun hnames entry hentry => ?_⟩
  · obtain ⟨c, hc⟩ := hread entry hentry
    exact ⟨c, hc, hkept entry c hc⟩
  · have hrel := rel_last?_find? h kind
    rw [hordered.find?_eq_some_iff.mpr hc] at hrel
    generalize hlast : raw.last? kind = last at hrel
    cases hrel with
    | @some entry _ hreads =>
      obtain ⟨hmem, hkind⟩ := RawCollectors.of_last?_eq_some hlast
      exact ⟨Option.some.inj (hreads.kind.symm.trans hkind), entry, hmem, rfl, hreads⟩
  · obtain ⟨c, hc⟩ := hread entry hentry
    exact ⟨c, hc, hkept entry c hc (hnames.last?_eq hentry hc.kind)⟩

/-- Two kinds, one of them in its other spelling, with three criteria. -/
def namedOnce : RawCollectors :=
  .ofList [("listener", [⟨some "fqnRegex", some "^App"⟩, ⟨some "methodNameRegex", some "handle"⟩]),
    ("useCase", [⟨some "fqn_regex", some "Handler$"⟩])]

theorem check_collects_namedOnce : ∃ set, check namedOnce = .ok set ∧ Sorted.Ordered set ∧ namedOnce.NamesOnce ∧
    ∃ c, (FactKind.listener, c) ∈ set.entries ∧ c.criteria.map (fun k => (some k.kind, some k.pattern.source)) =
      [(some .fqn, some "^App"), (some .methodName, some "handle")] := by
  have hlisted : ("listener", [⟨some "fqnRegex", some "^App"⟩, ⟨some "methodNameRegex", some "handle"⟩]) ∈
      namedOnce.entries := by
    decide
  have honce : namedOnce.NamesOnce := by
    unfold RawCollectors.NamesOnce
    decide
  have haccepted : (check namedOnce).isOk = true := by
    decide +kernel
  cases hset : check namedOnce with
  | error e =>
    rw [hset] at haccepted
    cases haccepted
  | ok set =>
    obtain ⟨hordered, -, -, hall⟩ := check_collects hset
    obtain ⟨c, hc, hmem⟩ := hall honce _ hlisted
    have hkind : FactKind.listener = c.kind := Option.some.inj hc.kind
    exact ⟨set, rfl, hordered, honce, c, hkind ▸ hmem, Criterion.map_reads hc.criteria⟩

/-- A kind in both of its spellings, with one criterion each. -/
def namedTwice : RawCollectors :=
  .ofList [("use_case", [⟨some "fqnRegex", some "Handler$"⟩]), ("useCase", [⟨some "fqnRegex", some "Service$"⟩])]

/-- A criterion is in no collector of a definition that is accepted. -/
theorem check_loses_spelling : ∃ set written, check namedTwice = .ok set ∧
    ("useCase", written) ∈ namedTwice.entries ∧ ⟨some "fqnRegex", some "Service$"⟩ ∈ written ∧
    ∀ c ∈ set.values, ∀ k ∈ c.criteria, k.pattern.source ≠ "Service$" := by
  have hlost : (check namedTwice).toOption.any (fun set =>
      set.values.all fun c => c.criteria.all fun k => k.pattern.source != "Service$") = true := by
    decide +kernel
  cases hset : check namedTwice with
  | error e =>
    rw [hset] at hlost
    cases hlost
  | ok set =>
    rw [hset] at hlost
    refine ⟨set, _, rfl, List.mem_cons_self, List.mem_singleton_self _, fun c hc k hk => ?_⟩
    simpa using List.all_eq_true.mp (List.all_eq_true.mp hlost c hc) k hk

end CollectorSet

end EventAtlas
