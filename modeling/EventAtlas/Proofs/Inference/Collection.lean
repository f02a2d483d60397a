import EventAtlas.Proofs.Inference.Doubts
import EventAtlas.Proofs.Inference.WriteSites
import EventAtlas.Proofs.Index.Table

/-!
# Writes are collected before they are asked for

A class-like collects the writes to its properties once, when a strategy first needs them, and strategies ask in any
order. Along every course what a session has collected is what the forest says (`Session.Gathered`), and no strategy
asks for the writes to a declaration before the class-like of the declaration has collected
(`Inquiry.resolveWithin_collected`). With what the forest says about writes, no write is lost and none is stored twice.
-/

namespace EventAtlas

open List

/-! ## Declarations of properties -/

namespace Forest

variable {f : Forest} {c decl : NodeId}

/-- A property of a class-like, or a parameter of one of its methods that declares a property. -/
inductive DeclaresProperty (f : Forest) (c decl : NodeId) : Prop
  | member : decl ∈ f.children c → isProperty (f.kind decl) = true → DeclaresProperty f c decl
  | promoted {m : NodeId} : m ∈ f.children c → (f.kind m).isMethod = true → decl ∈ f.children m →
    isPromoted (f.kind decl) = true → DeclaresProperty f c decl

theorem isMethod_of_isMethodNamed {name : String} {k : NodeKind} (h : isMethodNamed name k = true) :
    k.isMethod = true := by
  unfold isMethodNamed at h
  split at h
  · rfl
  · cases h

theorem declaresProperty_of_mem_ownProperties (h : decl ∈ f.ownProperties c) : f.DeclaresProperty c decl := by
  rw [ownProperties, mem_append] at h
  obtain h | h := h
  · obtain ⟨hmember, hk⟩ := mem_filter.mp h
    exact .member (mem_filter.mp hmember).1 hk
  · split at h
    · next m hm =>
      obtain ⟨hparam, hk⟩ := mem_filter.mp h
      have hnamed := find?_some hm
      exact .promoted (mem_filter.mp (mem_of_find?_eq_some hm)).1 (isMethod_of_isMethodNamed hnamed)
        (mem_filter.mp hparam).1 hk
    · cases h

theorem name?_of_declaresProperty (h : f.DeclaresProperty c decl) : ∃ name, (f.kind decl).name? = some name := by
  cases h with
  | member _ hk =>
    cases hkind : f.kind decl <;> simp [hkind, isProperty] at hk
    exact ⟨_, rfl⟩
  | promoted _ _ _ hk =>
    cases hkind : f.kind decl <;> simp [hkind, isPromoted] at hk
    exact ⟨_, rfl⟩

/-- The writes to a property are collected from the class-like that declares it. -/
theorem collector?_of_declaresProperty (h : f.Linked) (hc : c ∈ f.reached) (hclass : (f.kind c).isClassLike = true)
    (hdecl : f.DeclaresProperty c decl) : f.collector? decl = some c := by
  cases hdecl with
  | member hmem hk =>
    cases hkind : f.kind decl <;> simp [hkind, isProperty] at hk
    rw [collector?, hkind]
    exact h.parent_child c hc decl hmem
  | @promoted m hm hmethod hmem hk =>
    have hmr := h.children_reached hc hm
    have hplain : (f.kind m).isClassLike = false := by
      cases hkind : f.kind m <;> simp [hkind, NodeKind.isMethod] at hmethod
      rfl
    cases hkind : f.kind decl <;> simp [hkind, isPromoted] at hk
    rw [collector?, hkind]
    change f.enclosingClass? decl = some c
    rw [enclosingClass?, enclosing?, h.ancestors_child hmr hmem, h.lineage_child hc hm, Linked.lineage_eq_cons,
      find?_cons, hplain, find?_cons, hclass]

/-- Where every node is a child of one node at most, a property has one class-like. -/
theorem DeclaresProperty.unique (hparent : ∀ p q n, n ∈ f.children p → n ∈ f.children q → p = q) {c' : NodeId}
    (h : f.DeclaresProperty c decl) (h' : f.DeclaresProperty c' decl) : c' = c := by
  have hkinds : isProperty (f.kind decl) = true → isPromoted (f.kind decl) = true → False := by
    cases f.kind decl <;> simp [isProperty, isPromoted]
  cases h with
  | member hmem hk =>
    cases h' with
    | member hmem' _ => exact hparent c' c decl hmem' hmem
    | promoted _ _ _ hk' => exact (hkinds hk hk').elim
  | @promoted m hm _ hmem hk =>
    cases h' with
    | member _ hk' => exact (hkinds hk' hk).elim
    | @promoted m' hm' _ hmem' _ =>
      obtain rfl := hparent m' m decl hmem' hmem
      exact hparent c' c m' hm' hm

theorem isMisplaced_eq_false (h : f.Linked) (hparent : ∀ p q n, n ∈ f.children p → n ∈ f.children q → p = q)
    (hc : c ∈ f.reached) (hclass : (f.kind c).isClassLike = true) (hdecl : decl ∈ f.ownProperties c) :
    f.isMisplaced decl = false := by
  have hown := declaresProperty_of_mem_ownProperties hdecl
  refine any_eq_false.mpr fun c' _ hbad => ?_
  obtain ⟨hmem, hne⟩ := Bool.and_eq_true_iff.mp hbad
  obtain rfl := hown.unique hparent (declaresProperty_of_mem_ownProperties (contains_iff_mem.mp hmem))
  rw [collector?_of_declaresProperty h hc hclass hown, bne_self_eq_false] at hne
  cases hne

theorem ownProperties_nodup (h : f.Linked) (hc : c ∈ f.reached) : (f.ownProperties c).Nodup := by
  refine nodup_append.mpr ⟨?_, ?_, ?_⟩
  · exact (h.children_nodup hc).sublist (filter_sublist.trans filter_sublist)
  · split
    · next m hm =>
      have hmem := (mem_filter.mp (mem_of_find?_eq_some hm)).1
      exact (h.children_nodup (h.children_reached hc hmem)).sublist (filter_sublist.trans filter_sublist)
    · exact nodup_nil
  · intro a ha b hb heq
    subst heq
    have hproperty := (mem_filter.mp ha).2
    split at hb
    · have hpromoted := (mem_filter.mp hb).2
      cases hk : f.kind a <;> simp [hk, isProperty, isPromoted] at hproperty hpromoted
    · cases hb

end Forest

/-! ## Sessions -/

/-- The act collects writes from this forest only. -/
def Act.CollectsFrom (f : Forest) : Act → Prop
  | .collect g _ => g = f
  | _ => True

namespace Session

variable {f : Forest} {s : Session}

/-- What was collected is what the forest says. -/
structure Gathered (f : Forest) (s : Session) : Prop where
  exactly : s.CollectsExactly f
  guarded : s.WritesGuarded f

theorem Gathered.new (f : Forest) : Gathered f {} :=
  ⟨⟨fun decl _ => by cases f.collector? decl <;> rfl, fun _ => rfl⟩, ⟨nofun, nofun⟩⟩

/-- The parts of a session that collecting changes. -/
def stores (s : Session) : List NodeId × Sorted NodeId (List PropertyWrite) × Sorted NodeId PropertyWrites :=
  (s.collected, s.injected, s.dynamic)

theorem Gathered.of_stores {s' : Session} (h : s.Gathered f) (heq : s'.stores = s.stores) : s'.Gathered f := by
  simp only [stores, Prod.mk.injEq] at heq
  obtain ⟨hcollected, hinjected, hdynamic⟩ := heq
  refine ⟨⟨?_, ?_⟩, ⟨?_, ?_⟩⟩
  · rw [hinjected, hcollected]
    exact h.exactly.injected
  · rw [hdynamic, hcollected]
    exact h.exactly.dynamic
  · rw [hinjected]
    exact h.guarded.injected
  · rw [hdynamic]
    exact h.guarded.dynamic

end Session

/-- Only collecting changes what was collected. -/
theorem Act.stores_perform {a : Act} (ha : ∀ f c, a ≠ .collect f c) (s : Session) :
    (a.perform s).2.stores = s.stores := by
  have h := a.perform_makes s
  generalize (a.perform s).2 = t at h ⊢
  cases h with
  | collect f c => exact absurd rfl (ha f c)
  | _ => rfl

theorem Session.Gathered.perform {f : Forest} {s : Session} {a : Act} (h : s.Gathered f) (ha : a.CollectsFrom f) :
    (a.perform s).2.Gathered f := by
  cases a with
  | collect g c =>
    obtain rfl : g = f := ha
    exact ⟨h.exactly.collect c, h.guarded.collect c⟩
  | _ => exact h.of_stores (Act.stores_perform (by exact nofun) s)

/-! ## Courses -/

/-- The act finds what was collected as the forest says, and asks for the writes to a declaration only after they were
collected. -/
structure Act.Collected (f : Forest) (a : Act) (s : Session) : Prop where
  gathered : s.Gathered f
  collectsFrom : a.CollectsFrom f
  writesTo : ∀ decl, a = .writesTo decl → ∀ c, f.collector? decl = some c → c ∈ s.collected

namespace Inquiry

open Session (Gathered)

variable {x : Index} {types : NodeId → Inquiry TypeSet}

/-- The inquiry asks for writes after they were collected, in every session that has collected what the forest says. -/
abbrev KeepsCollected {α : Type} (f : Forest) (i : Inquiry α) : Prop :=
  Keeps (Act.Collected f) (Gathered f) i

theorem keepsCollected_act {f : Forest} {a : Act} (ha : a.CollectsFrom f) (hw : ∀ decl, a ≠ .writesTo decl) :
    KeepsCollected f (act a) :=
  keeps_act (fun _ hs => ⟨hs, ha, fun decl heq => absurd heq (hw decl)⟩) fun _ hs => hs.perform ha

section Answers

variable (htypes : ∀ n, KeepsCollected x.forest (types n))

include htypes

theorem answerSweep_collected (q : SweepQuestion) : KeepsCollected x.forest (answerSweep types q) := by
  cases q with
  | types n => exact htypes n
  | _ => exact keepsCollected_act trivial nofun

theorem sweep_collected (scope : NodeId) : KeepsCollected x.forest (sweep x types scope) :=
  .sweep (keepsCollected_act trivial nofun) (.interpret (answerSweep_collected htypes) _) fun _ =>
    keepsCollected_act trivial nofun

theorem readVariable_collected (node scope : NodeId) (name : String) :
    KeepsCollected x.forest (readVariable x types node scope name) :=
  .readVariable (keepsCollected_act trivial nofun) (sweep_collected htypes scope) (keepsCollected_act trivial nofun)

omit htypes in
theorem ask_collected {α : Type} {q : NodeQuestion} {next : q.Answer → Strategy α} {s : Session}
    (hq : KeepsCollected x.forest (answer x types q)) (hs : s.Gathered x.forest)
    (hnext : ∀ a s', s'.Gathered x.forest → s.collected ⊆ s'.collected →
      ((next a).interpret (answer x types)).run.Meets (Act.Collected x.forest) (fun _ s => s.Gathered x.forest) s') :
    ((Dialogue.ask q next).interpret (answer x types)).run.Meets (Act.Collected x.forest)
      (fun _ s => s.Gathered x.forest) s := by
  rw [Dialogue.interpret, Dialogue.Meets, watched_bind]
  refine (hq s hs).grows.mono fun r s' _ hr => ?_
  obtain ⟨hgrows, hs'⟩ := hr
  cases r with
  | ok a => exact hnext a s' hs' hgrows.collected
  | error e => exact hs'

/-- A strategy that asks as it should asks for writes after they were collected. -/
theorem strategy_collected {α : Type} {node : NodeId} {absent collected : List NodeId} {d : Strategy α}
    (hd : d.Asks x.forest node absent collected) {s : Session} (hs : s.Gathered x.forest)
    (hcollected : collected ⊆ s.collected) :
    (d.interpret (answer x types)).run.Meets (Act.Collected x.forest) (fun _ s => s.Gathered x.forest) s := by
  induction d generalizing absent collected s with
  | done a => exact hs
  | ask q next ih =>
    cases q with
    | types n =>
      refine ask_collected (htypes n) hs fun a s' hs' hsub => ?_
      exact ih a (hd.2 a) hs' (List.Subset.trans hcollected hsub)
    | isResolving n =>
      refine ask_collected (keepsCollected_act trivial nofun) hs fun a s' hs' hsub => ?_
      cases a with
      | true => exact ih true hd.1 hs' (List.Subset.trans hcollected hsub)
      | false => exact ih false hd.2 hs' (List.Subset.trans hcollected hsub)
    | read n scope name =>
      refine ask_collected (readVariable_collected htypes n scope name) hs fun a s' hs' hsub => ?_
      exact ih a (hd.2 a) hs' (List.Subset.trans hcollected hsub)
    | collect c =>
      have hmem := s.collected_subset_collect x.forest c
      refine ⟨⟨hs, rfl, nofun⟩, ih () hd (hs.perform (a := .collect x.forest c) rfl) ?_⟩
      exact cons_subset.mpr ⟨hmem.2, List.Subset.trans hcollected hmem.1⟩
    | writesTo decl =>
      obtain ⟨⟨rfl, hcollector⟩, hnext⟩ := hd
      refine ⟨⟨hs, trivial, ?_⟩, ih _ (hnext _ (hs.guarded.writesTo decl)) hs hcollected⟩
      rintro _ ⟨⟩ c hc
      exact hcollected (hcollector c hc)
    | looseWrites owner name =>
      exact ⟨⟨hs, trivial, nofun⟩, ih _ (hd.2 _ (hs.guarded.looseWrites owner name)) hs hcollected⟩

theorem framed_collected (node : NodeId) :
    KeepsCollected x.forest (framed x.forest node ((Strategy.dispatch x node).interpret (answer x types))) :=
  .framed (keepsCollected_act trivial nofun)
    (fun _ hs => strategy_collected htypes (Strategy.dispatch_asks x node) hs (nil_subset _)) fun _ =>
    keepsCollected_act trivial nofun

end Answers

theorem resolveWithin_collected (x : Index) (limit room : Nat) (node : NodeId) :
    KeepsCollected x.forest (resolveWithin x limit room node) := by
  refine .resolveWithin (fun _ _ hs => ?_) (fun _ htypes => framed_collected htypes) limit room node
  exact ⟨⟨hs, trivial, nofun⟩, ⟨hs, trivial, nofun⟩, ⟨hs, trivial, nofun⟩⟩

end Inquiry

/-! ## No write is lost, none is stored twice -/

namespace Session

variable {f : Forest} {s : Session} {c : NodeId}

/-- The writes that a class-like makes to its properties are stored. For each name there is one place: the first
declaration of that name, or else what the class-like keeps. The places in the methods that write to the name are there,
each once, and there is nothing else. -/
structure StoresWritesOf (f : Forest) (c : NodeId) (s : Session) : Prop where
  once : ∀ name, ∃ sites : List NodeId, sites.Nodup ∧ (∀ node, node ∈ sites ↔ f.IsWriteSite c name node) ∧
    List.Forall₂ (fun node w => f.MakesWrite node name w) sites
      (match (f.ownPropertiesNamed c name).head? with
        | some decl => s.writesTo decl
        | none => s.looseWrites c name)
  later : ∀ decl ∈ f.ownProperties c, (∀ name, (f.ownPropertiesNamed c name).head? ≠ some decl) → s.writesTo decl = []
  declared : ∀ name, f.ownPropertiesNamed c name ≠ [] → s.looseWrites c name = []

theorem Gathered.storesWritesOf (h : s.Gathered f) (hlink : f.Linked)
    (hparent : ∀ p q n, n ∈ f.children p → n ∈ f.children q → p = q) (hc : c ∈ f.reached)
    (hclass : (f.kind c).isClassLike = true) (hmem : c ∈ s.collected) : s.StoresWritesOf f c := by
  have hnodup := Forest.ownProperties_nodup hlink hc
  have hwrites {decl : NodeId} (hdecl : decl ∈ f.ownProperties c) :
      s.writesTo decl = (f.handOut c).1.writesTo decl := by
    have hcollector := Forest.collector?_of_declaresProperty hlink hc hclass
      (Forest.declaresProperty_of_mem_ownProperties hdecl)
    rw [h.exactly.writesTo (Forest.isMisplaced_eq_false hlink hparent hc hclass hdecl), Forest.writesTo, hcollector]
    · rfl
    · intro c' hc'
      rwa [← Option.some.inj (hcollector.symm.trans hc')]
  have hloose (name : String) := h.exactly.looseWrites hmem name
  refine ⟨fun name => ?_, fun decl hdecl hlater => ?_, fun name hdeclared => ?_⟩
  · have hstored : (match (f.ownPropertiesNamed c name).head? with
        | some decl => s.writesTo decl
        | none => s.looseWrites c name) = (PropertyWrites.inClass f c).of name := by
      cases hfirst : (f.ownPropertiesNamed c name).head? with
      | none =>
        dsimp only
        rw [hloose, Forest.looseWrites_eq, if_pos (head?_eq_none_iff.mp hfirst)]
      | some decl =>
        obtain ⟨hdecl, hname⟩ := mem_filter.mp (mem_of_mem_head? hfirst)
        dsimp only
        rw [hwrites hdecl, Forest.writesTo_handOut hnodup (beq_iff_eq.mp hname), if_pos hfirst]
    rw [hstored]
    exact Forest.exists_sites hlink hc name
  · obtain ⟨name, hname⟩ := Forest.name?_of_declaresProperty (Forest.declaresProperty_of_mem_ownProperties hdecl)
    rw [hwrites hdecl, Forest.writesTo_handOut hnodup hname, if_neg (hlater name)]
  · rw [hloose, Forest.looseWrites_eq, if_neg hdeclared]

/-- Collecting from one class-like changes nothing that belongs to others. -/
theorem collect_others (f : Forest) (s : Session) (c : NodeId) :
    (∀ decl ∉ f.ownProperties c, (s.collect f c).writesTo decl = s.writesTo decl) ∧
      ∀ owner ≠ c, ∀ name, (s.collect f c).looseWrites owner name = s.looseWrites owner name := by
  by_cases hc : c ∈ s.collected
  · rw [collect_of_mem hc]
    exact ⟨fun _ _ => rfl, fun _ _ _ => rfl⟩
  · rw [collect_of_not_mem hc]
    refine ⟨fun decl hdecl => ?_, fun owner hne name => ?_⟩
    · rw [writesTo, find?_foldl_inject_of_not_mem hdecl, writesTo]
    · rw [looseWrites, looseWrites]
      dsimp only
      split
      · rfl
      · rw [Sorted.find?_insert_of_ne _ _ hne]

end Session

namespace Index

open Forest

variable {x : Index}

theorem resolveAll_gathered (x : Index) (limit : Nat) (nodes : List NodeId) :
    (x.resolveAll limit nodes {}).Gathered x.forest := by
  refine resolveAll_invariant _ (fun s node hs => ?_) nodes (.new x.forest)
  exact (Inquiry.resolveWithin_collected x limit limit node s hs).atEnd

/-- The two phases of collecting lose no write and store none twice. Take any act of any resolution, whatever was
resolved before, and the session that it finds. If a class-like of a file collects in this session, then afterwards its
writes are stored, each place that writes to a property once, and nothing that belongs to other class-likes has changed;
if it has collected before, nothing changes at all. And if the act asks for the writes to a property that the class-like
declares, the class-like has collected before. -/
theorem writes_stored_once {forests : List Forest} (h : ofForests forests = .ok x)
    (horderly : ∀ f ∈ forests, f.Orderly f.roots) (limit : Nat) (before : List NodeId) (node : NodeId) {c : NodeId}
    (hc : c ∈ x.forest.reached) (hclass : (x.forest.kind c).isClassLike = true) :
    ∀ e ∈ (Inquiry.resolveWithin x limit limit node).run.course (x.resolveAll limit before {}),
      (e.2.collect x.forest c).StoresWritesOf x.forest c ∧
      (∀ decl ∉ x.forest.ownProperties c, (e.2.collect x.forest c).writesTo decl = e.2.writesTo decl) ∧
      (∀ owner ≠ c, ∀ name, (e.2.collect x.forest c).looseWrites owner name = e.2.looseWrites owner name) ∧
      (c ∈ e.2.collected → e.2.collect x.forest c = e.2) ∧
      ∀ decl, x.forest.DeclaresProperty c decl → e.1 = .writesTo decl → c ∈ e.2.collected := by
  intro e he
  have hbuilt := ofForests_built h
  have hparent : ∀ p q n, n ∈ x.forest.children p → n ∈ x.forest.children q → p = q := by
    intro p q n hp hq
    rw [hbuilt.tree.children] at hp hq
    exact (joined_orderly horderly).parent_unique hp hq
  have hmeets := Inquiry.resolveWithin_collected x limit limit node _ (x.resolveAll_gathered limit before)
  have hcollected := ((Dialogue.meets_iff _ _).mp hmeets).1 e he
  have hgathered : (e.2.collect x.forest c).Gathered x.forest :=
    hcollected.gathered.perform (a := .collect x.forest c) rfl
  obtain ⟨hdecls, howners⟩ := e.2.collect_others x.forest c
  refine ⟨hgathered.storesWritesOf hbuilt.linked hparent hc hclass (e.2.collected_subset_collect x.forest c).2, hdecls,
    howners, fun hmem => ?_, fun decl hdecl hact => ?_⟩
  · exact Session.collect_of_mem hmem
  · exact hcollected.writesTo decl hact c (collector?_of_declaresProperty hbuilt.linked hc hclass hdecl)

/-- A class with a property, a property that the constructor declares, a property that is not declared, and a class
inside of the constructor that writes to a property of its own. -/
def nestedWriters : List (String × String) :=
  [("a.php", "<?php\nclass A \x7b public $p;\nfunction __construct(private $q) \x7b " ++
    "$this->q = 1; self::$s .= 2; $this->p[] = 3;\nclass B \x7b function k() \x7b $this->p = 4; \x7d \x7d \x7d \x7d\n")]

theorem writes_stored_once_nestedWriters : let x := ofPrograms nestedWriters
    28 ∈ x.forest.reached ∧ (x.forest.kind 28).isClassLike = true ∧
    ∃ e ∈ (Inquiry.resolveWithin x 9 9 0).run.course (x.resolveAll 9 [] {}), e.1 = .writesTo 0 ∧
      e.2.writesTo 0 = [.appended 15] ∧ 28 ∈ e.2.collected ∧ (e.2.collect x.forest 28).StoresWritesOf x.forest 28 := by
  have hfacts : let x := ofPrograms nestedWriters
      28 ∈ x.forest.reached ∧ (x.forest.kind 28).isClassLike = true ∧ 0 ∈ x.forest.children 28 ∧
      isProperty (x.forest.kind 0) = true ∧
      ((Inquiry.resolveWithin x 9 9 0).run.course (x.resolveAll 9 [] {})).any (fun e => match e.1 with
        | .writesTo d => d == 0 && e.2.writesTo 0 == [.appended 15]
        | _ => false) = true := by decide +kernel
  obtain ⟨hreached, hclass, hchild, hproperty, hasks⟩ := hfacts
  obtain ⟨⟨a, s⟩, he, hact⟩ := List.any_eq_true.mp hasks
  have hstored := writes_stored_once (ofForests_ofPrograms nestedWriters) orderly_of_mem_forestsOf 9 [] 0 hreached
    hclass (a, s) he
  cases a <;> simp at hact
  obtain ⟨rfl, hwrites⟩ := hact
  exact ⟨hreached, hclass, _, he, rfl, hwrites, hstored.2.2.2.2 0 (.member hchild hproperty) rfl, hstored.1⟩

end Index

end EventAtlas
