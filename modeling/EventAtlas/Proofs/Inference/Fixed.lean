import EventAtlas.Proofs.Inference.Finality

/-!
# Nodes that ask for nothing

What a literal, a name or a cast is says what its types are, so nothing that was inferred before can change them. The
memory is written where a node is left and where a sweep comes to a variable; a node that asks for nothing is left with
its own types, and if it is no variable no sweep writes to it. So every session gives the same answer for it
(`Index.answerAfter_of_fixed`).
-/

namespace EventAtlas

/-! ## What sweeps read -/

namespace Sweeping

variable {α β : Type} {f : Forest} {x : Index}

/-- A node that is remembered on a question is a variable. -/
def RemembersVariable (f : Forest) : SweepQuestion → Prop
  | .read n _ => isVariable (f.kind n) = true
  | _ => True

/-- Whatever the sweep has remembered is a variable. -/
def ReadsVariables (f : Forest) : Sweeping α → Prop
  | .done _ => True
  | .ask q next => RemembersVariable f q ∧ ∀ a, ReadsVariables f (next a)

theorem ReadsVariables.bind {d : Sweeping α} {g : α → Sweeping β} (hd : d.ReadsVariables f)
    (hg : ∀ a, (g a).ReadsVariables f) : (d >>= g).ReadsVariables f := by
  induction d with
  | done a => exact hg a
  | ask q next ih => exact ⟨hd.1, fun a => ih a (hd.2 a)⟩

theorem visit_readsVariables (node : NodeId) : (visit x node).ReadsVariables x.forest := by
  unfold visit
  dsimp only
  cases hk : x.forest.kind node with
  | var name =>
    dsimp only
    split
    · have hvar : isVariable (x.forest.kind node) = true := by rw [hk]; rfl
      exact ⟨hvar, fun _ => trivial⟩
    · trivial
  | assign byRef =>
    dsimp only
    split
    · refine ReadsVariables.bind ?_ fun _ => trivial
      unfold takePending
      split
      · exact ⟨trivial, fun _ => ⟨trivial, fun _ => trivial⟩⟩
      · trivial
    · trivial
  | arrowFunction => exact ⟨trivial, fun _ => trivial⟩
  | docComment text => exact ⟨trivial, fun _ => trivial⟩
  | _ => trivial

theorem sourceTypes?_readsVariables (source : BindSource) : (sourceTypes? source).ReadsVariables f := by
  cases source with
  | node id =>
    refine ⟨trivial, fun busy => ?_⟩
    cases busy with
    | true => trivial
    | false => exact ⟨trivial, fun _ => trivial⟩
  | elementsOf id =>
    refine ReadsVariables.bind ?_ fun _ => trivial
    refine ⟨trivial, fun busy => ?_⟩
    cases busy with
    | true => trivial
    | false => exact ⟨trivial, fun _ => trivial⟩
  | types types => trivial

theorem step_readsVariables (s : SweepStep) : (step x s).ReadsVariables x.forest := by
  cases s with
  | visit id => exact visit_readsVariables id
  | bind target source =>
    refine (sourceTypes?_readsVariables source).bind fun types => ?_
    cases types with
    | none => trivial
    | some types => exact ⟨trivial, fun _ => trivial⟩
  | restore saved => exact ⟨trivial, fun _ => trivial⟩

theorem steps_readsVariables (n : Nat) (todo : List SweepStep) : (steps x n todo).ReadsVariables x.forest := by
  induction n generalizing todo with
  | zero => trivial
  | succ n ih =>
    cases todo with
    | nil => trivial
    | cons s rest => exact (step_readsVariables s).bind fun next => ih (next ++ rest)

end Sweeping

/-! ## Fixed nodes -/

/-- The types of the node are found without a question, and the node is no variable. -/
structure Index.Fixed (x : Index) (node : NodeId) (found : TypeSet) : Prop where
  dispatch : Strategy.dispatch x node = .done found
  noVariable : Sweeping.isVariable (x.forest.kind node) = false

/-- The act writes what is found to a fixed node, if it writes anything to it. -/
def Act.KeepsFixed (x : Index) : Act → Prop
  | .leave node (some types) =>
    ∀ found, x.Fixed node found → types = Inquiry.orUnknown (x.forest.kind node) found
  | .rememberRead node _ => Sweeping.isVariable (x.forest.kind node) = true
  | _ => True

namespace Session

/-- What is remembered for a fixed node is what is found for it. -/
def RemembersFixed (x : Index) (s : Session) : Prop :=
  ∀ node found, x.Fixed node found → ∀ types, s.memo.find? node = some types →
    types = Inquiry.orUnknown (x.forest.kind node) found

theorem RemembersFixed.perform {x : Index} {a : Act} {s : Session} (ha : a.KeepsFixed x) (h : s.RemembersFixed x) :
    (a.perform s).2.RemembersFixed x := by
  intro node found hfixed types hmemo
  obtain hsame | ⟨n, t, rfl, hinsert⟩ | ⟨n, name, t, rfl, -, -, hinsert⟩ := a.memo_perform s
  · rw [hsame] at hmemo
    exact h node found hfixed types hmemo
  · rw [hinsert] at hmemo
    by_cases hn : node = n
    · subst hn
      rw [Sorted.find?_insert_self] at hmemo
      cases hmemo
      exact ha found hfixed
    · rw [Sorted.find?_insert_of_ne _ _ hn] at hmemo
      exact h node found hfixed types hmemo
  · have hn : node ≠ n := by
      rintro rfl
      have hvar : Sweeping.isVariable (x.forest.kind node) = true := ha
      rw [hfixed.noVariable] at hvar
      cases hvar
    rw [hinsert, Sorted.find?_insert_of_ne _ _ hn] at hmemo
    exact h node found hfixed types hmemo

end Session

namespace Inquiry

variable {x : Index} {limit : Nat} {types : NodeId → Inquiry TypeSet}

/-- The inquiry writes to fixed nodes only what is found for them, in whatever session it is held. -/
abbrev KeepsFixed {α : Type} (x : Index) (i : Inquiry α) : Prop :=
  Keeps (fun a _ => a.KeepsFixed x) (fun _ => True) i

theorem keepsFixed_act {a : Act} (h : a.KeepsFixed x) : KeepsFixed x (act a) :=
  keeps_act (fun _ _ => h) fun _ _ => trivial

section

variable (htypes : ∀ n, KeepsFixed x (types n))
include htypes

theorem sweeping_keepsFixed {α : Type} {w : Sweeping α}
    (hw : w.ReadsVariables x.forest) : KeepsFixed x (w.interpret (answerSweep types)) := by
  induction w with
  | done a => exact keeps_pure a
  | ask q next ih =>
    refine Keeps.bind ?_ fun a => ih a (hw.2 a)
    cases q with
    | types n => exact htypes n
    | isResolving n => exact keepsFixed_act trivial
    | current => exact keepsFixed_act trivial
    | change g => exact keepsFixed_act trivial
    | read n name => exact keepsFixed_act hw.1

theorem sweep_keepsFixed (scope : NodeId) : KeepsFixed x (sweep x types scope) :=
  .sweep (keepsFixed_act trivial) (sweeping_keepsFixed htypes (Sweeping.steps_readsVariables _ _)) fun _ =>
    keepsFixed_act trivial

theorem readVariable_keepsFixed (node scope : NodeId) (name : String) :
    KeepsFixed x (readVariable x types node scope name) :=
  .readVariable (keepsFixed_act trivial) (sweep_keepsFixed htypes scope) (keepsFixed_act trivial)

theorem answer_keepsFixed (q : NodeQuestion) : KeepsFixed x (answer x types q) := by
  cases q with
  | types n => exact htypes n
  | isResolving n => exact keepsFixed_act trivial
  | read n scope name => exact readVariable_keepsFixed htypes n scope name
  | collect c => exact keepsFixed_act trivial
  | writesTo decl => exact keepsFixed_act trivial
  | looseWrites owner name => exact keepsFixed_act trivial

end

/-- A node is left with what its strategy finds. -/
theorem framed_keepsFixed {answers : (q : NodeQuestion) → Inquiry q.Answer} (h : ∀ q, KeepsFixed x (answers q))
    (node : NodeId) : KeepsFixed x (framed x.forest node ((Strategy.dispatch x node).interpret answers)) := by
  intro s _
  rw [Dialogue.Meets, framed_watched]
  refine ⟨trivial, ?_⟩
  cases hd : Strategy.dispatch x node with
  | done found =>
    refine ⟨fun found' hfixed => ?_, trivial⟩
    have hsame : found = found' := Dialogue.done.inj (hd.symm.trans hfixed.dispatch)
    rw [hsame]
  | ask q next =>
    refine (Keeps.interpret h (Dialogue.ask q next) _ trivial).mono fun r _ _ _ => ⟨?_, trivial⟩
    cases r with
    | error e => trivial
    | ok found =>
      intro found' hfixed
      cases hd.symm.trans hfixed.dispatch

theorem resolveWithin_keepsFixed (x : Index) (limit room : Nat) (node : NodeId) :
    KeepsFixed x (resolveWithin x limit room node) :=
  .resolveWithin (fun _ _ _ => ⟨trivial, trivial, trivial⟩)
    (fun _ htypes node => framed_keepsFixed (answer_keepsFixed htypes) node) limit room node

end Inquiry

namespace Index

open Inquiry Session

variable {x : Index} {limit : Nat}

theorem resolveAll_remembersFixed (x : Index) (limit : Nat) (nodes : List NodeId) :
    (x.resolveAll limit nodes {}).RemembersFixed x := by
  refine resolveAll_invariant (RemembersFixed x) (fun s node hs => ?_) nodes nofun
  exact (resolveWithin_keepsFixed x limit limit node s trivial).invariant (fun _ _ ha => .perform ha) hs

/-- Whatever was resolved before, the types of a fixed node are those that are found for it. -/
theorem answerAfter_of_fixed {node : NodeId} {found types : TypeSet} (hfixed : x.Fixed node found)
    {before : List NodeId} (h : x.answerAfter limit before node = .ok types) :
    types = orUnknown (x.forest.kind node) found := by
  have hidle := x.resolveAll_idle limit before Session.new_idle
  have hgiven : (x.resolveAll limit (before ++ [node]) {}).memo.find? node = some types := by
    rw [resolveAll_append]
    exact (resolveWithin_remembers x limit node hidle).atEnd types h
  exact x.resolveAll_remembersFixed limit (before ++ [node]) node found hfixed types hgiven

/-- A fixed node has types, if there is room for one node on the stack. -/
theorem exists_answerAfter_of_fixed {node : NodeId} {found : TypeSet} (hfixed : x.Fixed node found) (hlimit : 0 < limit)
    (before : List NodeId) : ∃ types, x.answerAfter limit before node = .ok types := by
  have hidle := x.resolveAll_idle limit before Session.new_idle
  generalize hs : x.resolveAll limit before {} = s at hidle
  have hnot : node ∉ s.resolving := by
    rw [hidle.resolving_eq]
    exact List.not_mem_nil
  obtain ⟨room, rfl⟩ := Nat.exists_eq_succ_of_ne_zero (Nat.ne_of_gt hlimit)
  have hmeets : (resolveWithin x (room + 1) (room + 1) node).run.Meets (fun _ _ => True)
      (fun r _ => ∃ types, r = .ok types) s := by
    refine remembered_watched trivial trivial trivial (fun types _ => ⟨types, rfl⟩) (fun _ hmem => absurd hmem hnot)
      (fun _ hmem => absurd hmem hnot) fun _ _ => ?_
    rw [framed_watched, hfixed.dispatch]
    exact ⟨trivial, trivial, _, rfl⟩
  rw [answerAfter, hs]
  exact hmeets.atEnd

end Index

end EventAtlas
