import EventAtlas.Proofs.Hierarchy.Supertypes
import EventAtlas.Proofs.Inference.SweepSteps

/-!
# Resolution comes to an end

Three things keep a resolution from running forever: a node that is on the stack is not entered again and the stack has
a limit, a scope that is swept is not swept again, and the steps of a sweep weigh less and less. So the resolver
without bounds comes to an end whatever the hierarchy of classes is and however methods, properties, constants and
parameters refer to each other, and its result is the one that the bounded resolver computes
(`Inquiry.resolveWithin_follows`).

The walks that a resolution takes through the forest have bounds as well. In a built index none of them is ever met:
walks down and up end before, and the walks through the hierarchy of classes have met everything there is to meet
(`Forest.WalksEnd`).
-/

namespace EventAtlas

open Forest

/-! ## Walks through the forest -/

/-- No walk through the forest is ended by its bound. -/
structure Forest.WalksEnd (f : Forest) : Prop where
  down : ∀ id, f.Fits (f.size + 1) id
  up : ∀ id, ∃ k, f.Rooted k id ∧ k < f.size + 1
  parents : ∀ c, ∀ p ∈ c :: f.parentChain c, ∀ d, f.parentClass? p = some d → d ∈ c :: f.parentChain c
  traits : ∀ c, ∀ q ∈ c :: f.traitClosure c, f.traits q ⊆ c :: f.traitClosure c
  interfaces : ∀ c, ∀ q ∈ (c :: f.parentChain c) ++ f.interfaceClosure c, f.interfaces q ⊆ c :: f.interfaceClosure c

theorem Forest.ChildrenOlder.fits_size {f : Forest} (h : f.ChildrenOlder) (id : NodeId) : f.Fits (f.size + 1) id := by
  obtain hlt | hle := Nat.lt_or_ge id f.size
  · exact (h.fits id).mono (Nat.le_succ_of_le hlt)
  · exact fun c hc => absurd (lt_size_of_mem_children hc) (Nat.not_lt.mpr hle)

namespace Index

theorem joined_childrenOlder {forests : List Forest} (h : ∀ f ∈ forests, f.ChildrenOlder) :
    (joined forests).ChildrenOlder :=
  List.foldlRecOn (motive := Forest.ChildrenOlder) forests absorb .empty fun _ hg f hf => hg.absorb (h f hf)

theorem Built.walksEnd {f : Forest} {x : Index} (h : Built f x) (hunlinked : f.Unlinked) (holder : f.ChildrenOlder) :
    x.forest.WalksEnd := by
  have hold : x.forest.ChildrenOlder := by
    intro id c hc
    exact holder id c (h.tree.children ▸ hc)
  refine ⟨hold.fits_size, fun id => ?_, fun c p hp d hd => parentClass?_mem_parentChain hp hd,
    fun c q hq => traits_subset_traitClosure hq, fun c q hq => interfaces_subset_interfaceClosure hq⟩
  cases hp : x.forest.parent id with
  | none => exact ⟨0, hp, Nat.succ_pos _⟩
  | some p =>
    obtain ⟨k, hk, hlt⟩ := h.linked.exists_rooted (h.reached_of_parent hunlinked hp)
    exact ⟨k, hk, Nat.lt_succ_of_lt hlt⟩

end Index

/-! ## The two resolvers -/

namespace Inquiry

open Session
open Routine (Follows)

section Answers

variable {x : Index} {limit : Nat} {stack : List NodeId} {sweeps : Sweeps} {types : NodeId → Inquiry TypeSet}
  (hfits : ∀ id, x.forest.Fits (x.forest.size + 1) id)
  (hkeeps : ∀ sweeps node, Keeps (Act.InOrder limit) (Rests limit stack sweeps) (types node))
  (htypes : ∀ sweeps node, Follows x limit (Rests limit stack sweeps) (Routine.resolve node) (types node))

include htypes in
theorem answerSweep_follows {scope : NodeId} (q : SweepQuestion) :
    Follows x limit (Amid limit stack sweeps scope) (Routine.answerSweep q) (answerSweep types q) := by
  cases q with
  | types node =>
    rintro s ⟨v, -, hs⟩
    exact htypes _ node s hs
  | isResolving node => exact .act _
  | current => exact .act _
  | change g => exact .act _
  | read node name => exact .act _

include hfits hkeeps htypes

/-- A sweep that may take as many steps as its list weighs works off the list. -/
theorem steps_follows {scope : NodeId} (n : Nat) (todo : List SweepStep) (hn : Sweeping.total x.forest todo ≤ n) :
    Follows x limit (Amid limit stack sweeps scope) (Routine.steps x todo)
      ((Sweeping.steps x n todo).interpret (answerSweep types)) := by
  induction n generalizing todo with
  | zero =>
    cases todo with
    | nil => exact .pure ()
    | cons s rest =>
      have hpos := Sweeping.one_le_weight x.forest s
      rw [Sweeping.total_cons] at hn
      omega
  | succ n ih =>
    cases todo with
    | nil => exact .pure ()
    | cons s rest =>
      rw [Sweeping.steps, Dialogue.interpret_bind, Routine.steps]
      refine Follows.bind (.interpret (answerSweep_follows htypes) (answerSweep_keeps hkeeps) (Sweeping.step x s))
        (Keeps.interpret (answerSweep_keeps hkeeps) _) fun t next _ hnext => (ih (next ++ rest) ?_).proceed
      have hless := ok_of_ends (Sweeping.step_ends fun id _ => hfits id) hnext
      rw [Sweeping.total_cons] at hn
      rw [Sweeping.total_append]
      omega

variable (hdepths : ∀ w ∈ sweeps, w.depth < stack.length) (hpos : 1 ≤ stack.length)

include hdepths hpos

theorem sweep_follows (scope : NodeId) :
    Follows x limit (Rests limit stack sweeps) (Routine.sweep x scope) (sweep x types scope) := by
  refine Follows.of_meets fun s hs => sweep_watched trivial (fun hnot => ?_) fun hbegun => ?_
  · refine .act ?_
    change x.Runs limit (if (s.beginSweep scope).1 = true then _ else _) _ _ _
    rw [hnot]
    exact .done
  · have hamid : Amid limit stack sweeps scope (s.beginSweep scope).2 :=
      ⟨{ scope }, rfl, hs.beginSweep hdepths hpos hbegun⟩
    have hsteps : Follows x limit (Amid limit stack sweeps scope) _ _ :=
      steps_follows hfits hkeeps htypes _ _ (Sweeping.total_firstSteps_le (hfits scope))
    refine (hsteps.proceed.meets hamid).imp (fun _ _ _ _ => trivial) fun r s' _ hrun => ⟨trivial, .act ?_⟩
    change x.Runs limit (if (s.beginSweep scope).1 = true then _ else _) _ _ _
    rw [if_pos hbegun]
    exact hrun.bind (.act .done)

theorem readVariable_follows (node scope : NodeId) (name : String) :
    Follows x limit (Rests limit stack sweeps) (Routine.readVariable x node scope name)
      (readVariable x types node scope name) := by
  have hahead : Keeps (fun _ _ => True) (Rests limit stack sweeps) (act (.readAhead scope name)) :=
    keeps_act (fun _ _ => trivial) fun _ hs => hs.readAhead hdepths
  refine .bind (.act (.readAhead scope name)) hahead fun _ found _ _ => ?_
  cases found with
  | some found => exact .pure found
  | none =>
    exact (sweep_follows hfits hkeeps htypes hdepths hpos scope).bind (sweep_keeps hkeeps hdepths hpos scope)
      fun _ _ _ _ => .act (.readBehind node scope)

theorem answer_follows (q : NodeQuestion) :
    Follows x limit (Rests limit stack sweeps) (Routine.answer x q) (answer x types q) := by
  cases q with
  | types node => exact htypes sweeps node
  | isResolving node => exact .act _
  | read node scope name => exact readVariable_follows hfits hkeeps htypes hdepths hpos node scope name
  | collect c => exact .act _
  | writesTo decl => exact .act _
  | looseWrites owner name => exact .act _

end Answers

/-- With room for the nodes that the limit allows, an inquiry gives what the resolver without bounds gives. -/
theorem resolveWithin_follows {x : Index} (hfits : ∀ id, x.forest.Fits (x.forest.size + 1) id) (limit room : Nat)
    (node : NodeId) (stack : List NodeId) (sweeps : Sweeps) (hroom : stack.length + room = limit) :
    Follows x limit (Rests limit stack sweeps) (Routine.node x limit node) (resolveWithin x limit room node) := by
  induction room generalizing node stack sweeps with
  | zero =>
    refine .remembered fun s hs _ => ?_
    rw [if_pos (by rw [hs.stack_eq]; omega)]
    exact .done
  | succ room ih =>
    refine .remembered fun s hs hstack => ?_
    have hnode : node ∉ stack := by rwa [hs.bracketed.resolving_eq, hs.stack_eq] at hstack
    have hdepths : ∀ w ∈ sweeps, w.depth < (node :: stack).length := by
      intro w hw
      rw [← hs.sweeps_eq] at hw
      have hbound := (hs.bracketed.sweeps_nested.depth_bounds w hw).2
      rw [hs.stack_eq] at hbound
      exact Nat.lt_succ_of_le hbound
    have hroom' : (node :: stack).length + room = limit := by rw [List.length_cons]; omega
    have hpos : 1 ≤ (node :: stack).length := Nat.succ_le_succ (Nat.zero_le _)
    have hkeeps := fun sweeps n => resolveWithin_rests x limit room n (node :: stack) sweeps hroom'
    have hstrategy := Follows.interpret
      (answer_follows hfits hkeeps (fun sweeps n => (ih n (node :: stack) sweeps hroom').resolve) hdepths hpos)
      (answer_keeps hkeeps hdepths hpos) (Strategy.dispatch x node)
    rw [if_neg (by rw [hs.stack_eq]; omega)]
    refine framed_watched.mpr ⟨trivial, ?_⟩
    refine (hstrategy.meets (hs.push hnode (by omega))).mono fun r s' _ hrun => ⟨trivial, ?_⟩
    exact .act (hrun.bind (.act .done))

end Inquiry

namespace Index

variable {x : Index}

/-- Resolution comes to an end. In an index built from forests whose children are older than their parents, no walk is
ended by its bound. Whatever nodes were resolved before, with whatever limit, the resolver without bounds comes to an
end at every node, with the result that `Index.resolve` gives and no other; and it comes to an end from every session
that a resolution passes through. -/
theorem resolve_comes_to_an_end {forests : List Forest} (h : ofForests forests = .ok x)
    (hunlinked : ∀ f ∈ forests, f.Unlinked) (holder : ∀ f ∈ forests, f.ChildrenOlder) (limit : Nat) (node : NodeId) :
    x.forest.WalksEnd ∧
    (∀ before r s', x.Runs limit (Routine.node x limit node).run (x.resolveAll limit before {}) r s' ↔
      (x.resolve limit node).run.run (x.resolveAll limit before {}) = (r, s')) ∧
    ∀ s : Session, s.Bracketed limit → ∃ r s', x.Runs limit (Routine.node x limit node).run s r s' := by
  have hends := (ofForests_built h).walksEnd (joined_unlinked hunlinked) (joined_childrenOlder holder)
  refine ⟨hends, fun before r s' => ?_, fun s hs => ?_⟩
  · have hidle : Session.Rests limit [] [] (x.resolveAll limit before {}) :=
      Session.rests_nil_iff_idle.mpr (x.resolveAll_idle limit before Session.new_idle)
    have hrun := Inquiry.resolveWithin_follows hends.down limit limit node [] [] (Nat.zero_add limit) _ hidle
    constructor
    · intro hother
      obtain ⟨hr, hs⟩ := hother.unique hrun
      rw [hr, hs]
      rfl
    · intro heq
      change x.Runs limit _ _ ((x.resolve limit node).run.run _).1 ((x.resolve limit node).run.run _).2 at hrun
      rwa [heq] at hrun
  · have hroom : s.stack.length + (limit - s.stack.length) = limit := Nat.add_sub_cancel' hs.stack_length
    exact ⟨_, _, Inquiry.resolveWithin_follows hends.down limit _ node s.stack s.sweeps hroom s ⟨hs, rfl, rfl⟩⟩

theorem exists_session_of_answerAfter {limit : Nat} {before : List NodeId} {node : NodeId} {types : TypeSet}
    (h : x.answerAfter limit before node = .ok types) :
    ∃ s', (x.resolve limit node).run.run (x.resolveAll limit before {}) = (.ok types, s') :=
  ⟨_, Prod.ext h rfl⟩

/-- Classes that extend each other, constants that name each other, a default that leads to them, and methods that call
each other and write a property that they read. -/
def allCircular : List (String × String) :=
  [("a.php", "<?php\nclass A extends B \x7b const C = D::C;\npublic $p;\n" ++
      "function m($a = self::C) \x7b $x = $this->p; return $this->n($x); \x7d\n" ++
      "function n($b) \x7b $this->p = $this->m(); return $this->p; \x7d \x7d\n"),
    ("b.php", "<?php\nclass B extends A \x7b\x7d\n"), ("d.php", "<?php\nclass D \x7b const C = A::C; \x7d\n")]

theorem resolve_comes_to_an_end_allCircular : let x := ofPrograms allCircular
    x.forest.WalksEnd ∧ ∃ types s', types.names = ["unknown<PropertyFetch>"] ∧
      x.Runs 40 (Routine.node x 40 19).run (x.resolveAll 40 [3, 7] {}) (.ok types) s' := by
  have hnames : (ofPrograms allCircular).namesAfter? 40 [3, 7] 19 = some ["unknown<PropertyFetch>"] := by
    decide +kernel
  obtain ⟨hends, hruns, -⟩ := resolve_comes_to_an_end (ofForests_ofPrograms allCircular) unlinked_of_mem_forestsOf
    (fun f hf => (orderly_of_mem_forestsOf f hf).child_lt) 40 19
  obtain ⟨types, htypes, heq⟩ := answerAfter_of_namesAfter? hnames
  obtain ⟨s', hrun⟩ := exists_session_of_answerAfter htypes
  exact ⟨hends, types, s', heq, (hruns [3, 7] _ _).mpr hrun⟩

end Index

end EventAtlas
