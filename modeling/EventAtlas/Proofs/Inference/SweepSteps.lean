import EventAtlas.Proofs.Forest.Arena
import EventAtlas.Proofs.Inference.Unbounded
import Mathlib.Algebra.GroupWithZero.Nat

/-!
# How many steps a sweep takes

A sweep works off a list of steps, and a step may put others in its place. Where walks down end, a weight tells that
this comes to an end: a visit weighs four for each node below, any other step weighs one, and the steps that come
of a step weigh less together than the step (`step_ends`). The first steps of a scope weigh no more than the bound that
the sweep carries (`total_firstSteps_le`), so the bound is never met before the list is empty.
-/

namespace EventAtlas

open List

namespace Forest

variable {f : Forest} {id b : NodeId} {n m : Nat}

theorem Fits.weight_eq (h : f.Fits n id) (hle : n ≤ m) : Walk.weight f m id = Walk.weight f n id := by
  induction n generalizing id m with
  | zero => exact h.elim
  | succ n ih =>
    obtain ⟨m, rfl⟩ := Nat.exists_eq_add_of_lt hle
    rw [show n + m + 1 = (n + m) + 1 from rfl, Walk.weight, Walk.weight]
    congr 2
    exact map_congr_left fun c hc => ih (h c hc) (Nat.le_add_right n m)

/-- The number of nodes below a node, the node with them. -/
def mass (f : Forest) (id : NodeId) : Nat :=
  Walk.weight f (f.size + 1) id

theorem mass_eq (h : f.Fits (f.size + 1) id) : f.mass id = 1 + ((f.children id).map f.mass).sum := by
  have hbelow : (f.children id).map f.mass = (f.children id).map (Walk.weight f f.size) :=
    map_congr_left fun c hc => (h c hc).weight_eq (Nat.le_succ f.size)
  rw [hbelow]
  rfl

theorem mass_pos (f : Forest) (id : NodeId) : 1 ≤ f.mass id :=
  Nat.le_add_right 1 _

theorem length_le_sum_mass (f : Forest) (l : List NodeId) : l.length ≤ (l.map f.mass).sum := by
  induction l with
  | nil => exact Nat.le_refl 0
  | cons c rest ih =>
    have := f.mass_pos c
    simp only [length_cons, map_cons, sum_cons]
    omega

/-- One node of a list may count with all that is below it. -/
theorem length_add_mass_le {l : List NodeId} (h : b ∈ l) : l.length + f.mass b ≤ (l.map f.mass).sum + 1 := by
  obtain ⟨before, after, rfl⟩ := append_of_mem h
  have := f.length_le_sum_mass before
  have := f.length_le_sum_mass after
  simp only [length_append, length_cons, map_append, map_cons, sum_append, sum_cons]
  omega

theorem sum_mass_le_of_sublist {l l' : List NodeId} (h : l.Sublist l') : (l.map f.mass).sum ≤ (l'.map f.mass).sum := by
  induction h with
  | slnil => exact Nat.le_refl 0
  | cons c _ ih =>
    rw [map_cons, sum_cons]
    exact Nat.le_add_left_of_le ih
  | cons_cons c _ ih =>
    rw [map_cons, sum_cons, map_cons, sum_cons]
    exact Nat.add_le_add_left ih _

theorem body?_mem_children (h : f.body? id = some b) : b ∈ f.children id := by
  unfold body? at h
  split at h
  · exact mem_reverse.mp (mem_of_find?_eq_some h)
  · exact mem_of_find?_eq_some h

end Forest

namespace Sweeping

open Forest

variable {f : Forest} {x : Index} {node : NodeId}

/-- What a step weighs. -/
def weight (f : Forest) : SweepStep → Nat
  | .visit id => 4 * f.mass id
  | .bind .. | .restore _ => 1

section

variable (f)

theorem one_le_weight (s : SweepStep) : 1 ≤ weight f s := by
  cases s with
  | visit id => exact Nat.le_trans (f.mass_pos id) (Nat.le_mul_of_pos_left _ (by decide))
  | _ => exact Nat.le_refl 1

/-- What steps weigh together. -/
def total (f : Forest) (todo : List SweepStep) : Nat :=
  (todo.map (weight f)).sum

@[simp] theorem total_nil : total f [] = 0 := rfl

@[simp] theorem total_cons (s : SweepStep) (todo : List SweepStep) :
    total f (s :: todo) = weight f s + total f todo := rfl

@[simp] theorem total_append (a b : List SweepStep) : total f (a ++ b) = total f a + total f b := by
  rw [total, map_append, sum_append, total, total]

theorem total_map_visit (l : List NodeId) : total f (l.map .visit) = 4 * (l.map f.mass).sum := by
  induction l with
  | nil => rfl
  | cons c rest ih =>
    rw [map_cons, total_cons, ih, weight, map_cons, sum_cons]
    omega

theorem total_map_bindSelf (l : List NodeId) : total f (l.map bindSelf) = l.length := by
  induction l with
  | nil => rfl
  | cons c rest ih =>
    rw [map_cons, total_cons, ih, bindSelf, weight, length_cons]
    omega

theorem length_childrenWhere_le (id : NodeId) (p : NodeKind → Bool) :
    (f.childrenWhere id p).length ≤ (f.children id).length :=
  length_filter_le _ _

/-- Parameters, the variables that are taken along and the body are children. -/
theorem total_parts_le (id : NodeId) (params used : List NodeId)
    (hparams : params.length ≤ (f.children id).length) (hused : used.length ≤ (f.children id).length) :
    total f (params.map bindSelf ++ used.map bindSelf ++ (f.body? id).toList.map .visit) ≤
      4 * ((f.children id).map f.mass).sum + 2 := by
  have hlength := f.length_le_sum_mass (f.children id)
  rw [total_append, total_append, total_map_bindSelf, total_map_bindSelf, total_map_visit]
  cases hb : f.body? id with
  | none =>
    simp only [Option.toList_none, map_nil, sum_nil]
    omega
  | some b =>
    have hbody := length_add_mass_le (f := f) (body?_mem_children hb)
    have hsome := length_pos_of_mem (body?_mem_children hb)
    simp only [Option.toList_some, map_cons, map_nil, sum_cons, sum_nil]
    omega

theorem total_assignSteps_le {target : NodeId} (htarget : f.Fits (f.size + 1) target) (value : NodeId)
    (pending : Option TypeSet) :
    total f (assignSteps f target value pending) ≤ 4 * f.mass value + 4 * f.mass target := by
  have hmass := mass_eq htarget
  unfold assignSteps
  dsimp only
  split <;> simp only [cons_append, total_cons, total_append, total_nil, total_map_visit, weight] <;> omega

theorem total_foreachSteps_le (hasKey : Bool) (children : List NodeId) :
    total f (foreachSteps f hasKey children) ≤ 4 * (children.map f.mass).sum + 2 := by
  have hvisit {l : List NodeId} (hl : l.Sublist (children.drop 1)) :
      total f ((l.take 1).map .visit) ≤ 4 * ((children.drop 1).map f.mass).sum := by
    have := sum_mass_le_of_sublist (f := f) ((take_sublist 1 l).trans hl)
    rw [total_map_visit]
    omega
  have hbind (l : List NodeId) (source : NodeId → BindSource) :
      total f ((l.take 1).map fun v => .bind v (source v)) ≤ 1 := by
    cases l <;> simp [weight]
  cases children with
  | nil => exact Nat.zero_le _
  | cons source rest =>
    unfold foreachSteps
    dsimp only
    rw [cons_append, cons_append, total_cons, total_append, total_append, weight, map_cons,
      sum_cons]
    cases hasKey with
    | false =>
      have := hbind rest fun v => if isList (f.kind v) then .elementsOf source else .node v
      have := hvisit (drop_sublist 1 rest)
      simp only [Bool.false_eq_true, if_false, map_nil, total_nil, drop_succ_cons, drop_zero] at *
      omega
    | true =>
      have := hbind rest .node
      have := hbind (rest.drop 1) fun v => if isList (f.kind v) then .elementsOf source else .node v
      have := hvisit ((drop_sublist 1 (rest.drop 1)).trans (drop_sublist 1 rest))
      simp only [if_true, drop_succ_cons, drop_zero] at *
      omega

theorem total_catchSteps_le (children : List NodeId) :
    total f (children.filterMap (catchStep? f)) ≤ 4 * (children.map f.mass).sum := by
  induction children with
  | nil => exact Nat.le_refl 0
  | cons c rest ih =>
    have hmass := f.mass_pos c
    have hstep : total f (catchStep? f c).toList ≤ 4 * f.mass c := by
      unfold catchStep?
      split <;> simp only [Option.toList_some, Option.toList_none, total_cons, total_nil, weight] <;> omega
    rw [filterMap_cons, map_cons, sum_cons]
    cases hs : catchStep? f c with
    | none => simp only; omega
    | some s =>
      rw [hs] at hstep
      simp only [Option.toList_some, total_cons, total_nil] at hstep ⊢
      omega

end

/-- The steps that come of a visit weigh less than the visit. -/
theorem visit_ends (hfits : x.forest.Fits (x.forest.size + 1) node) :
    (visit x node).Ends fun next => total x.forest next < weight x.forest (.visit node) := by
  have hmass := mass_eq hfits
  have hchildren : total x.forest ((x.forest.children node).map .visit) < weight x.forest (.visit node) := by
    rw [total_map_visit, weight]
    omega
  have hempty : total x.forest [] < weight x.forest (.visit node) := by
    rw [total_nil, weight]
    omega
  unfold visit
  dsimp only
  cases hk : x.forest.kind node with
  | classDecl | interfaceDecl | traitDecl | method | function => exact hempty
  | var name =>
    dsimp only
    split
    · exact ⟨trivial, fun _ _ => hempty⟩
    · exact hempty
  | assign byRef =>
    dsimp only
    split
    · next target value rest hc =>
      have htarget : x.forest.Fits (x.forest.size + 1) target := (hfits target (by simp [hc])).succ
      have hsteps := total_assignSteps_le _ htarget value
      rw [hc, map_cons, map_cons, sum_cons, sum_cons] at hmass
      have hlt : ∀ pending,
          total x.forest (assignSteps x.forest target value pending) < weight x.forest (.visit node) := by
        intro pending
        have := hsteps pending
        rw [weight]
        omega
      unfold takePending
      split
      · exact ⟨trivial, fun v _ => ⟨trivial, fun _ _ => hlt _⟩⟩
      · exact hlt none
    · exact hchildren
  | compoundAssign op =>
    change total _ _ < _
    have hbind :
        total x.forest (((x.forest.children node).take 1).map fun target => .bind target (.node node)) ≤ 1 := by
      cases x.forest.children node <;> simp [weight]
    rw [total_append, total_map_visit, weight]
    omega
  | foreach hasKey =>
    change total _ _ < _
    have := total_foreachSteps_le x.forest hasKey (x.forest.children node)
    rw [weight]
    omega
  | catchClause =>
    change total _ _ < _
    have := total_catchSteps_le x.forest (x.forest.children node)
    rw [weight]
    omega
  | staticVariable name =>
    change total _ _ < _
    rw [total_append, total_map_visit, total_cons, total_nil, bindSelf, weight, weight]
    omega
  | closure isStatic =>
    change total _ _ < _
    have hused : ((usedVariables x.forest node).map x.forest.mass).sum ≤
        ((x.forest.children node).map x.forest.mass).sum :=
      sum_mass_le_of_sublist filter_sublist
    rw [total_map_visit, weight]
    omega
  | arrowFunction =>
    refine ⟨trivial, fun v _ => ?_⟩
    change total _ _ < _
    have hparts := total_parts_le x.forest node (x.forest.parameters node) []
      (length_childrenWhere_le ..) (Nat.zero_le _)
    rw [map_nil, append_nil] at hparts
    rw [total_append, total_cons, total_nil, weight, weight]
    omega
  | docComment text => exact ⟨trivial, fun _ _ => hempty⟩
  | _ => exact hchildren

theorem step_ends {s : SweepStep} (hfits : ∀ id, s = .visit id → x.forest.Fits (x.forest.size + 1) id) :
    (step x s).Ends fun next => total x.forest next < weight x.forest s := by
  cases s with
  | visit id => exact visit_ends (hfits id rfl)
  | bind target source =>
    refine (Dialogue.ends_true (sourceTypes? source)).bind fun types _ => ?_
    cases types with
    | some types => exact ⟨trivial, fun _ _ => Nat.one_pos⟩
    | none => exact Nat.one_pos
  | restore saved => exact ⟨trivial, fun _ _ => Nat.one_pos⟩

/-- The steps with which the sweep of a scope begins weigh no more than its bound. -/
theorem total_firstSteps_le {scope : NodeId} (hfits : f.Fits (f.size + 1) scope) :
    total f (firstSteps f scope) ≤ stepBound f scope := by
  have hmass := mass_eq hfits
  have hbound : stepBound f scope = 4 * f.mass scope + 4 := rfl
  have hparts : ∀ used : List NodeId, used.length ≤ (f.children scope).length →
      total f ((f.parameters scope).map bindSelf ++ used.map bindSelf ++ (f.body? scope).toList.map .visit) ≤
        stepBound f scope := by
    intro used hused
    have := total_parts_le f scope (f.parameters scope) used (length_childrenWhere_le ..) hused
    omega
  unfold firstSteps
  cases f.kind scope with
  | file =>
    dsimp only
    rw [total_map_visit]
    omega
  | closure isStatic => exact hparts _ (length_childrenWhere_le ..)
  | _ => exact hparts [] (Nat.zero_le _)

end Sweeping

end EventAtlas
