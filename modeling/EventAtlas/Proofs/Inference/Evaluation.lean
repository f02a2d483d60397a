import EventAtlas.Proofs.Inference.Visits
import EventAtlas.Proofs.Link.TreeShape

/-!
# A sweep is evaluation order

A sweep works off a list of steps. `evaluate` says the same by recursion over the tree: in which order the parts of a
node are evaluated, and when variables are bound. Both are dialogues, and on trees they are one dialogue
(`scope_eq_evaluateScope`), so they ask the same questions in the same order whatever is answered and wherever an error
stops them.

What a sweep asks for in a run is listed by `effects`. Each effect finds the variables as the changes before it left
them (`effects_rests`): what is resolved in between may sweep other scopes, but ends with the variables with which it
began.
-/

namespace EventAtlas

open List

namespace Sweeping

open Forest

variable {f : Forest} {x : Index} {node : NodeId} {n m : Nat}

/-! ## The evaluator -/

/-- Bind a target to what a source gives. -/
def bindFrom (x : Index) (target : NodeId) (source : BindSource) : Sweeping PUnit := do
  match ← sourceTypes? source with
  | some types => change (Variables.assign x.forest (x.forest.size + 1) target types)
  | none => return

/-- Bind a node to its own types. -/
def bindItself (x : Index) (id : NodeId) : Sweeping PUnit :=
  bindFrom x id (.node id)

/-- A target of an assignment that can hold variables. A property is no variable. -/
def holdsVariables : NodeKind → Bool
  | .var _ | .listDestructure | .arrayLiteral | .arrayAccess => true
  | _ => false

/-- Evaluate a node, at most `n` levels deep. -/
def evaluate (x : Index) : Nat → NodeId → Sweeping PUnit
  | 0, _ => return
  | n + 1, node =>
    let f := x.forest
    let children := f.children node
    match f.kind node with
    | .classDecl .. | .interfaceDecl _ | .traitDecl _ | .method .. | .function _ => return
    | .var name => if name != "this" then read node name else return
    | .assign _ =>
      match children with
      | target :: value :: _ => do
        -- An annotation that waits for the assignment takes the place of the value, which is evaluated all the same.
        let pending ← takePending f target
        evaluate x n value
        forM (insideTarget f target) (evaluate x n)
        if holdsVariables (f.kind target) then bindFrom x target ((pending.map .types).getD (.node value))
      | _ => forM children (evaluate x n)
    | .compoundAssign _ => do
      forM children (evaluate x n)
      forM (children.take 1) fun target => bindFrom x target (.node node)
    | .foreach hasKey =>
      match children with
      | [] => return
      | source :: rest => do
        let values := if hasKey then rest.drop 1 else rest
        evaluate x n source
        forM (if hasKey then rest.take 1 else []) (bindItself x)
        forM (values.take 1) fun v => bindFrom x v (if isList (f.kind v) then .elementsOf source else .node v)
        forM ((values.drop 1).take 1) (evaluate x n)
    | .catchClause =>
      forM children fun c =>
        match f.kind c with
        | .var _ => bindItself x c
        | .name .. => return
        | _ => evaluate x n c
    | .staticVariable _ => do
      forM children (evaluate x n)
      bindItself x node
    | .closure _ => forM (usedVariables f node) (evaluate x n)
    | .arrowFunction => do
      let saved := shadowed f (f.parameters node) (← current)
      forM (f.parameters node) (bindItself x)
      forM (f.body? node).toList (evaluate x n)
      change fun v => saved.foldl Variables.restore v
    | .docComment text => change (·.note x node text)
    | _ => forM children (evaluate x n)

/-- The variables that the body of a scope finds bound beside its parameters. -/
def takenAlong (f : Forest) (scope : NodeId) : List NodeId :=
  match f.kind scope with
  | .closure _ => usedVariables f scope
  | _ => []

/-- Evaluate a scope, at most `n` levels deep. -/
def evaluateScope (x : Index) (n : Nat) (scope : NodeId) : Sweeping PUnit :=
  match x.forest.kind scope with
  | .file => forM (x.forest.children scope) (evaluate x n)
  | _ => do
    forM (x.forest.parameters scope) (bindItself x)
    forM (takenAlong x.forest scope) (bindItself x)
    forM (x.forest.body? scope).toList (evaluate x n)

/-! ## Steps as evaluation -/

/-- What is done by a step and all steps that come of it. -/
def carryOut (x : Index) (n : Nat) : SweepStep → Sweeping PUnit
  | .visit id => evaluate x n id
  | .bind target source => bindFrom x target source
  | .restore saved => change fun v => saved.foldl Variables.restore v

theorem forM_map_visit (l : List NodeId) : forM (l.map SweepStep.visit) (carryOut x n) = forM l (evaluate x n) :=
  forM_map

theorem forM_map_bindSelf (l : List NodeId) : forM (l.map bindSelf) (carryOut x n) = forM l (bindItself x) :=
  forM_map

theorem forM_singleton (s : SweepStep) : forM [s] (carryOut x n) = carryOut x n s :=
  Dialogue.bind_done _

theorem forM_assignSteps (target value : NodeId) (pending : Option TypeSet) :
    forM (assignSteps x.forest target value pending) (carryOut x n) = (do
      evaluate x n value
      forM (insideTarget x.forest target) (evaluate x n)
      if holdsVariables (x.forest.kind target) then
        bindFrom x target ((pending.map .types).getD (.node value))) := by
  unfold assignSteps
  dsimp only
  cases hk : x.forest.kind target with
  | var | listDestructure | arrayLiteral =>
    dsimp only
    rw [forM_cons, forM_singleton, insideTarget, hk]
    rfl
  | arrayAccess =>
    dsimp only
    rw [cons_append, forM_cons, forM_append, forM_map_visit, forM_singleton, insideTarget, hk]
    rfl
  | _ =>
    dsimp only
    rw [forM_cons, forM_map_visit, insideTarget, hk]
    exact congrArg (evaluate x n value >>= ·) (funext fun _ => (Dialogue.bind_done _).symm)

theorem forM_foreachSteps (hasKey : Bool) (source : NodeId) (rest : List NodeId) :
    forM (foreachSteps x.forest hasKey (source :: rest)) (carryOut x n) = (do
      let values := if hasKey then rest.drop 1 else rest
      evaluate x n source
      forM (if hasKey then rest.take 1 else []) (bindItself x)
      forM (values.take 1) fun v =>
        bindFrom x v (if isList (x.forest.kind v) then .elementsOf source else .node v)
      forM ((values.drop 1).take 1) (evaluate x n)) := by
  unfold foreachSteps
  dsimp only
  rw [cons_append, cons_append, forM_cons, forM_append, forM_append, forM_map,
    forM_map, forM_map_visit, bind_assoc]
  rfl

theorem forM_catchSteps (l : List NodeId) :
    forM (l.filterMap (catchStep? x.forest)) (carryOut x n) = forM l fun c =>
      match x.forest.kind c with
      | .var _ => bindItself x c
      | .name .. => return
      | _ => evaluate x n c := by
  induction l with
  | nil => rfl
  | cons c rest ih =>
    rw [filterMap_cons, forM_cons, ← ih, catchStep?]
    cases x.forest.kind c <;> rfl

/-- A node is evaluated by its visit and the steps that come of it. -/
theorem evaluate_succ (x : Index) (n : Nat) (node : NodeId) :
    evaluate x (n + 1) node = visit x node >>= fun next => forM next (carryOut x n) := by
  unfold evaluate visit
  dsimp only
  cases hk : x.forest.kind node with
  | classDecl | interfaceDecl | traitDecl | method | function => rfl
  | var name =>
    dsimp only
    split <;> rfl
  | assign byRef =>
    dsimp only
    match x.forest.children node with
    | [] | [_] => rfl
    | target :: value :: _ =>
      dsimp only
      rw [bind_assoc]
      refine congrArg (takePending x.forest target >>= ·) (funext fun pending => ?_)
      rw [pure_bind, forM_assignSteps]
  | compoundAssign op =>
    dsimp only
    rw [pure_bind, forM_append, forM_map_visit, forM_map]
    rfl
  | foreach hasKey =>
    dsimp only
    rw [pure_bind]
    cases x.forest.children node with
    | nil => rfl
    | cons source rest => rw [forM_foreachSteps]
  | catchClause =>
    dsimp only
    rw [pure_bind, forM_catchSteps]
  | staticVariable name =>
    dsimp only
    rw [pure_bind, forM_append, forM_map_visit, forM_singleton]
    rfl
  | closure isStatic =>
    dsimp only
    rw [pure_bind, forM_map_visit]
  | arrowFunction =>
    dsimp only
    rw [bind_assoc]
    refine congrArg (current >>= ·) (funext fun v => ?_)
    rw [pure_bind, forM_append, forM_append, forM_map_bindSelf, forM_map_visit, forM_singleton, bind_assoc]
    rfl
  | docComment text => rfl
  | _ =>
    dsimp only
    rw [pure_bind, forM_map_visit]

/-- Steps are carried out alike at two levels if what they visit is evaluated alike. -/
theorem forM_carryOut_congr {todo : List SweepStep} (h : ∀ c ∈ visits todo, evaluate x n c = evaluate x m c) :
    forM todo (carryOut x n) = forM todo (carryOut x m) := by
  induction todo with
  | nil => rfl
  | cons s rest ih =>
    rw [forM_cons, forM_cons]
    cases s with
    | visit id =>
      rw [visits_cons_visit, forall_mem_cons] at h
      rw [carryOut, carryOut, h.1, ih h.2]
    | bind target source => rw [carryOut, carryOut, ih h]
    | restore saved => rw [carryOut, carryOut, ih h]

/-- Further levels add nothing where the walk below a node ends. -/
theorem evaluate_eq (hfits : x.forest.Fits n node) (hle : n ≤ m) : evaluate x m node = evaluate x n node := by
  induction n generalizing node m with
  | zero => exact hfits.elim
  | succ n ih =>
    obtain ⟨m, rfl⟩ := Nat.exists_eq_add_of_lt hle
    rw [show n + m + 1 = (n + m) + 1 from rfl, evaluate_succ, evaluate_succ]
    have hvisits : (visit x node).Ends fun next => visits next = visited x.forest node :=
      (visit_visits x node).imp (fun _ _ => trivial) fun _ h => h
    refine hvisits.bind_congr fun next hnext => forM_carryOut_congr fun c hc => ?_
    rw [hnext] at hc
    exact ih (visited_fits hfits hc) (Nat.le_add_right n m)

/-- A step is carried out by taking it and carrying out the steps that come of it. -/
theorem carryOut_eq {s : SweepStep} (hfits : ∀ id ∈ visits [s], x.forest.Fits n id) :
    carryOut x n s = step x s >>= fun next => forM next (carryOut x n) := by
  cases s with
  | visit id =>
    have hfits := hfits id mem_cons_self
    rw [carryOut, step, ← evaluate_eq hfits (Nat.le_succ n), evaluate_succ]
  | bind target source =>
    rw [carryOut, bindFrom, step, bind_assoc]
    refine congrArg (sourceTypes? source >>= ·) (funext fun types => ?_)
    cases types <;> rfl
  | restore saved => rfl

/-- A sweep that may take as many steps as its list weighs carries out one step after the other. -/
theorem steps_eq {todo : List SweepStep} (hfits : ∀ id ∈ visits todo, x.forest.Fits (x.forest.size + 1) id)
    (hm : total x.forest todo ≤ m) : steps x m todo = forM todo (carryOut x (x.forest.size + 1)) := by
  induction m generalizing todo with
  | zero =>
    cases todo with
    | nil => rfl
    | cons s rest =>
      have hpos := one_le_weight x.forest s
      rw [total_cons] at hm
      omega
  | succ m ih =>
    cases todo with
    | nil => rfl
    | cons s rest =>
      have hsplit : visits (s :: rest) = visits [s] ++ visits rest := visits_append [s] rest
      rw [hsplit, forall_mem_append] at hfits
      rw [steps, forM_cons, carryOut_eq hfits.1, bind_assoc]
      refine (step_unfolds hfits.1).bind_congr fun next ⟨hless, _, hnext⟩ => ?_
      rw [← forM_append]
      refine ih ?_ ?_
      · rw [visits_append, forall_mem_append]
        exact ⟨hnext, hfits.2⟩
      · rw [total_cons] at hm
        rw [total_append]
        omega

theorem forM_firstSteps (scope : NodeId) :
    forM (firstSteps x.forest scope) (carryOut x n) = evaluateScope x n scope := by
  unfold firstSteps evaluateScope takenAlong
  cases x.forest.kind scope <;> simp only [forM_map_visit, forM_map_bindSelf, forM_append, bind_assoc]

theorem evaluateScope_eq {scope : NodeId} (hfits : x.forest.Fits n scope) (hle : n ≤ m) :
    evaluateScope x m scope = evaluateScope x n scope := by
  rw [← forM_firstSteps, ← forM_firstSteps]
  refine forM_carryOut_congr fun c hc => ?_
  cases n with
  | zero => exact hfits.elim
  | succ n =>
    have hfits := hfits c (mem_visits_firstSteps hc)
    rw [evaluate_eq hfits (Nat.le_succ n), evaluate_eq hfits (Nat.le_of_succ_le hle)]

/-- On trees, the sweep of a scope is its evaluation. -/
theorem scope_eq_evaluateScope {scope : NodeId} (hfits : x.forest.Fits (x.forest.size + 1) scope) :
    Sweeping.scope x scope = evaluateScope x (x.forest.size + 1) scope := by
  rw [← forM_firstSteps, Sweeping.scope]
  exact steps_eq (fun c hc => (hfits c (mem_visits_firstSteps hc)).succ) (total_firstSteps_le hfits)

/-! ## Effects -/

/-- What a sweep asks for in a run, each time with the session that it finds. After an error nothing is asked. -/
def effects {α : Type} (types : NodeId → Inquiry TypeSet) : Sweeping α → Session → List (SweepQuestion × Session)
  | .done _, _ => []
  | .ask q next, s =>
    (q, s) :: match (Inquiry.answerSweep types q).run.perform s with
      | (.ok a, s') => effects types (next a) s'
      | (.error _, _) => []

/-- Variables after the changes among some effects. -/
def applied (v : Variables) (asked : List SweepQuestion) : Variables :=
  asked.foldl (fun v q => match q with
    | .change g => v.change g
    | _ => v) v

section Effects

open Session Inquiry

variable {limit : Nat} {stack : List NodeId} {sweeps : Sweeps} {s : Session} {w : Sweep}
  {types : NodeId → Inquiry TypeSet}
  (htypes : ∀ sweeps node, Keeps (Act.InOrder limit) (Rests limit stack sweeps) (types node))

include htypes

theorem answerSweep_applied (hs : Rests limit stack (w :: sweeps) s) (q : SweepQuestion) :
    Rests limit stack (⟨applied w.frame [q], w.depth⟩ :: sweeps) ((answerSweep types q).run.perform s).2 := by
  cases q with
  | types node => exact (htypes _ node).perform hs
  | isResolving node => exact hs
  | current => exact hs
  | change g => exact hs.modifyVariables g
  | read node name => exact hs.of_underway (underway_rememberRead s node name)

/-- An effect finds the variables as the changes before it left them. -/
theorem effects_rests {α : Type} (d : Sweeping α) (hs : Rests limit stack (w :: sweeps) s)
    {before after : List (SweepQuestion × Session)} {q : SweepQuestion} {t : Session}
    (h : effects types d s = before ++ (q, t) :: after) :
    Rests limit stack (⟨applied w.frame (before.map Prod.fst), w.depth⟩ :: sweeps) t := by
  induction d generalizing s w before with
  | done a => simp [effects] at h
  | ask asked next ih =>
    rw [effects] at h
    cases before with
    | nil =>
      obtain ⟨h, -⟩ := List.cons.inj h
      cases h
      exact hs
    | cons first before =>
      rw [cons_append, List.cons.injEq] at h
      obtain ⟨rfl, h⟩ := h
      have hnext := answerSweep_applied htypes hs asked
      rcases hr : (answerSweep types asked).run.perform s with ⟨r, s'⟩
      rw [hr] at h hnext
      cases r with
      | ok a => exact ih a hnext h
      | error e => simp at h

end Effects

end Sweeping

theorem Session.find?_rememberRead {s : Session} {v : Variables} (h : s.frame? = some v) (node : NodeId)
    (name : String) :
    (s.rememberRead node name).memo.find? node = some ((s.memo.find? node).getD (v.known name)) := by
  rw [rememberRead, h, rememberFirst, Sorted.contains_eq_isSome_find?]
  cases hm : s.memo.find? node with
  | some types => exact hm
  | none => exact Sorted.find?_insert_self ..

namespace Sweeping

open Session Inquiry

/-- **A sweep is evaluation order**: on trees, the sweep of a scope is its evaluation, and each read is remembered with
what the changes before it have made of the variables, unless it is remembered already. -/
theorem scope_evaluates_in_order {x : Index} {scope : NodeId} (hshape : x.forest.TreeShaped)
    (hscope : x.forest.Reachable scope) :
    (∃ n, ∀ m, n ≤ m → Sweeping.scope x scope = evaluateScope x m scope) ∧
      ∀ (limit room : Nat) (s : Session) (v : Variables), s.Bracketed limit → s.stack.length + room = limit →
        s.frame? = some v → ∀ before q t after,
          effects (resolveWithin x limit room) (Sweeping.scope x scope) s = before ++ (q, t) :: after →
            t.frame? = some (applied v (before.map Prod.fst)) ∧
            ∀ node name, q = .read node name → (t.rememberRead node name).memo.find? node =
              some ((t.memo.find? node).getD ((applied v (before.map Prod.fst)).known name)) := by
  have hfits := hshape.fits hscope
  constructor
  · refine ⟨x.forest.size + 1, fun m hm => ?_⟩
    rw [scope_eq_evaluateScope hfits, evaluateScope_eq hfits hm]
  · intro limit room s v hs hroom hframe before q t after heffects
    obtain ⟨w, hw, rfl⟩ := Option.map_eq_some_iff.mp hframe
    obtain ⟨sweeps, hsweeps⟩ := List.head?_eq_some_iff.mp hw
    have hrests := effects_rests (fun sweeps node => resolveWithin_rests x limit room node s.stack sweeps hroom)
      (Sweeping.scope x scope) ⟨hs, rfl, hsweeps⟩ heffects
    have hframe : t.frame? = some (applied w.frame (before.map Prod.fst)) := by
      rw [frame?, hrests.sweeps_eq]
      rfl
    exact ⟨hframe, fun node name _ => find?_rememberRead hframe node name⟩

/-- A variable that is assigned, shadowed by the parameter of an arrow function, and read:
`$i = 1; fn($i) => $i; $i`. -/
def shadowing : Forest where
  nodes := #[{ kind := .var "i", parent := some 2 }, { kind := .literal .int, parent := some 2 },
    { kind := .assign false, children := [0, 1], parent := some 7 },
    { kind := .parameter "i" false false none, parent := some 5 }, { kind := .var "i", parent := some 5 },
    { kind := .arrowFunction, children := [3, 4], parent := some 7 }, { kind := .var "i", parent := some 7 },
    { kind := .file, children := [2, 5, 6] }]
  files := [{ path := "a", root := 7 }]

/-- The sweep of the file was begun to resolve the last read. -/
def shadowingSession : Session where
  stack := [6]
  resolving := [6]
  sweeps := [⟨{ scope := 7 }, 1⟩]

/-- The last read is made, of an integer. -/
def readsInt (e : SweepQuestion × Session) : Bool :=
  match e.1 with
  | .read 6 "i" => (e.2.frame?.map fun v => (v.known "i").names) == some ["int"]
  | _ => false

theorem scope_evaluates_in_order_shadowing : let x : Index := { forest := shadowing }
    shadowing.TreeShaped ∧ shadowing.Reachable 7 ∧
    (∃ n, ∀ m, n ≤ m → Sweeping.scope x 7 = evaluateScope x m 7) ∧
    ∃ before t after,
      effects (resolveWithin x 8 7) (Sweeping.scope x 7) shadowingSession = before ++ (.read 6 "i", t) :: after ∧
      t.frame? = some (applied { scope := 7 } (before.map Prod.fst)) ∧
      ((applied { scope := 7 } (before.map Prod.fst)).known "i").names = ["int"] := by
  have hshape : shadowing.TreeShaped := Forest.treeShaped_iff.mpr ⟨by decide, by decide⟩
  have hscope : shadowing.Reachable 7 := ⟨0, [], rfl⟩
  obtain ⟨hevaluates, hreads⟩ := scope_evaluates_in_order (x := { forest := shadowing }) hshape hscope
  have hasks : ((effects (resolveWithin { forest := shadowing } 8 7) (Sweeping.scope { forest := shadowing } 7)
      shadowingSession).any readsInt) = true := by decide +kernel
  obtain ⟨⟨q, t⟩, hmem, hq⟩ := List.any_eq_true.mp hasks
  obtain ⟨before, after, hsplit⟩ := List.append_of_mem hmem
  unfold readsInt at hq
  split at hq
  · next heq =>
    obtain rfl : q = .read 6 "i" := heq
    have hs : shadowingSession.Bracketed 8 := ⟨by decide, by decide, rfl, ⟨by decide, by decide, by decide⟩, nofun⟩
    obtain ⟨hframe, -⟩ := hreads 8 7 shadowingSession { scope := 7 } hs rfl rfl before _ t after hsplit
    refine ⟨hshape, hscope, hevaluates, before, t, after, hsplit, hframe, ?_⟩
    rw [hframe] at hq
    simpa using hq
  · cases hq

/-- A place of an array as the target of an assignment, and inside of a list of targets. -/
def listTarget : Index :=
  Index.ofProgram "<?php\n$m = [];\n$i = 1;\n$m[$i] = 2;\n[$m[$i]] = [2];\n"

/-- What is inside of a list of targets is not evaluated: the same read is found in the one target and not in the
other. -/
theorem list_target_not_evaluated :
    listTarget.namesAfter? 512 [] 9 = some ["int"] ∧ listTarget.namesAfter? 512 [] 15 = some ["unknown<Variable>"] := by
  decide +kernel

end Sweeping

end EventAtlas
