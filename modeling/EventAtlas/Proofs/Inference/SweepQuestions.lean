import EventAtlas.Proofs.Inference.Questions

/-!
# What sweeps ask

A sweep asks for guarded nodes only: for the values that it binds, and for the sources of loops. So it asks for a node
only after a look at the stack, and not if the node is there (`Sweeping.scope_asks`).
-/

namespace EventAtlas.Sweeping

open List

open Strategy (guarded_assigned guarded_looped)

variable {α β : Type}

/-- The dialogue of a sweep asks for guarded nodes that are `absent` from the stack, and ends as `post` says. -/
def Asks (f : Forest) (post : α → Prop) : (absent : List NodeId) → Sweeping α → Prop
  | _, .done a => post a
  | absent, .ask (.types n) next => (f.Guarded n ∧ n ∈ absent) ∧ ∀ types, Asks f post absent (next types)
  | absent, .ask (.isResolving n) next => Asks f post absent (next true) ∧ Asks f post (n :: absent) (next false)
  | absent, .ask .current next => ∀ v, Asks f post absent (next v)
  | absent, .ask (.change _) next | absent, .ask (.read ..) next => Asks f post absent (next ())

variable {f : Forest} {post : α → Prop} {absent absent' : List NodeId}

theorem Asks.mono {d : Sweeping α} (h : d.Asks f post absent) (habsent : absent ⊆ absent') : d.Asks f post absent' := by
  induction d generalizing absent absent' with
  | done a => exact h
  | ask q next ih =>
    cases q with
    | types n => exact ⟨⟨h.1.1, habsent h.1.2⟩, fun types => ih types (h.2 types) habsent⟩
    | isResolving n => exact ⟨ih true h.1 habsent, ih false h.2 (cons_subset_cons n habsent)⟩
    | current => exact fun v => ih v (h v) habsent
    | change g => exact ih () h habsent
    | read n name => exact ih () h habsent

theorem Asks.bind {d : Sweeping α} {g : α → Sweeping β} {post' : β → Prop} (hd : d.Asks f post absent)
    (hg : ∀ a, post a → (g a).Asks f post' absent) : (d >>= g).Asks f post' absent := by
  induction d generalizing absent with
  | done a => exact hg a hd
  | ask q next ih =>
    cases q with
    | types n => exact ⟨hd.1, fun types => ih types (hd.2 types) hg⟩
    | isResolving n =>
      exact ⟨ih true hd.1 hg, ih false hd.2 fun a ha => (hg a ha).mono (subset_cons_self n absent)⟩
    | current => exact fun v => ih v (hd v) hg
    | change g => exact ih () hd hg
    | read n name => exact ih () hd hg

/-! ## Steps -/

/-- A step that binds the types of a node has them from a guarded one. -/
def Fits (f : Forest) : SweepStep → Prop
  | .bind _ (.node id) | .bind _ (.elementsOf id) => f.Guarded id
  | .bind _ (.types _) | .visit _ | .restore _ => True

theorem fits_map_visit (nodes : List NodeId) : ∀ s ∈ nodes.map SweepStep.visit, Fits f s := by
  intro s hs
  obtain ⟨n, -, rfl⟩ := mem_map.mp hs
  trivial

theorem fits_map_bindSelf {nodes : List NodeId} (h : ∀ n ∈ nodes, f.Guarded n) :
    ∀ s ∈ nodes.map bindSelf, Fits f s := by
  intro s hs
  obtain ⟨n, hn, rfl⟩ := mem_map.mp hs
  exact h n hn

theorem guarded_parameter {n p : NodeId} (h : n ∈ f.parameters p) : f.Guarded n := by
  left
  have hkind := (mem_filter.mp h).2
  unfold NodeKind.isParameter at hkind
  split at hkind
  · next hk => rw [hk]; rfl
  · cases hkind

theorem guarded_usedVariable {n p : NodeId} {isStatic : Bool} (hp : f.kind p = .closure isStatic)
    (h : n ∈ usedVariables f p) : f.Guarded n :=
  .inr ⟨p, by simpa [Forest.guardedChildren, hp, usedVariables] using h⟩

variable {target node : NodeId}

theorem assignSteps_fit {value : NodeId} (pending : Option TypeSet) (hguarded : f.Guarded value) :
    ∀ s ∈ assignSteps f target value pending, Fits f s := by
  have hvisit : Fits f (.visit value) := trivial
  have hbind : Fits f (.bind target ((pending.map BindSource.types).getD (.node value))) := by
    cases pending with
    | none => exact hguarded
    | some types => trivial
  have hpair : ∀ s ∈ [SweepStep.visit value,
      .bind target ((pending.map BindSource.types).getD (.node value))], Fits f s :=
    forall_mem_cons.mpr ⟨hvisit, forall_mem_singleton.mpr hbind⟩
  unfold assignSteps
  dsimp only
  split
  · exact hpair
  · exact hpair
  · exact hpair
  · rw [cons_append, forall_mem_cons, forall_mem_append, forall_mem_singleton]
    exact ⟨hvisit, fits_map_visit _, hbind⟩
  · exact forall_mem_cons.mpr ⟨hvisit, fits_map_visit _⟩

theorem foreachSteps_fit {hasKey : Bool} (hk : f.kind node = .foreach hasKey) :
    ∀ s ∈ foreachSteps f hasKey (f.children node), Fits f s := by
  have hguarded : ∀ n ∈ f.children node, f.Guarded n := fun n hn => guarded_looped hk hn
  cases hc : f.children node with
  | nil => exact fun s hs => nomatch hs
  | cons source rest =>
    rw [hc] at hguarded
    unfold foreachSteps
    dsimp only
    rw [cons_append, cons_append, forall_mem_cons, forall_mem_append, forall_mem_append]
    refine ⟨trivial, ⟨?_, ?_⟩, fits_map_visit _⟩
    · intro s hs
      obtain ⟨key, hkey, rfl⟩ := mem_map.mp hs
      have hmem : key ∈ rest := by
        split at hkey
        · exact take_subset 1 rest hkey
        · cases hkey
      exact hguarded key (mem_cons_of_mem source hmem)
    · intro s hs
      obtain ⟨v, hv, rfl⟩ := mem_map.mp hs
      have hmem : v ∈ rest := by
        split at hv
        · exact drop_subset 1 rest (take_subset 1 _ hv)
        · exact take_subset 1 rest hv
      split
      · exact hguarded source mem_cons_self
      · exact hguarded v (mem_cons_of_mem source hmem)

theorem catchSteps_fit (hk : f.kind node = .catchClause) :
    ∀ s ∈ (f.children node).filterMap (catchStep? f), Fits f s := by
  intro s hs
  obtain ⟨c, hc, hstep⟩ := mem_filterMap.mp hs
  unfold catchStep? at hstep
  split at hstep
  · next hvar =>
    cases hstep
    exact .inr ⟨node, by simp [Forest.guardedChildren, hk, Forest.childrenWhere, hc, hvar, isVariable]⟩
  · cases hstep
  · cases hstep
    trivial

theorem asks_takePending : (takePending f target).Asks f (fun _ => True) absent := by
  unfold takePending
  split
  · exact fun v => trivial
  · trivial

/-- What a visit asks, and the steps that come of it. -/
theorem visit_asks {x : Index} : (visit x node).Asks x.forest (fun steps => ∀ s ∈ steps, Fits x.forest s) absent := by
  unfold visit
  dsimp only
  cases hk : x.forest.kind node with
  | classDecl name m => exact nofun
  | interfaceDecl name => exact nofun
  | traitDecl name => exact nofun
  | method name m => exact nofun
  | function name => exact nofun
  | var name =>
    dsimp only
    split <;> exact nofun
  | assign byRef =>
    dsimp only
    split
    · next hc =>
      have hguarded := guarded_assigned hk (by rw [hc]; rfl)
      exact asks_takePending.bind fun pending _ => assignSteps_fit pending hguarded
    · exact fits_map_visit _
  | compoundAssign op =>
    refine forall_mem_append.mpr ⟨fits_map_visit _, ?_⟩
    intro s hs
    obtain ⟨target, -, rfl⟩ := mem_map.mp hs
    exact .inl (by rw [hk]; rfl)
  | foreach hasKey => exact foreachSteps_fit hk
  | catchClause => exact catchSteps_fit hk
  | staticVariable name =>
    refine forall_mem_append.mpr ⟨fits_map_visit _, forall_mem_singleton.mpr ?_⟩
    exact .inl (by rw [hk]; rfl)
  | closure isStatic => exact fits_map_visit _
  | arrowFunction =>
    refine fun v => forall_mem_append.mpr ⟨forall_mem_append.mpr ⟨?_, ?_⟩, forall_mem_singleton.mpr ?_⟩
    · exact fits_map_bindSelf fun n hn => guarded_parameter hn
    · exact fits_map_visit _
    · trivial
  | docComment text => exact nofun
  | _ => exact fits_map_visit _

theorem asks_sourceTypes? {source : BindSource} (h : Fits f (.bind target source)) :
    (sourceTypes? source).Asks f (fun _ => True) absent := by
  cases source with
  | node id => exact ⟨trivial, ⟨h, mem_cons_self⟩, fun _ => trivial⟩
  | elementsOf id => exact ⟨trivial, ⟨h, mem_cons_self⟩, fun _ => trivial⟩
  | types types => trivial

variable {x : Index}

theorem step_asks {s : SweepStep} (h : Fits x.forest s) :
    (step x s).Asks x.forest (fun steps => ∀ s ∈ steps, Fits x.forest s) absent := by
  cases s with
  | visit id => exact visit_asks
  | bind target source =>
    refine (asks_sourceTypes? h).bind fun types _ => ?_
    cases types with
    | none => exact nofun
    | some types => exact nofun
  | restore saved => exact nofun

theorem steps_asks {n : Nat} {todo : List SweepStep} (h : ∀ s ∈ todo, Fits x.forest s) :
    (steps x n todo).Asks x.forest (fun _ => True) absent := by
  induction n generalizing todo with
  | zero => trivial
  | succ n ih =>
    cases todo with
    | nil => trivial
    | cons s rest =>
      rw [forall_mem_cons] at h
      exact (step_asks h.1).bind fun next hn => ih (forall_mem_append.mpr ⟨hn, h.2⟩)

theorem firstSteps_fit (scope : NodeId) : ∀ s ∈ firstSteps f scope, Fits f s := by
  unfold firstSteps
  split
  · exact fits_map_visit _
  · dsimp only
    refine forall_mem_append.mpr ⟨forall_mem_append.mpr ⟨?_, ?_⟩, fits_map_visit _⟩
    · exact fits_map_bindSelf fun n hn => guarded_parameter hn
    · split
      · next hk => exact fits_map_bindSelf fun n hn => guarded_usedVariable hk hn
      · exact nofun

/-- What the sweep of a scope asks. -/
theorem scope_asks (scope : NodeId) : (Sweeping.scope x scope).Asks x.forest (fun _ => True) [] :=
  steps_asks (firstSteps_fit scope)

end EventAtlas.Sweeping
