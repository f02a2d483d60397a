import EventAtlas.Proofs.Inference.SweepSteps

/-!
# What a sweep visits

Which nodes are visited after a node does not depend on what is known when it is visited: it can be read off the forest
(`visited`, `visit_visits`). These are children, or children of the target of an assignment, so whatever passes down
in a forest passes on to what is visited next. A visit has the node itself remembered, if it is a variable, and no other
node.
-/

namespace EventAtlas

open List

/-! ## Laws of dialogues -/

namespace Dialogue

variable {Q : Type} [Questions Q] {α β : Type} {allowed : Q → Prop} {right : (q : Q) → Questions.Answer q → Prop}

theorem Gives.and {post post' : α → Prop} {d : Dialogue Q α} (h : d.Gives allowed right post)
    (h' : d.Gives allowed right post') : d.Gives allowed right fun a => post a ∧ post' a := by
  induction d with
  | done a => exact ⟨h, h'⟩
  | ask q next ih => exact ⟨h.1, fun a ha => ih a (h.2 a ha) (h'.2 a ha)⟩

theorem Gives.imp {allowed' : Q → Prop} {post post' : α → Prop} {d : Dialogue Q α} (h : d.Gives allowed right post)
    (hallowed : ∀ q, allowed q → allowed' q) (hpost : ∀ a, post a → post' a) : d.Gives allowed' right post' := by
  induction d with
  | done a => exact hpost a h
  | ask q next ih => exact ⟨hallowed q h.1, fun a ha => ih a (h.2 a ha)⟩

/-- What follows a dialogue matters only for the results that it can end with. -/
theorem Ends.bind_congr {post : α → Prop} {d : Dialogue Q α} {g k : α → Dialogue Q β} (h : d.Ends post)
    (heq : ∀ a, post a → g a = k a) : d >>= g = d >>= k := by
  induction d with
  | done a => exact heq a h
  | ask q next ih => exact congrArg (ask q) (funext fun a => ih a (h.2 a trivial))

end Dialogue

namespace Sweeping

open Forest

variable {f : Forest} {x : Index} {node c : NodeId} {n : Nat}

/-! ## The nodes that steps visit -/

/-- The node that a step visits. -/
def visitOf? : SweepStep → Option NodeId
  | .visit id => some id
  | _ => none

/-- The nodes that steps visit. -/
def visits (todo : List SweepStep) : List NodeId :=
  todo.filterMap visitOf?

@[simp] theorem visits_nil : visits [] = [] := rfl

@[simp] theorem visits_cons_visit (id : NodeId) (todo : List SweepStep) :
    visits (.visit id :: todo) = id :: visits todo := rfl

@[simp] theorem visits_cons_bind (target : NodeId) (source : BindSource) (todo : List SweepStep) :
    visits (.bind target source :: todo) = visits todo := rfl

@[simp] theorem visits_cons_restore (saved : List (String × Option TypeSet)) (todo : List SweepStep) :
    visits (.restore saved :: todo) = visits todo := rfl

@[simp] theorem visits_append (a b : List SweepStep) : visits (a ++ b) = visits a ++ visits b :=
  filterMap_append

@[simp] theorem visits_map_visit (l : List NodeId) : visits (l.map .visit) = l := by
  induction l with
  | nil => rfl
  | cons id rest ih => rw [map_cons, visits_cons_visit, ih]

@[simp] theorem visits_map_bind (l : List NodeId) (source : NodeId → BindSource) :
    visits (l.map fun id => .bind id (source id)) = [] := by
  induction l with
  | nil => rfl
  | cons id rest ih => rw [map_cons, visits_cons_bind, ih]

@[simp] theorem visits_map_bindSelf (l : List NodeId) : visits (l.map bindSelf) = [] :=
  visits_map_bind l .node

/-! ## The nodes that come after a node -/

/-- What is visited inside of the target of an assignment. -/
def insideTarget (f : Forest) (target : NodeId) : List NodeId :=
  if isVariable (f.kind target) || isList (f.kind target) then [] else f.children target

theorem insideTarget_subset (f : Forest) (target : NodeId) : insideTarget f target ⊆ f.children target := by
  unfold insideTarget
  split
  · exact nil_subset _
  · exact List.Subset.refl _

/-- A part of a clause that catches and is neither bound nor a name. -/
def isCaughtPart : NodeKind → Bool
  | .var _ | .name .. => false
  | _ => true

/-- The nodes that are visited next after a node. -/
def visited (f : Forest) (node : NodeId) : List NodeId :=
  match f.kind node with
  | .classDecl .. | .interfaceDecl _ | .traitDecl _ | .method .. | .function _ | .var _ | .docComment _ => []
  | .assign _ =>
    match f.children node with
    | target :: value :: _ => value :: insideTarget f target
    | children => children
  | .foreach hasKey =>
    match f.children node with
    | [] => []
    | source :: rest => source :: (rest.drop (if hasKey then 2 else 1)).take 1
  | .catchClause => f.childrenWhere node isCaughtPart
  | .closure _ => usedVariables f node
  | .arrowFunction => (f.body? node).toList
  | _ => f.children node

theorem visits_assignSteps (f : Forest) (target value : NodeId) (pending : Option TypeSet) :
    visits (assignSteps f target value pending) = value :: insideTarget f target := by
  unfold assignSteps insideTarget
  cases f.kind target <;> simp [isVariable, isList]

theorem visits_foreachSteps (f : Forest) (hasKey : Bool) (source : NodeId) (rest : List NodeId) :
    visits (foreachSteps f hasKey (source :: rest)) = source :: (rest.drop (if hasKey then 2 else 1)).take 1 := by
  unfold foreachSteps
  dsimp only
  rw [cons_append, cons_append, visits_cons_visit, visits_append, visits_append, visits_map_bind,
    visits_map_bind, visits_map_visit, nil_append, nil_append]
  cases hasKey with
  | false => rfl
  | true =>
    rw [if_pos rfl, drop_drop]
    rfl

theorem visits_catchSteps (f : Forest) (children : List NodeId) :
    visits (children.filterMap (catchStep? f)) = children.filter fun c => isCaughtPart (f.kind c) := by
  have hpart : ∀ c, (catchStep? f c).bind visitOf? = Option.guard (fun c => isCaughtPart (f.kind c)) c := by
    intro c
    cases hk : f.kind c <;> simp [catchStep?, Option.guard, hk, isCaughtPart, visitOf?]
  rw [visits, filterMap_filterMap, ← filterMap_eq_filter]
  exact congrArg (List.filterMap · children) (funext hpart)

/-- A question that has a node remembered is about a variable that is visited, and not about the object itself. -/
def ReadsVisited (f : Forest) (s : SweepStep) : SweepQuestion → Prop
  | .read node name => s = .visit node ∧ f.kind node = .var name ∧ name ≠ "this"
  | _ => True

/-- Whatever a visit is told, it goes on to the same nodes. -/
theorem visit_visits (x : Index) (node : NodeId) :
    (visit x node).Gives (ReadsVisited x.forest (.visit node)) (fun _ _ => True)
      fun next => visits next = visited x.forest node := by
  unfold visit visited
  dsimp only
  cases hk : x.forest.kind node with
  | var name =>
    dsimp only
    split
    · next hname => exact ⟨⟨rfl, hk, bne_iff_ne.mp hname⟩, fun _ _ => rfl⟩
    · rfl
  | assign byRef =>
    dsimp only
    match x.forest.children node with
    | [] | [_] => rfl
    | target :: value :: _ =>
      dsimp only
      unfold takePending
      split
      · exact ⟨trivial, fun _ _ => ⟨trivial, fun _ _ => visits_assignSteps ..⟩⟩
      · exact visits_assignSteps ..
  | foreach hasKey =>
    change visits _ = _
    cases x.forest.children node with
    | nil => rfl
    | cons source rest => exact visits_foreachSteps ..
  | catchClause => exact visits_catchSteps ..
  | compoundAssign op =>
    change visits _ = _
    rw [visits_append, visits_map_visit, visits_map_bind _ fun _ => .node node, append_nil]
  | staticVariable name =>
    change visits _ = _
    simp [bindSelf]
  | closure isStatic => exact visits_map_visit _
  | arrowFunction =>
    refine ⟨trivial, fun v _ => ?_⟩
    change visits _ = _
    simp
  | docComment text => exact ⟨trivial, fun _ _ => rfl⟩
  | classDecl | interfaceDecl | traitDecl | method | function => rfl
  | _ => exact visits_map_visit _

theorem sourceTypes?_allows (source : BindSource) {allowed : SweepQuestion → Prop}
    (h : ∀ id, allowed (.isResolving id) ∧ allowed (.types id)) :
    (sourceTypes? source).Gives allowed (fun _ _ => True) fun _ => True := by
  cases source with
  | node id =>
    refine ⟨(h id).1, fun busy _ => ?_⟩
    cases busy with
    | true => trivial
    | false => exact ⟨(h id).2, fun _ _ => trivial⟩
  | elementsOf id =>
    refine ⟨(h id).1, fun busy _ => ?_⟩
    cases busy with
    | true => trivial
    | false => exact ⟨(h id).2, fun _ _ => trivial⟩
  | types types => trivial

theorem step_visits (x : Index) (s : SweepStep) :
    (step x s).Gives (ReadsVisited x.forest s) (fun _ _ => True)
      fun next => visits next = (visits [s]).flatMap (visited x.forest) := by
  cases s with
  | visit id => exact (visit_visits x id).imp (fun _ h => h) fun next h => h.trans (flatMap_singleton ..).symm
  | bind target source =>
    refine (sourceTypes?_allows source fun _ => ⟨trivial, trivial⟩).bind fun types _ => ?_
    cases types with
    | some types => exact ⟨trivial, fun _ _ => rfl⟩
    | none => rfl
  | restore saved => exact ⟨trivial, fun _ _ => rfl⟩

theorem visits_firstSteps (f : Forest) (scope : NodeId) :
    visits (firstSteps f scope) =
      if f.kind scope = .file then f.children scope else (f.body? scope).toList := by
  unfold firstSteps
  cases f.kind scope <;> simp

/-- A sweep begins with children of its scope. -/
theorem mem_visits_firstSteps {scope : NodeId} (h : c ∈ visits (firstSteps f scope)) : c ∈ f.children scope := by
  rw [visits_firstSteps] at h
  split at h
  · exact h
  · exact body?_mem_children (Option.mem_toList.mp h)

/-- A node that is visited next is a child, or it is inside of the target of an assignment. -/
theorem mem_visited (h : c ∈ visited f node) : c ∈ f.children node ∨
    ∃ byRef target value rest, f.kind node = .assign byRef ∧ f.children node = target :: value :: rest ∧
      c ∈ insideTarget f target := by
  unfold visited at h
  cases hk : f.kind node with
  | classDecl | interfaceDecl | traitDecl | method | function | var | docComment =>
    rw [hk] at h
    cases h
  | assign byRef =>
    rw [hk] at h
    dsimp only at h
    split at h
    · next target value rest hc =>
      obtain rfl | h := mem_cons.mp h
      · exact .inl (by simp [hc])
      · exact .inr ⟨byRef, target, value, rest, rfl, hc, h⟩
    · exact .inl h
  | foreach hasKey =>
    rw [hk] at h
    dsimp only at h
    split at h
    · cases h
    · next source rest hc =>
      rw [hc]
      obtain rfl | h := mem_cons.mp h
      · simp
      · exact .inl (mem_cons_of_mem _ (mem_of_mem_drop (mem_of_mem_take h)))
  | catchClause | closure =>
    rw [hk] at h
    exact .inl (mem_of_mem_filter h)
  | arrowFunction =>
    rw [hk] at h
    exact .inl (body?_mem_children (Option.mem_toList.mp h))
  | _ =>
    rw [hk] at h
    exact .inl h

/-- The walk below a node that is visited next ends as that below the node does. -/
theorem visited_fits (h : f.Fits (n + 1) node) (hc : c ∈ visited f node) : f.Fits n c := by
  obtain hc | ⟨-, target, value, rest, -, hchildren, hc⟩ := mem_visited hc
  · exact h c hc
  · have htarget : target ∈ f.children node := by simp [hchildren]
    cases n with
    | zero => exact (h target htarget).elim
    | succ n => exact (h target htarget c (insideTarget_subset f target hc)).succ

/-- The steps that come of a step weigh less, and walks below what they visit end. -/
theorem step_unfolds {s : SweepStep} (hfits : ∀ id ∈ visits [s], x.forest.Fits (x.forest.size + 1) id) :
    (step x s).Ends fun next => total x.forest next < weight x.forest s ∧
      visits next = (visits [s]).flatMap (visited x.forest) ∧
      ∀ c ∈ visits next, x.forest.Fits (x.forest.size + 1) c := by
  have hvisits : (step x s).Ends fun next => visits next = (visits [s]).flatMap (visited x.forest) :=
    (step_visits x s).imp (fun _ _ => trivial) fun _ h => h
  refine (step_ends fun id hs => hfits id (by simp [hs])).and (hvisits.imp (fun _ h => h) fun next hnext => ⟨hnext, ?_⟩)
  intro c hc
  rw [hnext] at hc
  obtain ⟨id, hid, hc⟩ := mem_flatMap.mp hc
  exact (visited_fits (hfits id hid) hc).succ

/-! ## What sweeps read -/

/-- What holds of the nodes that are visited first and passes on to what is visited next holds of all that is read. -/
theorem steps_read {P : NodeId → Prop} (hnext : ∀ id, P id → ∀ c ∈ visited x.forest id, P c) (m : Nat)
    {todo : List SweepStep} (h : ∀ id ∈ visits todo, P id) :
    (steps x m todo).Gives (fun q => ∀ node name, q = .read node name →
      P node ∧ x.forest.kind node = .var name ∧ name ≠ "this") (fun _ _ => True) fun _ => True := by
  induction m generalizing todo with
  | zero => trivial
  | succ m ih =>
    cases todo with
    | nil => trivial
    | cons s rest =>
      have hsplit : visits (s :: rest) = visits [s] ++ visits rest := visits_append [s] rest
      rw [hsplit, forall_mem_append] at h
      refine ((step_visits x s).imp (fun q hq => ?_) fun _ h => h).bind fun next hvisits => ih ?_
      · rintro node name rfl
        obtain ⟨rfl, hkind⟩ := hq
        exact ⟨h.1 node mem_cons_self, hkind⟩
      · rw [visits_append, forall_mem_append]
        refine ⟨fun c hc => ?_, h.2⟩
        rw [hvisits] at hc
        obtain ⟨id, hid, hc⟩ := mem_flatMap.mp hc
        exact hnext id (h.1 id hid) c hc

end Sweeping

end EventAtlas
