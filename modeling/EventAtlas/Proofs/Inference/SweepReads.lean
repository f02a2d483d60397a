import EventAtlas.Proofs.Inference.Confinement
import EventAtlas.Proofs.Inference.SweepScopes

/-!
# What a sweep has remembered

A sweep comes to the body of its scope, apart from what it passes over: the members of classes, a variable or a list
that is assigned to, the targets of loops, what a clause catches, and the parameters of arrow functions
(`passesOver`). Whatever else reads a variable of the scope is due. The sweep comes to all that is due
(`Due.visitsTo`), so it asks for it whatever it is told (`scope_always`), and to nothing else (`scope_asks_due`).
Sessions only grow, so what is due in a scope is remembered once its sweep is finished (`Session.SweptRead`).

A read inside of what is passed over is lost: it is asked for by no sweep and has no types.
-/

namespace EventAtlas

open List Forest Strategy

namespace Forest

variable {f : Forest} {a b c n : NodeId}

/-- Below files, a node is a child of one node only. -/
theorem Linked.eq_of_mem_children (h : f.Linked) (ha : a ∈ f.reached) (hb : b ∈ f.reached) (hca : c ∈ f.children a)
    (hcb : c ∈ f.children b) : a = b :=
  Option.some.inj ((h.parent_child a ha c hca).symm.trans (h.parent_child b hb c hcb))

/-- What is below a node is the node or a child of something below it. -/
theorem Linked.exists_parent_below (h : f.Linked) (ha : a ∈ f.reached) (hn : n ∈ f.descendants a) (hne : n ≠ a) :
    ∃ p ∈ f.descendants a, n ∈ f.children p := by
  rw [h.descendants_eq ha] at hn
  exact exists_parent_of_mem_below ((mem_cons.mp hn).resolve_left hne)

/-- The scope of what is inside of a scope is the scope or inside of it. -/
theorem Linked.variableScope?_inside (h : f.Linked) (ha : a ∈ f.reached) (howns : ownsVariables (f.kind a) = true)
    (hn : n ∈ f.descendants a) (hne : n ≠ a) : ∃ t ∈ f.descendants a, f.variableScope? n = some t := by
  have hall : n ∈ f.descendants a ∧ (n = a ∨ ∃ t ∈ f.descendants a, f.variableScope? n = some t) := by
    refine descend_induction ⟨self_mem_descend .., .inl rfl⟩ ?_ hn
    intro b ⟨hb, hscope⟩ c hc
    refine ⟨(h.fits ha).mem_descend_of_mem_children hb hc, .inr ?_⟩
    rw [variableScope?, h.enclosing?_child (h.descendants_reached ha hb) hc]
    split
    · exact ⟨b, hb, rfl⟩
    · next hnot =>
      obtain rfl | hscope := hscope
      · exact absurd howns hnot
      · exact hscope
  exact hall.2.resolve_left hne

end Forest

namespace Sweeping

variable {f : Forest} {x : Index} {a c n scope : NodeId} {name : String} {k m : Nat}

/-! ## What is passed over -/

/-- The sweep does not go from a node to this child of it. -/
def passesOver (f : Forest) (a c : NodeId) : Bool :=
  match f.kind a with
  | .classDecl .. | .interfaceDecl _ | .traitDecl _ | .var _ | .docComment _ => true
  | .assign _ =>
    match f.children a with
    | target :: value :: _ => c != value && (c != target || isVariable (f.kind target) || isList (f.kind target))
    | _ => false
  | .foreach hasKey =>
    match f.children a with
    | source :: rest => c != source && (rest.drop (if hasKey then 2 else 1)).head? != some c
    | [] => false
  | .catchClause => !isCaughtPart (f.kind c)
  | .arrowFunction => f.body? a != some c
  | _ => false

/-- What is swept of a scope: the file, or the body of a function. -/
def bodyOf (f : Forest) (scope : NodeId) : List NodeId :=
  if f.kind scope = .file then f.children scope else (f.body? scope).toList

/-- A node in the body of a scope, in no part of it that is passed over. -/
@[mk_iff] structure Accessible (f : Forest) (scope n : NodeId) : Prop where
  in_body : ∃ c ∈ bodyOf f scope, n ∈ f.descendants c
  not_passed : ∀ a ∈ f.descendants scope, ∀ c ∈ f.children a, n ∈ f.descendants c → passesOver f a c = false

/-- A variable that is read in a scope and accessible there. -/
@[mk_iff] structure Due (f : Forest) (scope n : NodeId) (name : String) : Prop extends Accessible f scope n where
  kind_eq : f.kind n = .var name
  not_this : name ≠ "this"
  reads : readingScope? f n = some scope

instance : Decidable (Accessible f scope n) :=
  decidable_of_iff _ (accessible_iff ..).symm

instance : Decidable (Due f scope n name) :=
  decidable_of_iff _ (due_iff ..).symm

/-- The sweep goes on from a node to another one. -/
abbrev VisitsTo (f : Forest) : NodeId → NodeId → Prop :=
  Relation.ReflTransGen fun a c => c ∈ visited f a

/-- Nothing that is read in a scope is inside of another scope in it, apart from what closures take along. -/
theorem mem_children_of_owns (hlink : f.Linked) (ha : a ∈ f.reached) (hout : scope ∉ f.descendants a)
    (howns : ownsVariables (f.kind a) = true) (hn : n ∈ f.descendants a) (hne : n ≠ a)
    (hreads : readingScope? f n = some scope) : (∃ isStatic, f.kind a = .closure isStatic) ∧ n ∈ f.children a := by
  have hnot : ∀ {b}, b ∈ f.descendants a → b ≠ a → f.variableScope? b ≠ some scope := by
    intro b hb hba heq
    obtain ⟨t, ht, hb⟩ := hlink.variableScope?_inside ha howns hb hba
    obtain rfl := Option.some.inj (hb.symm.trans heq)
    exact hout ht
  obtain ⟨p, hp, hchild⟩ := hlink.exists_parent_below ha hn hne
  rw [readingScope?_child hlink (hlink.descendants_reached ha hp) hchild] at hreads
  cases hk : f.kind p with
  | closure isStatic =>
    rw [hk] at hreads
    by_cases hpa : p = a
    · subst hpa
      exact ⟨⟨isStatic, hk⟩, hchild⟩
    · exact absurd hreads (hnot hp hpa)
  | _ =>
    rw [hk] at hreads
    exact absurd hreads (hnot hn hne)

/-- Whatever of a node is not passed over is visited, or it is a place that is assigned to and what is inside of it is
visited. -/
theorem mem_visited_of_not_passed (howns : ownsVariables (f.kind a) = false) (hc : c ∈ f.children a)
    (h : passesOver f a c = false) :
    c ∈ visited f a ∨ isVariable (f.kind c) = false ∧ f.children c ⊆ visited f a := by
  unfold passesOver at h
  unfold visited
  cases hk : f.kind a with
  | classDecl | interfaceDecl | traitDecl | var | docComment =>
    rw [hk] at h
    cases h
  | method | function | closure =>
    rw [hk] at howns
    cases howns
  | assign byRef =>
    rw [hk] at h
    dsimp only at h ⊢
    rcases hchildren : f.children a with _ | ⟨target, _ | ⟨value, rest⟩⟩ <;> rw [hchildren] at h hc
    · cases hc
    · exact .inl hc
    · by_cases hvalue : c = value
      · exact .inl (hvalue ▸ mem_cons_self)
      · simp only [Bool.and_eq_false_iff, Bool.or_eq_false_iff, bne_eq_false_iff_eq, hvalue, false_or] at h
        obtain ⟨⟨rfl, hvar⟩, hlist⟩ := h
        refine .inr ⟨hvar, ?_⟩
        dsimp only
        rw [insideTarget, hvar, hlist]
        exact subset_cons_self ..
  | foreach hasKey =>
    rw [hk] at h
    dsimp only at h ⊢
    rcases hchildren : f.children a with _ | ⟨source, rest⟩ <;> rw [hchildren] at h hc
    · cases hc
    · simp only [Bool.and_eq_false_iff, bne_eq_false_iff_eq] at h
      dsimp only
      rw [take_one]
      obtain rfl | h := h
      · exact .inl mem_cons_self
      · exact .inl (mem_cons_of_mem _ (Option.mem_toList.mpr h))
  | catchClause =>
    rw [hk] at h
    exact .inl (mem_filter.mpr ⟨hc, by simpa using h⟩)
  | arrowFunction =>
    rw [hk] at h
    exact .inl (Option.mem_toList.mpr (bne_eq_false_iff_eq.mp h))
  | _ => exact .inl hc

/-- From a node below the scope, the sweep comes nearer to what is due. -/
theorem Due.exists_visited (h : Due f scope n name) (hlink : f.Linked) (hscope : scope ∈ f.reached)
    (ha : a ∈ f.descendants scope) (hout : scope ∉ f.descendants a) (hn : n ∈ f.descendants a) (hne : n ≠ a) :
    ∃ d ∈ visited f a, n ∈ f.descendants d := by
  have hreached := hlink.descendants_reached hscope ha
  have hvar : isVariable (f.kind n) = true := by rw [h.kind_eq]; rfl
  cases howns : ownsVariables (f.kind a) with
  | true =>
    obtain ⟨⟨isStatic, hk⟩, hchild⟩ := mem_children_of_owns hlink hreached hout howns hn hne h.reads
    refine ⟨n, ?_, self_mem_descend ..⟩
    rw [visited, hk]
    exact mem_filter.mpr ⟨hchild, hvar⟩
  | false =>
    rw [hlink.descendants_eq hreached] at hn
    obtain ⟨c, hc, hn⟩ := mem_flatMap.mp ((mem_cons.mp hn).resolve_left hne)
    obtain hc' | ⟨hnovar, hinside⟩ := mem_visited_of_not_passed howns hc (h.not_passed a ha c hc hn)
    · exact ⟨c, hc', hn⟩
    · rw [hlink.descendants_eq (hlink.children_reached hreached hc)] at hn
      obtain rfl | hn := mem_cons.mp hn
      · cases hnovar.symm.trans hvar
      · obtain ⟨d, hd, hn⟩ := mem_flatMap.mp hn
        exact ⟨d, hinside hd, hn⟩

/-- What is visited next after a node below the scope is below the scope too. -/
theorem visited_below (hlink : f.Linked) (hscope : scope ∈ f.reached) (ha : a ∈ f.descendants scope)
    (hc : c ∈ visited f a) : c ∈ f.descendants scope ∧ scope ∉ f.descendants c := by
  have hfits := hlink.fits hscope
  obtain hc | ⟨-, target, value, rest, -, hchildren, hc⟩ := mem_visited hc
  · exact ⟨hfits.mem_descend_of_mem_children ha hc, hlink.not_mem_descendants_child hscope ha hc⟩
  · have htarget : target ∈ f.descendants scope := hfits.mem_descend_of_mem_children ha (by simp [hchildren])
    have hc := insideTarget_subset f target hc
    exact ⟨hfits.mem_descend_of_mem_children htarget hc, hlink.not_mem_descendants_child hscope htarget hc⟩

/-- From above what is due, the sweep comes to it. -/
theorem Due.visitsTo (h : Due f scope n name) (hlink : f.Linked) (hscope : scope ∈ f.reached) (hfits : f.Fits k a)
    (ha : a ∈ f.descendants scope) (hout : scope ∉ f.descendants a) (hn : n ∈ f.descendants a) : VisitsTo f a n := by
  -- On the depth of the walk below the node, which is less below whatever is visited next.
  induction k generalizing a with
  | zero => exact hfits.elim
  | succ k ih =>
    by_cases hne : n = a
    · exact hne ▸ .refl
    · obtain ⟨d, hd, hn⟩ := h.exists_visited hlink hscope ha hout hn hne
      obtain ⟨hd', hout⟩ := visited_below hlink hscope ha hd
      exact .head hd (ih (visited_fits hfits hd) hd' hout hn)

/-- The sweep of a scope comes to what is due in it. -/
theorem Due.exists_visitsTo (h : Due f scope n name) (hlink : f.Linked) (hscope : scope ∈ f.reached) :
    ∃ a ∈ visits (firstSteps f scope), VisitsTo f a n := by
  obtain ⟨a, ha, hn⟩ := h.in_body
  rw [bodyOf, ← visits_firstSteps] at ha
  have hchild := mem_visits_firstSteps ha
  have hself : scope ∈ f.descendants scope := self_mem_descend ..
  exact ⟨a, ha, h.visitsTo hlink hscope (hlink.fits (hlink.children_reached hscope hchild))
    ((hlink.fits hscope).mem_descend_of_mem_children hself hchild)
    (hlink.not_mem_descendants_child hscope hself hchild) hn⟩

end Sweeping

/-! ## What is always asked -/

namespace Dialogue

variable {Q : Type} [Questions Q] {α β : Type} {q : Q} {d : Dialogue Q α} {g : α → Dialogue Q β}

/-- Whatever the answers are, the dialogue asks this question. -/
def Always (q : Q) : Dialogue Q α → Prop
  | done _ => False
  | ask r next => r = q ∨ ∀ a, (next a).Always q

theorem Always.bind (h : d.Always q) : (d >>= g).Always q := by
  induction d with
  | done a => exact h.elim
  | ask r next ih => exact h.imp id fun h a => ih a (h a)

theorem Ends.bind_always {post : α → Prop} (h : d.Ends post) (hg : ∀ a, post a → (g a).Always q) :
    (d >>= g).Always q := by
  induction d with
  | done a => exact hg a h
  | ask r next ih => exact .inr fun a => ih a (h.2 a trivial)

end Dialogue

namespace Sweeping

variable {x : Index} {n scope : NodeId} {name : String}

theorem visit_always (hk : x.forest.kind n = .var name) (hname : name ≠ "this") :
    (visit x n).Always (.read n name) := by
  unfold visit
  dsimp only
  rw [hk]
  dsimp only
  rw [if_pos (bne_iff_ne.mpr hname)]
  exact .inl rfl

/-- The steps of a sweep come to all that what they visit leads to. -/
theorem steps_always (hk : x.forest.kind n = .var name) (hname : name ≠ "this") {m : Nat} {todo : List SweepStep}
    (hfits : ∀ id ∈ visits todo, x.forest.Fits (x.forest.size + 1) id) (hle : total x.forest todo ≤ m)
    (hlead : ∃ a ∈ visits todo, VisitsTo x.forest a n) : (steps x m todo).Always (.read n name) := by
  obtain ⟨a, ha, hlead⟩ := hlead
  induction m generalizing todo a with
  | zero =>
    cases todo with
    | nil => cases ha
    | cons s rest =>
      have := one_le_weight x.forest s
      rw [total_cons] at hle
      omega
  | succ m ih =>
    cases todo with
    | nil => cases ha
    | cons s rest =>
      have hsplit : visits (s :: rest) = visits [s] ++ visits rest := visits_append [s] rest
      rw [hsplit] at ha hfits
      rw [forall_mem_append] at hfits
      rw [total_cons] at hle
      -- What is to be visited after the step still leads to the read, and it weighs less.
      have hnext : (∃ c ∈ (visits [s]).flatMap (visited x.forest) ++ visits rest, VisitsTo x.forest c n) →
          (steps x (m + 1) (s :: rest)).Always (.read n name) := by
        rintro ⟨c, hc, hlead⟩
        refine (step_unfolds hfits.1).bind_always fun next h => ?_
        obtain ⟨hlt, hvisits, hfits'⟩ := h
        refine ih ?_ ?_ c ?_ hlead
        · rw [visits_append, forall_mem_append]
          exact ⟨hfits', hfits.2⟩
        · rw [total_append]
          omega
        · rwa [visits_append, hvisits]
      obtain ha | ha := mem_append.mp ha
      · obtain rfl | ⟨c, hc, hlead⟩ := hlead.cases_head
        · cases s with
          | visit id =>
            obtain rfl := mem_singleton.mp ha
            exact (visit_always hk hname).bind
          | bind | restore => cases ha
        · exact hnext ⟨c, mem_append_left _ (mem_flatMap.mpr ⟨a, ha, hc⟩), hlead⟩
      · exact hnext ⟨a, mem_append_right _ ha, hlead⟩

/-- The sweep of a scope asks for all that is due, whatever it is told. -/
theorem scope_always (hlink : x.forest.Linked) (hscope : scope ∈ x.forest.reached)
    (h : Due x.forest scope n name) : (Sweeping.scope x scope).Always (.read n name) := by
  have hfits := hlink.fits hscope
  exact steps_always h.kind_eq h.not_this (fun c hc => (hfits c (mem_visits_firstSteps hc)).succ)
    (total_firstSteps_le hfits) (h.exists_visitsTo hlink hscope)

/-! ## What is asked at all -/

/-- What is visited inside of the target of an assignment would be visited if the target were. -/
def plainTarget (f : Forest) (id : NodeId) : Bool :=
  match f.kind id, f.children id with
  | .assign _, target :: _ :: _ => (insideTarget f target).all fun c => !passesOver f target c
  | _, _ => true

/-- What is visited is not passed over. -/
theorem not_passed_of_mem_visited {f : Forest} {a c : NodeId} (hlink : f.Linked) (ha : a ∈ f.reached)
    (hc : c ∈ f.children a) (h : c ∈ visited f a) : passesOver f a c = false := by
  unfold visited at h
  unfold passesOver
  cases hk : f.kind a with
  | classDecl | interfaceDecl | traitDecl | var | docComment =>
    rw [hk] at h
    cases h
  | assign byRef =>
    rw [hk] at h
    dsimp only at h ⊢
    match hchildren : f.children a with
    | [] | [_] => rfl
    | target :: value :: rest =>
      rw [hchildren] at h
      obtain rfl | h := mem_cons.mp h
      · simp
      · -- What is inside of the target is no child of the assignment.
        have htarget : target ∈ f.children a := by simp [hchildren]
        have hinside := insideTarget_subset f target h
        obtain rfl := hlink.eq_of_mem_children (hlink.children_reached ha htarget) ha hinside hc
        exact absurd (self_mem_descend ..)
          (hlink.not_mem_descendants_child ha (self_mem_descend ..) htarget)
  | foreach hasKey =>
    rw [hk] at h
    dsimp only at h ⊢
    match hchildren : f.children a with
    | [] => rfl
    | source :: rest =>
      rw [hchildren] at h
      dsimp only at h ⊢
      rw [take_one] at h
      obtain rfl | h := mem_cons.mp h
      · simp
      · simp [Option.mem_toList.mp h]
  | catchClause =>
    rw [hk] at h
    simpa using (mem_filter.mp h).2
  | arrowFunction =>
    rw [hk] at h
    exact bne_eq_false_iff_eq.mpr (Option.mem_toList.mp h)
  | _ => rfl

variable {f : Forest} {a c : NodeId}

theorem bodyOf_subset (f : Forest) (scope : NodeId) : bodyOf f scope ⊆ f.children scope := by
  intro c hc
  rw [bodyOf, ← visits_firstSteps] at hc
  exact mem_visits_firstSteps hc

theorem Accessible.below (h : Accessible f scope n) (hlink : f.Linked) (hscope : scope ∈ f.reached) :
    n ∈ f.descendants scope := by
  obtain ⟨c, hc, hn⟩ := h.in_body
  rw [hlink.descendants_eq hscope]
  exact mem_cons_of_mem _ (mem_flatMap.mpr ⟨c, bodyOf_subset f scope hc, hn⟩)

/-- If nothing above a node is passed over and the node does not pass over its child, nothing above the child is. -/
theorem not_passed_child (hlink : f.Linked) (hscope : scope ∈ f.reached) (hn : n ∈ f.descendants scope)
    (h : ∀ a ∈ f.descendants scope, ∀ b ∈ f.children a, n ∈ f.descendants b → passesOver f a b = false)
    (hc : c ∈ f.children n) (hpassed : passesOver f n c = false) :
    ∀ a ∈ f.descendants scope, ∀ b ∈ f.children a, c ∈ f.descendants b → passesOver f a b = false := by
  have hreached := hlink.descendants_reached hscope hn
  intro a ha b hb hbelow
  have hareached := hlink.descendants_reached hscope ha
  have hbreached := hlink.children_reached hareached hb
  by_cases heq : c = b
  · subst heq
    obtain rfl := hlink.eq_of_mem_children hreached hareached hc hb
    exact hpassed
  · obtain ⟨q, hq, hchild⟩ := hlink.exists_parent_below hbreached hbelow heq
    obtain rfl := hlink.eq_of_mem_children hreached (hlink.descendants_reached hbreached hq) hc hchild
    exact h a ha b hb hq

theorem Accessible.child (h : Accessible f scope n) (hlink : f.Linked) (hscope : scope ∈ f.reached)
    (hc : c ∈ f.children n) (hpassed : passesOver f n c = false) : Accessible f scope c := by
  have hn := h.below hlink hscope
  refine ⟨?_, not_passed_child hlink hscope hn h.not_passed hc hpassed⟩
  obtain ⟨b, hb, hbelow⟩ := h.in_body
  have hfits := hlink.fits (hlink.children_reached hscope (bodyOf_subset f scope hb))
  exact ⟨b, hb, hfits.mem_descend_of_mem_children hbelow hc⟩

/-- From what is accessible, the sweep goes on to what is accessible. -/
theorem Accessible.visited (h : Accessible f scope n) (hlink : f.Linked) (hscope : scope ∈ f.reached)
    (hplain : ∀ id ∈ f.reached, plainTarget f id = true) (hc : c ∈ visited f n) : Accessible f scope c := by
  have hn := hlink.descendants_reached hscope (h.below hlink hscope)
  obtain hchild | ⟨byRef, target, value, rest, hk, hchildren, hinner⟩ := mem_visited hc
  · exact h.child hlink hscope hchild (not_passed_of_mem_visited hlink hn hchild hc)
  · have htarget : target ∈ f.children n := by simp [hchildren]
    have hpassed : passesOver f n target = false := by
      unfold insideTarget at hinner
      split at hinner
      · cases hinner
      · next hkind =>
        rw [passesOver, hk, hchildren]
        simpa using fun _ => hkind
    have hplace := hplain n hn
    rw [plainTarget, hk, hchildren] at hplace
    have hinside := all_eq_true.mp hplace c hinner
    exact (h.child hlink hscope htarget hpassed).child hlink hscope (insideTarget_subset f target hinner)
      (by simpa using hinside)

theorem accessible_of_mem_bodyOf (hlink : f.Linked) (hscope : scope ∈ f.reached)
    (howns : ownsVariables (f.kind scope) = true) (hc : c ∈ bodyOf f scope) : Accessible f scope c := by
  have hself : scope ∈ f.descendants scope := self_mem_descend ..
  refine ⟨⟨c, hc, self_mem_descend ..⟩, not_passed_child hlink hscope hself (fun a ha b hb hbelow => ?_)
    (bodyOf_subset f scope hc) ?_⟩
  · exact absurd hbelow (hlink.not_mem_descendants_child hscope ha hb)
  · unfold passesOver
    cases hk : f.kind scope with
    | classDecl | interfaceDecl | traitDecl | var | docComment | assign | foreach | catchClause | arrowFunction =>
      rw [hk] at howns
      cases howns
    | _ => rfl

/-- The sweep of a scope asks for nothing but what is due. -/
theorem scope_asks_due (hlink : x.forest.Linked) (hplain : x.forest.PlainScopes)
    (htargets : ∀ id ∈ x.forest.reached, plainTarget x.forest id = true) (hscope : scope ∈ x.forest.reached)
    (howns : ownsVariables (x.forest.kind scope) = true) :
    (Sweeping.scope x scope).Gives (fun q => ∀ n name, q = .read n name → Due x.forest scope n name)
      (fun _ _ => True) fun _ => True := by
  have hfirst : ∀ id ∈ visits (firstSteps x.forest scope),
      Accessible x.forest scope id ∧ id ∈ x.forest.reached ∧ sweepingScope? x.forest id = some scope := by
    intro id hid
    refine ⟨?_, firstSteps_sweepingScope? hlink hscope howns hid⟩
    rw [visits_firstSteps] at hid
    exact accessible_of_mem_bodyOf hlink hscope howns hid
  refine (steps_read (fun id h c hc => ⟨h.1.visited hlink hscope htargets hc,
    visited_sweepingScope? hlink hplain h.2.1 h.2.2 hc⟩) _ hfirst).imp (fun q hq n name heq => ?_) fun _ h => h
  obtain ⟨⟨haccessible, -, hreads⟩, hk, hname⟩ := hq n name heq
  rw [sweepingScope?, hk, if_pos (show isVariable (.var name) = true from rfl)] at hreads
  exact ⟨haccessible, hk, hname, hreads⟩

end Sweeping

/-! ## What sessions remember -/

theorem Dialogue.perform_grows {α : Type} (d : Dialogue Act α) (s : Session) : s.Grows (d.perform s).2 := by
  induction d generalizing s with
  | done a => exact .refl s
  | ask act next ih => exact (act.perform_grows s).trans (ih _ _)

/-- A sweep that comes to its end has remembered what it always asks for. -/
theorem Inquiry.remembers_always {α : Type} {types : NodeId → Inquiry TypeSet} {w : Sweeping α} {n : NodeId}
    {name : String} (h : w.Always (.read n name)) {s : Session}
    (hok : ((w.interpret (answerSweep types)).run.perform s).1.isOk = true) :
    ((w.interpret (answerSweep types)).run.perform s).2.memo.find? n ≠ none := by
  induction w generalizing s with
  | done a => exact h.elim
  | ask q next ih =>
    rw [Dialogue.interpret, perform_bind] at hok ⊢
    obtain rfl | h := h
    · intro hnone
      exact s.find?_rememberRead_ne_none n name ((Dialogue.perform_grows _ _).memo n hnone)
    · rcases hq : (answerSweep types q).run.perform s with ⟨r, s'⟩
      rw [hq] at hok
      cases r with
      | ok a => exact ih a (h a) hok
      | error e => cases hok

namespace Session

/-- What is due in the scopes that count as swept is remembered. -/
def SweptRead (f : Forest) (s : Session) : Prop :=
  ∀ scope ∈ s.swept, scope ∈ f.reached → ∀ n name, Sweeping.Due f scope n name → s.memo.find? n ≠ none

theorem SweptRead.perform {f : Forest} {s : Session} (h : s.SweptRead f) {a : Act}
    (ha : ∀ scope, a ≠ .endSweep scope true) : (a.perform s).2.SweptRead f := by
  intro scope hscope hreached n name hdue hnone
  obtain heq | ⟨ended, heq, -⟩ := a.swept_perform s
  · rw [heq] at hscope
    exact h scope hscope hreached n name hdue ((a.perform_grows s).memo n hnone)
  · exact ha ended heq

/-- A sweep may end where all that is due in its scope is remembered. -/
theorem SweptRead.endSweep {f : Forest} {s : Session} (h : s.SweptRead f) {scope : NodeId} {finished : Bool}
    (hdue : finished = true → scope ∈ f.reached → ∀ n name, Sweeping.Due f scope n name → s.memo.find? n ≠ none) :
    (s.endSweep scope finished).SweptRead f := by
  cases finished with
  | false => exact h.perform (a := .endSweep scope false) nofun
  | true => exact forall_mem_cons.mpr ⟨hdue rfl, h⟩

end Session

namespace Inquiry

variable {x : Index} {inv : Session → Prop} {types : NodeId → Inquiry TypeSet}

section Keeps

variable (hact : ∀ a : Act, (∀ scope finished, a ≠ .endSweep scope finished) → ∀ s, inv s → inv (a.perform s).2)

include hact

theorem keeps_of_ne {a : Act} (ha : ∀ scope finished, a ≠ .endSweep scope finished) :
    Keeps (fun _ _ => True) inv (act a) :=
  keeps_act (fun _ _ => trivial) (hact a ha)

theorem answerSweep_keeps_of_types (htypes : ∀ n, Keeps (fun _ _ => True) inv (types n)) (q : SweepQuestion) :
    Keeps (fun _ _ => True) inv (answerSweep types q) := by
  cases q with
  | types n => exact htypes n
  | isResolving | current | change | read => exact keeps_of_ne hact nofun

variable (hsweep : ∀ types : NodeId → Inquiry TypeSet, (∀ n, Keeps (fun _ _ => True) inv (types n)) →
  ∀ scope, Keeps (fun _ _ => True) inv (sweep x types scope))

include hsweep

theorem answer_keeps_of_types (htypes : ∀ n, Keeps (fun _ _ => True) inv (types n)) (q : NodeQuestion) :
    Keeps (fun _ _ => True) inv (answer x types q) := by
  cases q with
  | types n => exact htypes n
  | read n scope name =>
    exact .readVariable (keeps_of_ne hact nofun) (hsweep types htypes scope) (keeps_of_ne hact nofun)
  | isResolving | collect | writesTo | looseWrites => exact keeps_of_ne hact nofun

/-- What is kept by sweeps, and by all acts but those that end them, is kept by resolutions. -/
theorem resolveWithin_keeps (limit room : Nat) (node : NodeId) :
    Keeps (fun _ _ => True) inv (resolveWithin x limit room node) := by
  refine .resolveWithin (fun _ _ _ => ⟨trivial, trivial, trivial⟩) (fun types htypes node => ?_) limit room node
  exact .framed (keeps_of_ne hact nofun) (.interpret (answer_keeps_of_types hact hsweep htypes) _) fun _ =>
    keeps_of_ne hact nofun

end Keeps

/-- Sweeps remember what is due. -/
theorem sweep_keeps_sweptRead (hlink : x.forest.Linked)
    (htypes : ∀ n, Keeps (fun _ _ => True) (Session.SweptRead x.forest) (types n)) (scope : NodeId) :
    Keeps (fun _ _ => True) (Session.SweptRead x.forest) (sweep x types scope) := by
  intro s hs
  have hbegun : (s.beginSweep scope).2.SweptRead x.forest := hs.perform (a := .beginSweep scope) nofun
  refine sweep_watched trivial (fun _ => hbegun) fun _ => ?_
  rw [← Dialogue.Meets, Dialogue.meets_iff]
  refine ⟨fun _ _ => trivial, trivial, ?_⟩
  have hkept := (Keeps.interpret (answerSweep_keeps_of_types (fun a ha s hs => hs.perform fun scope => ha scope true)
    htypes) (Sweeping.scope x scope)).perform hbegun
  exact hkept.endSweep fun hok hscope n name hdue => remembers_always (Sweeping.scope_always hlink hscope hdue) hok

end Inquiry

namespace Index

open Inquiry Sweeping

/-- **Sweeps remember what is due**: in a linked forest, a sweep of a scope that comes to its end has remembered all
that is due in the scope, whatever it is told; in the course of resolutions this holds of all scopes that count as
swept. And nothing else is remembered, if scopes are plain and so are the places that are assigned to. -/
theorem sweeps_remember_due_reads {x : Index} (hlink : x.forest.Linked) {scope : NodeId}
    (hscope : scope ∈ x.forest.reached) (howns : ownsVariables (x.forest.kind scope) = true) :
    (∀ types s s', (s.beginSweep scope).1 = true → (sweep x types scope).run.perform s = (.ok (), s') →
      ∀ n name, Due x.forest scope n name → s'.memo.find? n ≠ none) ∧
    (∀ limit before, scope ∈ (x.resolveAll limit before {}).swept →
      ∀ n name, Due x.forest scope n name → (x.resolveAll limit before {}).memo.find? n ≠ none) ∧
    (x.forest.PlainScopes → (∀ id ∈ x.forest.reached, plainTarget x.forest id = true) →
      (Sweeping.scope x scope).Gives (fun q => ∀ n name, q = .read n name → Due x.forest scope n name)
        (fun _ _ => True) fun _ => True) := by
  refine ⟨fun types s s' hbegun hrun n name hdue => ?_, fun limit before hswept n name hdue => ?_,
    fun hplain htargets => scope_asks_due hlink hplain htargets hscope howns⟩
  · rw [sweep_perform, if_pos hbegun] at hrun
    obtain ⟨hok, rfl⟩ := Prod.mk.inj hrun
    exact remembers_always (scope_always hlink hscope hdue) (by rw [hok]; rfl)
  · have hkept : (x.resolveAll limit before {}).SweptRead x.forest := by
      refine resolveAll_invariant (Session.SweptRead x.forest) (fun s node hs => ?_) before nofun
      exact (resolveWithin_keeps (fun a ha s hs => hs.perform fun scope => ha scope true)
        (fun types htypes scope => sweep_keeps_sweptRead hlink htypes scope) limit limit node).perform hs
    exact hkept scope hswept hscope n name hdue

/-- A variable that is read in the index of a place that is assigned to, in an arrow function, and by a closure that
takes it along. -/
def readAllOver : Index :=
  ofPrograms [("a.php", "<?php\n$m = [];\n$i = 1;\n$m[$i] = fn($p) => $i . $p;\n" ++
    "$f = function () use ($i) \x7b return $i; \x7d;\n")]

theorem sweeps_remember_due_reads_readAllOver :
    (∀ n ∈ [9, 12, 19], Due readAllOver.forest 26 n "i") ∧ 26 ∈ (readAllOver.resolveAll 512 [9] {}).swept ∧
      (∀ n ∈ [9, 12, 19], (readAllOver.resolveAll 512 [9] {}).memo.find? n ≠ none) ∧
      (Sweeping.scope readAllOver 26).Gives (fun q => ∀ n name, q = .read n name → Due readAllOver.forest 26 n name)
        (fun _ _ => True) fun _ => True := by
  have hfacts : (∀ n ∈ [9, 12, 19], Due readAllOver.forest 26 n "i") ∧
      26 ∈ (readAllOver.resolveAll 512 [9] {}).swept ∧ 26 ∈ readAllOver.forest.reached ∧
      ownsVariables (readAllOver.forest.kind 26) = true ∧ readAllOver.forest.PlainScopes ∧
      ∀ id ∈ readAllOver.forest.reached, plainTarget readAllOver.forest id = true := by decide +kernel
  obtain ⟨hdue, hswept, hreached, howns, hplain, htargets⟩ := hfacts
  have hlink : readAllOver.forest.Linked := (ofForests_built (ofForests_ofPrograms _)).linked
  obtain ⟨-, hall, honly⟩ := sweeps_remember_due_reads hlink hreached howns
  exact ⟨hdue, hswept, fun n hn => hall 512 [9] hswept n "i" (hdue n hn), honly hplain htargets⟩

/-- A variable that is read in the index of the target of a loop, and in that of a place in a list that is assigned
to. -/
def readInTargets : Index :=
  ofPrograms [("a.php", "<?php\n$m = [];\n$i = 1;\nforeach ([2] as $m[$i]) \x7b\x7d\n[$m[$i]] = [2];\n")]

/-- Targets of loops and lists are passed over, so variables that are read inside of them have no types once the scope
was swept. -/
theorem passed_over_reads :
    (∀ n ∈ [11, 16], readInTargets.forest.kind n = .var "i" ∧ readingScope? readInTargets.forest n = some 23 ∧
      ∃ c ∈ bodyOf readInTargets.forest 23, n ∈ readInTargets.forest.descendants c) ∧
    (23 ∈ (readInTargets.resolveAll 512 [11] {}).swept ∧
      (readInTargets.resolveAll 512 [11] {}).memo.find? 16 = none) ∧
    (23 ∈ (readInTargets.resolveAll 512 [16] {}).swept ∧
      (readInTargets.resolveAll 512 [16] {}).memo.find? 11 = none) ∧
    readInTargets.namesAfter? 512 [] 4 = some ["int"] ∧
    ∀ n ∈ [11, 16], readInTargets.namesAfter? 512 [] n = some ["unknown<Variable>"] := by
  decide +kernel

end Index

end EventAtlas
