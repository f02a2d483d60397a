import EventAtlas.Proofs.Inference.Writes

/-!
# What can be inferred

`Yields` says which types a node has, without a session: nothing is remembered, nothing is on the stack, and a scope is
swept anew for each read. It is a relation and no function, because what depends on itself yields nothing.

There are three things that can yield types. A node yields what its strategy yields. A strategy goes on with what the
nodes yield for which it asks. A sweep is held for one reader: it yields what it knows when it comes to the reader, and
nothing if it does not come to it.

Whatever is asked yields one set of types at most (`Yields.unique`).
-/

namespace EventAtlas

/-- What can yield types. -/
inductive TypeSource where
  | node (node : NodeId)
  | strategy (d : Strategy TypeSet)
  /-- What a sweep that goes on with these variables knows when it comes to a reader. -/
  | sweep (reader : NodeId) (d : Sweeping PUnit) (v : Variables)

/-- What the sweep of a scope knows when it comes to a reader. -/
def TypeSource.read (x : Index) (reader scope : NodeId) : TypeSource :=
  .sweep reader (Sweeping.scope x scope) { scope }

/-- The types that a source yields. -/
inductive Yields (x : Index) : TypeSource → TypeSet → Prop
  | node {n : NodeId} {found : TypeSet} :
    Yields x (.strategy (Strategy.dispatch x n)) found →
    Yields x (.node n) (Inquiry.orUnknown (x.forest.kind n) found)
  | done {t : TypeSet} : Yields x (.strategy (.done t)) t
  | types {n : NodeId} {next : TypeSet → Strategy TypeSet} {u t : TypeSet} :
    Yields x (.node n) u → Yields x (.strategy (next u)) t → Yields x (.strategy (.ask (.types n) next)) t
  /-- Nothing is on the stack. -/
  | isResolving {n : NodeId} {next : Bool → Strategy TypeSet} {t : TypeSet} :
    Yields x (.strategy (next false)) t → Yields x (.strategy (.ask (.isResolving n) next)) t
  | read {reader scope : NodeId} {name : String} {next : TypeSet → Strategy TypeSet} {u t : TypeSet} :
    Yields x (.read x reader scope) u → Yields x (.strategy (next u)) t →
    Yields x (.strategy (.ask (.read reader scope name) next)) t
  | collect {c : NodeId} {next : PUnit → Strategy TypeSet} {t : TypeSet} :
    Yields x (.strategy (next ())) t → Yields x (.strategy (.ask (.collect c) next)) t
  | writesTo {decl : NodeId} {next : List PropertyWrite → Strategy TypeSet} {t : TypeSet} :
    Yields x (.strategy (next (x.forest.writesTo decl))) t → Yields x (.strategy (.ask (.writesTo decl) next)) t
  | looseWrites {owner : NodeId} {name : String} {next : List PropertyWrite → Strategy TypeSet} {t : TypeSet} :
    Yields x (.strategy (next (x.forest.looseWrites owner name))) t →
    Yields x (.strategy (.ask (.looseWrites owner name) next)) t
  | swept {reader : NodeId} {v : Variables} : Yields x (.sweep reader (.done ()) v) {}
  | found {reader : NodeId} {name : String} {next : PUnit → Sweeping PUnit} {v : Variables} :
    Yields x (.sweep reader (.ask (.read reader name) next) v) (v.known name)
  | passed {reader n : NodeId} {name : String} {next : PUnit → Sweeping PUnit} {v : Variables} {t : TypeSet} :
    n ≠ reader → Yields x (.sweep reader (next ()) v) t → Yields x (.sweep reader (.ask (.read n name) next) v) t
  | sweepTypes {reader n : NodeId} {next : TypeSet → Sweeping PUnit} {v : Variables} {u t : TypeSet} :
    Yields x (.node n) u → Yields x (.sweep reader (next u) v) t →
    Yields x (.sweep reader (.ask (.types n) next) v) t
  | sweepIsResolving {reader n : NodeId} {next : Bool → Sweeping PUnit} {v : Variables} {t : TypeSet} :
    Yields x (.sweep reader (next false) v) t → Yields x (.sweep reader (.ask (.isResolving n) next) v) t
  | current {reader : NodeId} {next : Option Variables → Sweeping PUnit} {v : Variables} {t : TypeSet} :
    Yields x (.sweep reader (next (some v)) v) t → Yields x (.sweep reader (.ask .current next) v) t
  | change {reader : NodeId} {g : Variables → Variables} {next : PUnit → Sweeping PUnit} {v : Variables}
      {t : TypeSet} :
    Yields x (.sweep reader (next ()) (v.change g)) t →
    Yields x (.sweep reader (.ask (.change g) next) v) t

/-- Whatever is asked yields one set of types at most. -/
theorem Yields.unique {x : Index} {q : TypeSource} {t t' : TypeSet} (h : Yields x q t) (h' : Yields x q t') : t = t' := by
  induction h generalizing t' with
  | node _ ih =>
    cases h' with
    | node hd => rw [ih hd]
  | done =>
    cases h' with
    | done => rfl
  | types _ _ ihu iht =>
    cases h' with
    | types hu ht =>
      obtain rfl := ihu hu
      exact iht ht
  | isResolving _ ih =>
    cases h' with
    | isResolving ht => exact ih ht
  | read _ _ ihu iht =>
    cases h' with
    | read hu ht =>
      obtain rfl := ihu hu
      exact iht ht
  | collect _ ih =>
    cases h' with
    | collect ht => exact ih ht
  | writesTo _ ih =>
    cases h' with
    | writesTo ht => exact ih ht
  | looseWrites _ ih =>
    cases h' with
    | looseWrites ht => exact ih ht
  | swept =>
    cases h' with
    | swept => rfl
  | found =>
    cases h' with
    | found => rfl
    | passed hne _ => exact absurd rfl hne
  | passed hne _ ih =>
    cases h' with
    | found => exact absurd rfl hne
    | passed _ ht => exact ih ht
  | sweepTypes _ _ ihu iht =>
    cases h' with
    | sweepTypes hu ht =>
      obtain rfl := ihu hu
      exact iht ht
  | sweepIsResolving _ ih =>
    cases h' with
    | sweepIsResolving ht => exact ih ht
  | current _ ih =>
    cases h' with
    | current ht => exact ih ht
  | change _ ih =>
    cases h' with
    | change ht => exact ih ht

/-! ## Readers -/

namespace Strategy

variable {f : Forest} {r : Strategy TypeSet}

/-- The strategy of a node is to read a variable in a scope. -/
def readsIn (x : Index) (node scope : NodeId) (name : String) : Bool :=
  match x.forest.kind node, variableTypes x node name with
  | .var n, .ask (.read reader s m) _ => n == name && reader == node && s == scope && m == name
  | _, _ => false

/-- A strategy that begins with a read is `r`. -/
def BeginsAs (r d : Strategy TypeSet) : Prop :=
  ∀ reader scope name next, d = .ask (.read reader scope name) next → d = r

theorem beginsAs_self : BeginsAs r r :=
  fun _ _ _ _ _ => rfl

theorem beginsAs_done (t : TypeSet) : BeginsAs r (.done t) :=
  nofun

theorem beginsAs_unlessResolving (n : NodeId) (g : TypeSet → Strategy TypeSet) : BeginsAs r (unlessResolving n >>= g) :=
  nofun

theorem beginsAs_maybeUnlessResolving (n : Option NodeId) : BeginsAs r (maybeUnlessResolving n) := by
  cases n <;> exact nofun

theorem beginsAs_all (nodes : List NodeId) : BeginsAs r (all nodes) := by
  cases nodes <;> exact nofun

/-- Whether a list is a target is known at once, or there is a look at the stack. -/
theorem destructured?_cases (n : Nat) (target : NodeId) :
    (∃ types, destructured? f n target = .done types) ∨
      ∃ node next, destructured? f n target = .ask (.isResolving node) next := by
  have hmaybe : ∀ (m : Option NodeId) (g : TypeSet → Strategy (Option TypeSet)), (∀ t, ∃ u, g t = .done u) →
      (∃ types, maybeUnlessResolving m >>= g = .done types) ∨
        ∃ node next, maybeUnlessResolving m >>= g = .ask (.isResolving node) next := by
    intro m g hg
    cases m with
    | none => exact .inl (hg {})
    | some node => exact .inr ⟨node, _, rfl⟩
  induction n generalizing target with
  | zero => exact .inl ⟨none, rfl⟩
  | succ n ih =>
    unfold destructured?
    cases f.parent target with
    | none => exact .inl ⟨none, rfl⟩
    | some p =>
      have hlist : (∃ types, (do return (← destructured? f n p).map TypeSet.elements) = .done types) ∨
          ∃ node next, (do return (← destructured? f n p).map TypeSet.elements) = .ask (.isResolving node) next := by
        obtain ⟨types, h⟩ | ⟨node, next, h⟩ := ih p
        · exact .inl ⟨_, by rw [h]; rfl⟩
        · exact .inr ⟨node, _, by rw [h]; rfl⟩
      dsimp only
      split
      · split
        · exact hmaybe _ _ fun t => ⟨_, rfl⟩
        · exact .inl ⟨none, rfl⟩
      · split
        · exact .inr ⟨_, _, rfl⟩
        · exact .inl ⟨none, rfl⟩
      · exact hlist
      · exact hlist
      · exact .inl ⟨none, rfl⟩

theorem beginsAs_destructured {n : Nat} {target : NodeId} {g : Option TypeSet → Strategy TypeSet}
    (hsome : ∀ types, BeginsAs r (g (some types))) (hnone : BeginsAs r (g none)) :
    BeginsAs r (destructured? f n target >>= g) := by
  obtain ⟨types, hd⟩ | ⟨node, next, hd⟩ := destructured?_cases (f := f) n target
  · rw [hd]
    cases types with
    | none => exact hnone
    | some types => exact hsome types
  · rw [hd]
    exact nofun

/-- The strategy of a variable that begins with a read is that read. -/
theorem beginsAs_variableTypes (x : Index) (node : NodeId) (name : String) :
    BeginsAs (readVariable x.forest node name) (variableTypes x node name) := by
  unfold variableTypes
  dsimp only
  split
  · exact beginsAs_done _
  · cases x.forest.parent node with
    | none => exact beginsAs_done _
    | some p =>
      dsimp only
      split
      · split
        · exact beginsAs_maybeUnlessResolving _
        · exact beginsAs_self
      · split
        · exact beginsAs_unlessResolving _ _
        · exact beginsAs_done _
        · exact beginsAs_self
      · exact beginsAs_all _
      · exact beginsAs_destructured beginsAs_done beginsAs_self
      · exact beginsAs_destructured beginsAs_done beginsAs_self
      · exact beginsAs_self

theorem dispatch_of_readsIn {x : Index} {node scope : NodeId} {name : String} (h : readsIn x node scope name = true) :
    dispatch x node = read node scope name := by
  unfold readsIn at h
  split at h
  · next n reader s m next hkind hread =>
    simp only [Bool.and_eq_true, beq_iff_eq] at h
    obtain ⟨⟨⟨rfl, rfl⟩, rfl⟩, rfl⟩ := h
    have hdispatch : dispatch x reader = variableTypes x reader m := by
      unfold dispatch
      dsimp only
      rw [hkind]
    have hself := beginsAs_variableTypes x reader m _ _ _ _ hread
    rw [hself] at hread
    rw [hdispatch, hself]
    unfold readVariable at hread ⊢
    split at hread
    · cases hread
    · cases hread
      rfl
  · cases h

end Strategy

/-- What there is to find for a reader is what the reader yields, unless it is nothing. -/
theorem Yields.node_of_readsIn {x : Index} {node scope : NodeId} {name : String} {types : TypeSet}
    (h : Yields x (.read x node scope) types) (hreads : Strategy.readsIn x node scope name = true)
    (hnonempty : types.isEmpty = false) : Yields x (.node node) types := by
  have hstrategy : Yields x (.strategy (Strategy.dispatch x node)) types := by
    rw [Strategy.dispatch_of_readsIn hreads]
    exact .read h .done
  have hsame : Inquiry.orUnknown (x.forest.kind node) types = types := by
    rw [Inquiry.orUnknown, hnonempty]
    rfl
  have hnode := Yields.node hstrategy
  rwa [hsame] at hnode

end EventAtlas
